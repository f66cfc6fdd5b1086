import EbbRT.Mem.SlabRuns

/-!
# What a step of a slab allocator means to the outside

`Kept k s s'`: blocks and clients' objects are as before and only CPU `k` has done something. All
functions but four keep to this; the four take a block from the page allocator or give one back
(`run_took`, `run_released`), hand an object to a client (`run_outward`) or take one (`kept_start_free`).
-/

namespace EbbRT

namespace Slab

open EbbRT.Lib

/-- Blocks and clients' objects are as before, and so are the other CPUs.
Source: `sys/slab_allocator.hpp` `SlabAllocator`
Kind: D -/
structure Kept (k : ℕ) (s s' : State) : Prop where
  blocks : s'.blocks = s.blocks
  held : s'.held = s.held
  cpus : ∀ k', k' ≠ k → s'.cpus k' = s.cpus k'

variable {root : SlabAllocatorRoot} {topo : Topology} {s s' s'' : State} {k o b : ℕ} {c : CacheId}
  {page : Option ℕ}

namespace Kept

/-- Source: none: infrastructure. Kind: L -/
theorem refl : Kept k s s := ⟨rfl, rfl, fun _ _ => rfl⟩

/-- Source: none: infrastructure. Kind: L -/
theorem trans (h : Kept k s s') (h' : Kept k s' s'') : Kept k s s'' where
  blocks := h'.blocks.trans h.blocks
  held := h'.held.trans h.held
  cpus k' hk := (h'.cpus k' hk).trans (h.cpus k' hk)

/-- Caches and pages may change. Source: none: infrastructure. Kind: L -/
theorem of_eq (hblocks : s'.blocks = s.blocks) (hheld : s'.held = s.held) (hcpus : s'.cpus = s.cpus) :
    Kept k s s' := ⟨hblocks, hheld, fun k' _ => congrFun hcpus k'⟩

/-- The CPU itself may change. Source: none: infrastructure. Kind: L -/
theorem setCpu (v : SlabAllocator) : Kept k s (s.setCpu k v) :=
  ⟨rfl, rfl, fun _ hk => Function.update_of_ne hk _ _⟩

/-- Source: none: infrastructure. Kind: L -/
theorem setStack (frames : List Frame) : Kept k s (s.setStack k frames) := setCpu _

/-- Source: none: infrastructure. Kind: L -/
theorem setCache (v : SlabCache) : Kept k s (s.setCache c v) := of_eq rfl rfl rfl

/-- Source: `sys/slab_allocator.cpp` `SlabAllocator::FlushRemoteList`. Kind: L -/
theorem flushRemoteList : Kept k s (flushRemoteList root k s) := by
  unfold Slab.flushRemoteList
  cases (s.cpus k).remoteCache with
  | none => exact refl
  | some c =>
      apply trans (setCache _)
      apply setCpu

/-- Source: `sys/slab_allocator.cpp` `SlabAllocator::FreeRemote`. Kind: L -/
theorem turnTo : Kept k s (turnTo root k c s) := by
  unfold Slab.turnTo
  split
  · apply trans flushRemoteList
    apply setCpu
  · exact refl

/-- Source: `sys/slab_allocator.cpp` `SlabAllocator::FreeRemote`. Kind: L -/
theorem freeRemote : Kept k s (freeRemote root k o s) := by
  unfold Slab.freeRemote
  dsimp only
  split
  · apply trans turnTo
    apply trans (setCpu _)
    apply setStack
  · apply trans turnTo
    apply setCpu

/-- Source: `sys/slab_allocator.cpp` `SlabCache::Free`. Kind: L -/
theorem cacheFree : Kept k s (cacheFree root k c o s) := by
  unfold Slab.cacheFree
  dsimp only
  split
  · apply trans (setCache _)
    apply setStack
  · exact setCache _

/-- Source: `sys/slab_allocator.cpp` `SlabCache::FlushFreeList`. Kind: L -/
theorem flushObject : Kept k s (flushObject root k c o s) := by
  unfold Slab.flushObject
  dsimp only
  have hdata : ∀ b d, Kept k s (s.setData b d) := fun b d => of_eq rfl rfl rfl
  split
  · exact freeRemote
  · split
    · split
      · apply trans (hdata _ _)
        apply trans (setCache _)
        apply setStack
      · apply trans (hdata _ _)
        apply setStack
    · split
      · apply trans (hdata _ _)
        apply setCache
      · exact hdata _ _

/-- A call returns. Source: `sys/slab_allocator.cpp` `SlabAllocatorNode::Alloc`. Kind: L -/
theorem finish : Kept k s (finish k s) := by
  unfold Slab.finish
  dsimp only
  split
  · exact setStack _
  · apply trans (setStack [])
    exact of_eq rfl rfl rfl

end Kept

/-- **What a step of a running CPU does** to the outside where it does not call the page allocator: nothing, or
it hands an object out.
Source: `sys/slab_allocator.cpp` `SlabCache::Alloc`, `SlabCache::FlushFreeList`
Kind: D -/
inductive Outward (k : ℕ) (s s' : State) : Prop
  | kept (h : Kept k s s')
  | gave (o : ℕ) (hblocks : s'.blocks = s.blocks) (hheld : s'.held = o :: s.held)
      (hcpus : ∀ k', k' ≠ k → s'.cpus k' = s.cpus k')

/-- An object is handed out as the call returns. Source: `sys/slab_allocator.cpp` `SlabCache::Alloc`. Kind: L -/
theorem outward_give {t : State} (h : Kept k s t) : Outward k s (finish k (t.give o)) := by
  have hfinish : Kept k (t.give o) (finish k (t.give o)) := Kept.finish
  apply Outward.gave o
  · exact hfinish.blocks.trans h.blocks
  · rw [hfinish.held, State.give_held, h.held]
  · intro k' hk
    exact (hfinish.cpus k' hk).trans (h.cpus k' hk)

/-- **A step of a running CPU** that does not call the page allocator.
Source: `sys/slab_allocator.cpp` `SlabCache::Alloc`, `SlabCache::FlushFreeList`
Kind: P -/
theorem run_outward (hstep : step root topo s (.run k page) = some s')
    (hnullptr : ∀ frames, (s.cpus k).stack ≠ .nullptr false :: frames)
    (hrelease : ∀ pfn frames, (s.cpus k).stack ≠ .release pfn :: frames) : Outward k s s' := by
  obtain ⟨frame, frames, hstack, hran⟩ := ran_of_step hstep
  cases hran with
  | lock nid htarget hfree =>
      apply Outward.kept
      apply Kept.trans (Kept.setStack (.alloc false :: frames))
      exact Kept.of_eq rfl rfl rfl
  | spin => exact Outward.kept Kept.refl
  | pop second o list hlist => exact outward_give (Kept.setCache _)
  | retry second hnil hcheck => exact Outward.kept (Kept.setStack _)
  | partialPage second s' hpartial =>
      rcases allocPartial_cases hpartial with rfl | ⟨b, pages, o, d, t, -, ht, -, -, rfl⟩
      · exact Outward.kept (Kept.setStack _)
      · have hkept : Kept k s t := by
          rcases ht with rfl | rfl
          · exact Kept.refl
          · exact Kept.setCache _
        exact outward_give (t := t.setData b d) (hkept.trans (Kept.of_eq rfl rfl rfl))
  | noPage hpage => exact absurd hstack (hnullptr frames)
  | addSlab b hpage => exact absurd hstack (hnullptr frames)
  | claim =>
      apply Outward.kept
      apply Kept.trans (Kept.setStack frames)
      exact Kept.setCache _
  | drain hlen => exact Outward.kept (Kept.setStack _)
  | drained hlen => exact Outward.kept (Kept.setStack _)
  | flush freed amount o list hfreed hlist =>
      apply Outward.kept
      apply Kept.trans (Kept.setStack (.flush (freed + 1) amount :: frames))
      apply Kept.trans (Kept.setCache _)
      exact Kept.flushObject
  | flushed freed amount hdone => exact Outward.kept (Kept.setStack _)
  | release pfn => exact absurd hstack (hrelease pfn frames)
  | flushRemote =>
      apply Outward.kept
      apply Kept.trans (Kept.setStack frames)
      exact Kept.flushRemoteList

/-- **A new slab.** Source: `sys/slab_allocator.cpp` `SlabCache::AddSlab`. Kind: L -/
theorem run_took {frames : List Frame} (hstep : step root topo s (.run k (some b)) = some s')
    (hstack : (s.cpus k).stack = .nullptr false :: frames) :
    s'.blocks = b :: s.blocks ∧ s'.held = s.held ∧ ∀ k', k' ≠ k → s'.cpus k' = s.cpus k' := by
  obtain ⟨frame, frames', hstack', hran⟩ := ran_of_step hstep
  rw [hstack] at hstack'
  cases hstack'
  cases hran with
  | noPage hpage => cases hpage
  | addSlab b' hpage =>
      cases hpage
      exact ⟨rfl, rfl, fun k' hk => Function.update_of_ne hk _ _⟩

/-- **A slab is given back.** Source: `sys/slab_allocator.cpp` `SlabCache::FlushFreeList`. Kind: L -/
theorem run_released {frames : List Frame} (hstep : step root topo s (.run k page) = some s')
    (hstack : (s.cpus k).stack = .release b :: frames) :
    s'.blocks = s.blocks.erase b ∧ s'.held = s.held ∧ ∀ k', k' ≠ k → s'.cpus k' = s.cpus k' := by
  obtain ⟨frame, frames', hstack', hran⟩ := ran_of_step hstep
  rw [hstack] at hstack'
  cases hstack'
  cases hran with
  | release => exact ⟨rfl, rfl, fun k' hk => Function.update_of_ne hk _ _⟩

/-- **A call of `Alloc` begins.** Source: `sys/slab_allocator.cpp` `SlabAllocator::Alloc`. Kind: L -/
theorem kept_start_alloc (nid : ℕ) : Kept k s (start root k topo s (.alloc nid)) := by
  unfold start
  dsimp only
  split <;> exact Kept.setCpu _

/-- **A call of `Free` begins**: the object is the allocator's.
Source: `sys/slab_allocator.cpp` `SlabAllocator::Free`
Kind: L -/
theorem kept_start_free (p : ℕ) : Kept k (s.take p) (start root k topo s (.free p)) := by
  unfold start
  dsimp only
  have htake : Kept k (s.take p) ((s.setCpu k { s.cpus k with target := .cpu k }).take p) :=
    ⟨rfl, rfl, fun _ hk => Function.update_of_ne hk _ _⟩
  split
  · exact htake.trans Kept.cacheFree
  · exact htake.trans Kept.freeRemote

end Slab

end EbbRT
