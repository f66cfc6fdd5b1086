import EbbRT.Mem.SlabAllocator

/-!
# What one step of the slab allocator does

`Ran` lists everything that a CPU's step can do, with what the code has checked; `allocPartial_cases`
does so for the last part of `SlabCache::Alloc`. The invariants are all proved from these two. At the
end stands the first such result: only a `release` frame gives a block back.
-/

namespace EbbRT

namespace Slab

open EbbRT.Lib

/-! ## The cases of a step -/

/-- What the innermost frame of a CPU can do, and the state after it. `Alloc` aborts in none of these:
that is what `partialPage` leaves open.
Source: `sys/slab_allocator.cpp` `SlabCache::Alloc`, `SlabCache::FlushFreeList`
Kind: D -/
inductive Ran (root : SlabAllocatorRoot) (k : ℕ) (page : Option ℕ) (s : State) (frames : List Frame) :
    Frame → State → Prop
  | lock (nid : ℕ) (htarget : (s.cpus k).target = .node nid) (hfree : s.locks nid = none) :
      Ran root k page s frames .lock { s.setStack k (.alloc false :: frames) with
        locks := Function.update s.locks nid (some k) }
  | spin : Ran root k page s frames .lock s
  | pop (second : Bool) (o : ℕ) (list : List ℕ)
      (hlist : (s.caches (s.cpus k).target).objectList = o :: list) :
      Ran root k page s frames (.alloc second) (finish k ((s.setCache (s.cpus k).target
        { s.caches (s.cpus k).target with objectList := list }).give o))
  | retry (second : Bool) (hnil : (s.caches (s.cpus k).target).objectList = [])
      (hcheck : (s.caches (s.cpus k).target).remoteCheck = true) :
      Ran root k page s frames (.alloc second)
        (s.setStack k (.claim :: .drain :: .alloc second :: frames))
  | partialPage (second : Bool) (s' : State)
      (hstep : allocPartial root k second (s.cpus k).target frames s = some s') :
      Ran root k page s frames (.alloc second) s'
  | noPage (hpage : page = none) : Ran root k page s frames (.nullptr false) (finish k s)
  | addSlab (b : ℕ) (hpage : page = some b) :
      Ran root k page s frames (.nullptr false) (addSlab root (s.cpus k).target b
        { s.setStack k (.alloc true :: frames) with blocks := b :: s.blocks })
  | claim : Ran root k page s frames .claim
      (claimRemoteFreeList (s.cpus k).target (s.setStack k frames))
  | drain (hlen : root.hiwater < (s.caches (s.cpus k).target).objectList.length) :
      Ran root k page s frames .drain
        (s.setStack k (.flush 0 root.freeBatch :: .drain :: frames))
  | drained (hlen : (s.caches (s.cpus k).target).objectList.length ≤ root.hiwater) :
      Ran root k page s frames .drain (s.setStack k frames)
  | flush (freed amount o : ℕ) (list : List ℕ) (hfreed : freed < amount)
      (hlist : (s.caches (s.cpus k).target).objectList = o :: list) :
      Ran root k page s frames (.flush freed amount) (flushObject root k (s.cpus k).target o
        ((s.setStack k (.flush (freed + 1) amount :: frames)).setCache (s.cpus k).target
          { s.caches (s.cpus k).target with objectList := list }))
  | flushed (freed amount : ℕ)
      (hdone : (s.caches (s.cpus k).target).objectList = [] ∨ amount ≤ freed) :
      Ran root k page s frames (.flush freed amount) (s.setStack k frames)
  | release (pfn : ℕ) : Ran root k page s frames (.release pfn) (release pfn (s.setStack k frames))
  | flushRemote : Ran root k page s frames .flushRemote (flushRemoteList root k (s.setStack k frames))

variable {root : SlabAllocatorRoot} {topo : Topology} {s s' : State} {k o b : ℕ} {c : CacheId}
  {page : Option ℕ} {frame : Frame} {frames : List Frame} {second : Bool}

/-- **There are no other cases.**
Source: `sys/slab_allocator.cpp` `SlabCache::Alloc`, `SlabCache::FlushFreeList`
Kind: P -/
theorem Ran.of_runFrame (h : runFrame root k page s frames frame = some s') :
    Ran root k page s frames frame s' := by
  cases frame with
  | lock =>
      rw [runFrame] at h
      split at h
      · cases h
      rename_i nid htarget
      split at h
      · rename_i hfree
        cases h
        exact Ran.lock nid htarget hfree
      · cases h
        exact Ran.spin
  | alloc second =>
      rw [runFrame] at h
      simp only at h
      split at h
      · rename_i o list hlist
        cases h
        exact Ran.pop second o list hlist
      · rename_i hnil
        split at h
        · rename_i hcheck
          cases h
          exact Ran.retry second hnil hcheck
        · exact Ran.partialPage second s' h
  | nullptr second =>
      simp only [runFrame] at h
      split at h
      · cases h
      rename_i hsecond
      obtain rfl : second = false := by simpa using hsecond
      split at h
      · cases h
        exact Ran.noPage rfl
      · cases h
        exact Ran.addSlab _ rfl
  | claim =>
      cases h
      exact Ran.claim
  | drain =>
      rw [runFrame] at h
      split at h
      · rename_i hlen
        cases h
        exact Ran.drain hlen
      · rename_i hlen
        cases h
        exact Ran.drained (Nat.le_of_not_lt hlen)
  | flush freed amount =>
      rw [runFrame] at h
      simp only at h
      split at h
      · rename_i hnil
        cases h
        exact Ran.flushed freed amount (Or.inl hnil)
      rename_i o list hlist
      split at h
      · rename_i hfreed
        cases h
        exact Ran.flush freed amount o list hfreed hlist
      · rename_i hdone
        cases h
        exact Ran.flushed freed amount (Or.inr (Nat.le_of_not_lt hdone))
  | release pfn =>
      cases h
      exact Ran.release pfn
  | flushRemote =>
      cases h
      exact Ran.flushRemote

/-- A CPU that runs has a frame.
Source: none: infrastructure
Kind: L -/
theorem ran_of_step (h : step root topo s (.run k page) = some s') :
    ∃ frame frames, (s.cpus k).stack = frame :: frames ∧ Ran root k page s frames frame s' := by
  rw [step] at h
  split at h
  · cases h
  rename_i frame frames hstack
  exact ⟨frame, frames, hstack, Ran.of_runFrame h⟩

/-- **The last part of `Alloc`**: null, or an object of the first partial page, which leaves the list
when that was its last.
Source: `sys/slab_allocator.cpp` `SlabCache::Alloc`
Kind: P -/
theorem allocPartial_cases (h : allocPartial root k second c frames s = some s') :
    s' = s.setStack k (.nullptr second :: frames) ∨
      ∃ b pages o d t, (s.caches c).partialPageList = b :: pages ∧
        (t = s ∨ t = s.setCache c { s.caches c with partialPageList := pages }) ∧
        d.used = (s.data b).used + 1 ∧ d.cache = (s.data b).cache ∧
        s' = finish k ((t.setData b d).give o) := by
  rw [allocPartial] at h
  split at h
  · cases h
    exact Or.inl rfl
  rename_i b pages hpages
  simp only at h
  split at h
  · split at h
    · cases h
    rename_i o list hlist
    cases h
    refine Or.inr ⟨b, pages, o, _, _, hpages, ?_, ?_, ?_, rfl⟩
    · split
      · exact Or.inr rfl
      · exact Or.inl rfl
    · rfl
    · rfl
  · cases h

/-! ## Which blocks a step gives back -/

/-- Source: `sys/slab_allocator.cpp` `SlabAllocator::FlushRemoteList`
Kind: L -/
theorem flushRemoteList_blocks : (flushRemoteList root k s).blocks = s.blocks := by
  rw [flushRemoteList]
  split <;> rfl

/-- Source: `sys/slab_allocator.cpp` `SlabAllocator::FreeRemote`
Kind: L -/
theorem freeRemote_blocks : (freeRemote root k o s).blocks = s.blocks := by
  have hturn : ∀ c, (turnTo root k c s).blocks = s.blocks := by
    intro c
    rw [turnTo]
    split
    · exact flushRemoteList_blocks
    · rfl
  rw [freeRemote]
  simp only
  split <;> exact hturn _

/-- Source: `sys/slab_allocator.cpp` `SlabCache::FlushFreeList`
Kind: L -/
theorem flushObject_blocks : (flushObject root k c o s).blocks = s.blocks := by
  rw [flushObject]
  simp only
  split
  · exact freeRemote_blocks
  split
  · split <;> rfl
  split <;> rfl

/-- A call returns. Source: `sys/slab_allocator.cpp` `SlabAllocatorNode::Alloc`. Kind: L -/
theorem finish_blocks : (finish k s).blocks = s.blocks := by
  rw [finish]
  split <;> rfl

/-- Source: `sys/slab_allocator.cpp` `SlabCache::Alloc`
Kind: L -/
theorem allocPartial_blocks (h : allocPartial root k second c frames s = some s') :
    s'.blocks = s.blocks := by
  rcases allocPartial_cases h with rfl | ⟨b, pages, o, d, t, -, rfl | rfl, -, -, rfl⟩
  · rfl
  · rw [finish_blocks]
    rfl
  · rw [finish_blocks]
    rfl

/-- A call begins. Source: `sys/slab_allocator.cpp` `SlabAllocator`. Kind: L -/
theorem start_blocks (op : Op) : (start root k topo s op).blocks = s.blocks := by
  cases op with
  | alloc nid =>
      rw [start]
      split <;> rfl
  | free p =>
      rw [start]
      simp only
      split
      · rw [cacheFree]
        simp only
        split <;> rfl
      · rw [freeRemote_blocks]
        rfl
  | freeRemote p =>
      rw [start, freeRemote_blocks]
      rfl
  | flushFreeList amount => rfl
  | flushRemoteList => rfl
  | claimRemoteFreeList => rfl

/-- **Only a `release` frame gives a block back.**
Source: `sys/slab_allocator.cpp` `SlabCache::FlushFreeList`
Kind: P -/
theorem step_blocks {a : Step} (hstep : step root topo s a = some s')
    (hb : b ∈ s.blocks) (hb' : b ∉ s'.blocks) :
    ∃ k frames, (s.cpus k).stack = .release b :: frames := by
  have hsame : s'.blocks = s.blocks → ∃ k frames, (s.cpus k).stack = .release b :: frames :=
    fun heq => absurd (heq ▸ hb) hb'
  cases a with
  | call k op =>
      cases hstep
      exact hsame (start_blocks op)
  | run k page =>
      obtain ⟨frame, frames, hstack, hran⟩ := ran_of_step hstep
      cases hran with
      | release pfn =>
          have heq : b = pfn := by
            by_contra hne
            exact hb' ((List.mem_erase_of_ne hne).mpr hb)
          exact ⟨k, frames, by rw [heq, hstack]⟩
      | addSlab b₀ => exact absurd (List.mem_cons_of_mem b₀ hb) hb'
      | pop => exact hsame finish_blocks
      | partialPage _ _ hpartial => exact hsame (allocPartial_blocks hpartial)
      | noPage => exact hsame finish_blocks
      | flush => exact hsame flushObject_blocks
      | flushRemote => exact hsame flushRemoteList_blocks
      | _ => exact hsame rfl

end Slab

end EbbRT
