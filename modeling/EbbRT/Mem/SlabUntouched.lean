import EbbRT.Mem.SlabRuns

/-!
# A cache that nobody has used

Until the allocator of a node is there, nothing leads to its cache: no page structure of a slab names it, no
CPU runs on it or keeps objects for it, and it is as it was constructed (`Untouched`). Every step keeps to
that but the call of `Alloc` for that node (`Untouched.step`).
-/

namespace EbbRT

namespace Slab

open EbbRT.Lib

/-- Source: `sys/slab_allocator.cpp` `SlabCache::SlabCache`. Kind: D -/
def SlabCache.construct : SlabCache := ⟨[], [], [], false⟩

/-- No object belongs to the cache, no CPU works on it, and it is as it was constructed.
Source: `sys/slab_allocator.hpp` `SlabCache`, `SlabAllocator`
Kind: D -/
structure Untouched (root : SlabAllocatorRoot) (c : CacheId) (s : State) : Prop where
  owner : ∀ b ∈ s.blocks, ∀ o ∈ root.objects b, (s.data (pfnDown o)).cache ≠ c
  target : ∀ k, (s.cpus k).target ≠ c
  remoteCache : ∀ k, (s.cpus k).remoteCache ≠ some c
  fresh : s.caches c = SlabCache.construct

variable {root : SlabAllocatorRoot} {topo : Topology} {s s' : State} {k o b : ℕ} {c d : CacheId}
  {page : Option ℕ} {frame : Frame} {frames : List Frame}

namespace Untouched

/-- Before the first call, but for the CPUs' own caches.
Source: `sys/slab_allocator.cpp` `SlabAllocatorRoot::SlabAllocatorRoot`
Kind: L -/
theorem init (boot : ℕ → SlabData) (hc : ∀ k, .cpu k ≠ c) : Untouched root c (State.init boot) where
  owner _ hb := absurd hb List.not_mem_nil
  target k := hc k
  remoteCache _ := nofun
  fresh := rfl

/-- Pages and blocks change, but no cache of a page, and no block is new.
Source: none: infrastructure
Kind: L -/
theorem of_pages (h : Untouched root c s) (hcache : ∀ q, (s'.data q).cache = (s.data q).cache)
    (hblocks : ∀ b ∈ s'.blocks, b ∈ s.blocks) (hcaches : s'.caches = s.caches)
    (hcpus : s'.cpus = s.cpus) : Untouched root c s' := by
  refine ⟨fun b hb o ho => ?_, ?_, ?_, ?_⟩
  · rw [hcache]
    exact h.owner b (hblocks b hb) o ho
  · rw [hcpus]
    exact h.target
  · rw [hcpus]
    exact h.remoteCache
  · rw [hcaches]
    exact h.fresh

/-- Source: none: infrastructure. Kind: L -/
theorem setData (h : Untouched root c s) {v : SlabData} (hv : v.cache = (s.data b).cache) :
    Untouched root c (s.setData b v) := by
  refine h.of_pages (fun q => ?_) (fun _ hb => hb) rfl rfl
  rw [State.setData_data]
  by_cases hq : q = b
  · rw [hq, Function.update_self, hv]
  · rw [Function.update_of_ne hq]

/-- Another cache changes. Source: none: infrastructure. Kind: L -/
theorem setCache (h : Untouched root c s) (hd : c ≠ d) (v : SlabCache) : Untouched root c (s.setCache d v) := by
  refine ⟨h.owner, h.target, h.remoteCache, ?_⟩
  rw [State.setCache_caches, Function.update_of_ne hd]
  exact h.fresh

/-- One CPU changes. Source: none: infrastructure. Kind: L -/
theorem setCpu (h : Untouched root c s) {v : SlabAllocator} (htarget : v.target ≠ c)
    (hremote : v.remoteCache ≠ some c) : Untouched root c (s.setCpu k v) := by
  refine ⟨h.owner, fun k' => ?_, fun k' => ?_, h.fresh⟩
  · rw [State.setCpu_cpus]
    by_cases hk : k' = k
    · rw [hk, Function.update_self]
      exact htarget
    · rw [Function.update_of_ne hk]
      exact h.target k'
  · rw [State.setCpu_cpus]
    by_cases hk : k' = k
    · rw [hk, Function.update_self]
      exact hremote
    · rw [Function.update_of_ne hk]
      exact h.remoteCache k'

/-- Source: none: infrastructure. Kind: L -/
theorem setStack (h : Untouched root c s) (frames : List Frame) : Untouched root c (s.setStack k frames) :=
  h.setCpu (h.target k) (h.remoteCache k)

/-- Source: none: infrastructure. Kind: L -/
theorem setHeld (h : Untouched root c s) (held : List ℕ) : Untouched root c { s with held := held } :=
  h.of_pages (fun _ => rfl) (fun _ hb => hb) rfl rfl

/-! ## The functions -/

/-- Source: `sys/slab_allocator.cpp` `SlabAllocator::FlushRemoteList`. Kind: L -/
theorem flushRemoteList (h : Untouched root c s) : Untouched root c (flushRemoteList root k s) := by
  unfold Slab.flushRemoteList
  cases hcache : (s.cpus k).remoteCache with
  | none => exact h
  | some d =>
      have hd : c ≠ d := by
        rintro rfl
        exact h.remoteCache k hcache
      exact (h.setCache hd _).setCpu (h.target k) (h.remoteCache k)

/-- Source: `sys/slab_allocator.cpp` `SlabAllocator::FreeRemote`. Kind: L -/
theorem turnTo (h : Untouched root c s) (hd : d ≠ c) : Untouched root c (turnTo root k d s) := by
  unfold Slab.turnTo
  split
  · apply h.flushRemoteList.setCpu
    · exact h.flushRemoteList.target k
    · exact fun heq => hd (Option.some.inj heq)
  · exact h

/-- The object belongs to another cache.
Source: `sys/slab_allocator.cpp` `SlabAllocator::FreeRemote`
Kind: L -/
theorem freeRemote (h : Untouched root c s) (ho : (s.data (pfnDown o)).cache ≠ c) :
    Untouched root c (freeRemote root k o s) := by
  unfold Slab.freeRemote
  dsimp only
  have hturn : Untouched root c (Slab.turnTo root k (s.data (pfnDown o)).cache s) := h.turnTo ho
  generalize Slab.turnTo root k (s.data (pfnDown o)).cache s = t at hturn ⊢
  have hput : Untouched root c (t.setCpu k
      { t.cpus k with remoteList := o :: (t.cpus k).remoteList }) :=
    hturn.setCpu (hturn.target k) (hturn.remoteCache k)
  split
  · exact hput.setStack _
  · exact hput

/-- Source: `sys/slab_allocator.cpp` `SlabCache::Free`. Kind: L -/
theorem cacheFree (h : Untouched root c s) (hd : c ≠ d) : Untouched root c (cacheFree root k d o s) := by
  unfold Slab.cacheFree
  dsimp only
  split
  · exact (h.setCache hd _).setStack _
  · exact h.setCache hd _

/-- The object belongs to another cache.
Source: `sys/slab_allocator.cpp` `SlabCache::FlushFreeList`
Kind: L -/
theorem flushObject (h : Untouched root c s) (hd : c ≠ d) (ho : (s.data (pfnDown o)).cache ≠ c) :
    Untouched root c (flushObject root k d o s) := by
  unfold Slab.flushObject
  dsimp only
  have hslab : ∀ list used, Untouched root c (s.setData (addrToSlabPfn o root.order)
      { s.data (addrToSlabPfn o root.order) with list := list, used := used }) :=
    fun _ _ => h.setData rfl
  split
  · exact h.freeRemote ho
  · split
    · split
      · exact ((hslab _ _).setCache hd _).setStack _
      · exact (hslab _ _).setStack _
    · split
      · exact (hslab _ _).setCache hd _
      · exact hslab _ _

/-- Source: `sys/slab_allocator.cpp` `SlabCache::FlushFreeList`. Kind: L -/
theorem release (h : Untouched root c s) : Untouched root c (release b s) := by
  have hdata : Untouched root c (s.setData b { s.data b with list := [] }) := h.setData rfl
  exact hdata.of_pages (fun _ => rfl) (fun _ hb => List.mem_of_mem_erase hb) rfl rfl

/-- Source: `sys/slab_allocator.cpp` `SlabAllocator::Alloc`. Kind: L -/
theorem finish (h : Untouched root c s) : Untouched root c (finish k s) := by
  have h' : Untouched root c (s.setStack k []) := h.setStack []
  unfold Slab.finish
  dsimp only
  split
  · exact h'
  · exact h'.of_pages (fun _ => rfl) (fun _ hb => hb) rfl rfl

/-- Source: `sys/slab_allocator.cpp` `SlabCache::Alloc`. Kind: L -/
theorem allocPartial (h : Untouched root c s) (hd : c ≠ d) {second : Bool}
    (hstep : allocPartial root k second d frames s = some s') : Untouched root c s' := by
  rcases allocPartial_cases hstep with rfl | ⟨b, pages, o, v, t, -, ht, -, hcache, rfl⟩
  · exact h.setStack _
  · obtain ⟨hkept, hsame⟩ : Untouched root c t ∧ t.data = s.data := by
      rcases ht with rfl | rfl
      · exact ⟨h, rfl⟩
      · exact ⟨h.setCache hd _, rfl⟩
    have hdata : Untouched root c (t.setData b v) := hkept.setData (by rw [hcache, hsame])
    exact (hdata.setHeld _).finish

/-- The new slab's pages name the cache that has asked for it.
Source: `sys/slab_allocator.cpp` `SlabCache::AddSlab`
Kind: L -/
theorem addSlab (h : Untouched root c s) (hd : c ≠ d) :
    Untouched root c (addSlab root d b { s with blocks := b :: s.blocks }) := by
  refine ⟨fun b' hb' o ho => ?_, h.target, h.remoteCache, ?_⟩
  · rw [addSlab_data]
    dsimp only
    split
    · exact hd.symm
    · rename_i hother
      rcases List.mem_cons.mp hb' with rfl | hb'
      · exact absurd (List.mem_map_of_mem ho) hother
      · exact h.owner b' hb' o ho
  · show Function.update s.caches d _ c = _
    rw [Function.update_of_ne hd]
    exact h.fresh

/-! ## The steps -/

/-- An object in a place belongs to another cache.
Source: `sys/slab_allocator.cpp` `SlabCache::AddSlab`
Kind: L -/
theorem owner_ne (h : Untouched root c s) (hgood : Good root s) {p : Place} (ho : o ∈ s.contents p) :
    (s.data (pfnDown o)).cache ≠ c := by
  obtain ⟨hb, hmem⟩ := hgood.inv.slab_of_mem (p := some p) ho
  exact h.owner _ hb o hmem

/-- Source: `sys/slab_allocator.cpp` `SlabCache::Alloc`, `SlabCache::FlushFreeList`. Kind: L -/
theorem run (h : Untouched root c s) (hgood : Good root s) (hran : Ran root k page s frames frame s') :
    Untouched root c s' := by
  have htarget : c ≠ (s.cpus k).target := (h.target k).symm
  cases hran with
  | lock => exact (h.setStack _).of_pages (fun _ => rfl) (fun _ hb => hb) rfl rfl
  | spin => exact h
  | pop => exact ((h.setCache htarget _).setHeld _).finish
  | retry => exact h.setStack _
  | partialPage second s' hstep => exact h.allocPartial htarget hstep
  | noPage => exact h.finish
  | addSlab b => exact (h.setStack _).addSlab htarget
  | claim => exact (h.setStack _).setCache htarget _
  | drain => exact h.setStack _
  | drained => exact h.setStack _
  | flush freed amount o list hfreed hlist =>
      have ho : o ∈ s.contents (.objectList (s.cpus k).target) := by
        show o ∈ (s.caches (s.cpus k).target).objectList
        rw [hlist]
        exact List.mem_cons_self
      exact ((h.setStack _).setCache htarget _).flushObject htarget (h.owner_ne hgood ho)
  | flushed => exact h.setStack _
  | release => exact (h.setStack _).release
  | flushRemote => exact (h.setStack _).flushRemoteList

/-- Source: `sys/slab_allocator.cpp` `SlabAllocator::Alloc`, `SlabAllocator::Free`. Kind: L -/
theorem start (h : Untouched root c s) (hgood : Good root s) {op : Op} (hc : ∀ k, .cpu k ≠ c)
    (hlegal : OpLegal s op) (hop : ∀ nid, op = .alloc nid → nid ≠ topo.nodeOf k → .node nid ≠ c) :
    Untouched root c (start root k topo s op) := by
  have hcpu : ∀ frames, Untouched root c
      (s.setCpu k { s.cpus k with target := .cpu k, stack := frames }) :=
    fun _ => h.setCpu (hc k) (h.remoteCache k)
  have htake : ∀ p, Untouched root c ((s.setCpu k { s.cpus k with target := .cpu k }).take p) := by
    intro p
    have hset : Untouched root c (s.setCpu k { s.cpus k with target := .cpu k }) :=
      h.setCpu (hc k) (h.remoteCache k)
    exact hset.setHeld _
  unfold Slab.start
  cases op with
  | alloc nid =>
      dsimp only
      split
      · exact hcpu _
      · rename_i hnode
        exact h.setCpu (hop nid rfl hnode) (h.remoteCache k)
  | free p =>
      dsimp only
      split
      · exact (htake p).cacheFree (hc k).symm
      · exact (htake p).freeRemote (h.owner_ne hgood (p := .held) hlegal)
  | freeRemote p => exact (htake p).freeRemote (h.owner_ne hgood (p := .held) hlegal)
  | flushFreeList amount => exact hcpu _
  | flushRemoteList => exact hcpu _
  | claimRemoteFreeList => exact hcpu _

/-- **Nothing leads to a node's cache** but a call of `Alloc` for that node.
Source: `sys/slab_allocator.cpp` `SlabAllocator`
Kind: P -/
theorem step (h : Untouched root c s) (hgood : Good root s) {a : Step} (hc : ∀ k, .cpu k ≠ c)
    (hlegal : Legal root s a)
    (ha : ∀ k nid, a = .call k (.alloc nid) → nid ≠ topo.nodeOf k → .node nid ≠ c)
    (hstep : Slab.step root topo s a = some s') : Untouched root c s' := by
  cases a with
  | call k op =>
      obtain rfl := Option.some.inj hstep
      apply h.start hgood hc hlegal.2
      intro nid hop
      exact ha k nid (by rw [hop])
  | run k page =>
      obtain ⟨frame, frames, -, hran⟩ := ran_of_step hstep
      exact h.run hgood hran

end Untouched

end Slab

end EbbRT
