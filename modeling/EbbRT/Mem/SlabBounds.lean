import EbbRT.Mem.SlabRuns

/-!
# How long the lists of a cache get

`Free` flushes when `object_list_` is longer than `hiwater`, `Alloc` flushes what it claims down to
it, and `FlushRemoteList` marks the cache when `remote_.list` reaches `free_batch`. All three work
when `free_batch` is not zero (`Room`, `Marked`). It is zero for objects of more than 64 pages: then
`FlushFreeList(free_batch)` does nothing and no cache is ever marked.
`slabBounds_exactlyWhen`: the size is all that matters.
-/

namespace EbbRT

namespace Slab

open EbbRT.Lib

/-! ## The bounds -/

/-- Everything but a `ClaimRemoteFreeList` outside `Alloc`.
Source: `sys/slab_allocator.cpp` `SlabCache::Alloc`
Kind: D -/
def ClaimsInAlloc (_ : State) : Step → Prop
  | .call _ .claimRemoteFreeList => False
  | _ => True

/-- The CPU that takes a step. Source: none: infrastructure. Kind: D -/
def Step.cpu : Step → ℕ
  | .call k _ => k
  | .run k _ => k

/-- The bounds over one step: when a call returns, `object_list_` of the cache that it worked on has at
most `hiwater` objects; `FlushFreeList(free_batch)` takes an object off a list that is not empty; a
cache with `free_batch` objects in `remote_.list`, or with one if that is zero, is marked.
Source: `sys/slab_allocator.cpp` `SlabCache::Free`, `SlabAllocator::FlushRemoteList`
Kind: D -/
structure Bounded (root : SlabAllocatorRoot) (s : State) (a : Step) (s' : State) : Prop where
  returned : (s'.cpus a.cpu).stack = [] →
    (s'.caches (s'.cpus a.cpu).target).objectList.length ≤ root.hiwater
  flushes : ∀ k page frames, a = .run k page →
    (s.cpus k).stack = .flush 0 root.freeBatch :: frames →
    (s.caches (s.cpus k).target).objectList ≠ [] →
    (s'.caches (s.cpus k).target).objectList.length <
      (s.caches (s.cpus k).target).objectList.length
  marked : ∀ c, max root.freeBatch 1 ≤ (s'.caches c).remote.length →
    (s'.caches c).remoteCheck = true

/-- Every step of every run keeps the bounds.
Source: `sys/slab_allocator.cpp` `SlabAllocatorRoot`
Kind: D -/
def StaysBounded (root : SlabAllocatorRoot) : Prop :=
  ∀ (topo : Topology) (boot : ℕ → SlabData),
    ((slabSystem root topo).guard ClaimsInAlloc).Always (State.init boot) (Bounded root)

variable {root : SlabAllocatorRoot} {topo : Topology} {s s' : State} {k o : ℕ} {c : CacheId}

/-- `free_batch` is zero for objects of more than 64 pages, and only for these.
Source: `sys/slab_allocator.cpp` `calculate_freebatch`
Kind: P -/
theorem freeBatch_pos_iff (root : SlabAllocatorRoot) :
    0 < root.freeBatch ↔ root.size ≤ 64 * pageSize := by
  have hpos := root.size_pos
  have hfour : 4 * pageSize / root.size ≤ 64 * pageSize / root.size :=
    Nat.div_le_div_right (Nat.mul_le_mul_right _ (by omega))
  have hdiv : 0 < 64 * pageSize / root.size ↔ root.size ≤ 64 * pageSize := by
    rw [Nat.div_pos_iff]
    exact and_iff_right hpos
  rw [root.freeBatch_eq, calculateFreebatch, ← hdiv]
  omega

/-! ## Marks -/

/-- A cache with `free_batch` objects in `remote_.list` is marked.
Source: `sys/slab_allocator.cpp` `SlabAllocator::FlushRemoteList`
Kind: D -/
def Marked (root : SlabAllocatorRoot) (s : State) : Prop :=
  ∀ c, root.freeBatch ≤ (s.caches c).remote.length → (s.caches c).remoteCheck = true

namespace Marked

/-- The caches are as before. Source: none: infrastructure. Kind: L -/
theorem of_caches (h : Marked root s) (hcaches : s'.caches = s.caches) : Marked root s' := by
  rw [Marked, hcaches]
  exact h

/-- One cache is written. Source: none: infrastructure. Kind: L -/
theorem setCache (h : Marked root s) {v : SlabCache}
    (hv : root.freeBatch ≤ v.remote.length → v.remoteCheck = true) :
    Marked root (s.setCache c v) := by
  intro c'
  rw [State.setCache_caches]
  by_cases hc : c' = c
  · rw [hc, Function.update_self]
    exact hv
  · rw [Function.update_of_ne hc]
    exact h c'

/-- **Crossing the watermark marks the cache**, and a cache that was past it is marked already.
Source: `sys/slab_allocator.cpp` `SlabAllocator::FlushRemoteList`
Kind: P -/
theorem flushRemoteList (h : Marked root s) : Marked root (flushRemoteList root k s) := by
  rw [Slab.flushRemoteList]
  split
  · exact h
  rename_i c _
  refine (h.setCache (c := c) fun hlen => ?_).of_caches rfl
  rw [SlabCache.receive_remote] at hlen
  rw [SlabCache.receive_remoteCheck]
  by_cases hold : (s.caches c).remote.length < root.freeBatch
  · rw [if_pos ⟨hold, hlen⟩]
  · rw [if_neg fun hcross => hold hcross.1]
    exact h c (Nat.le_of_not_lt hold)

/-- Source: `sys/slab_allocator.cpp` `SlabAllocator::FreeRemote`. Kind: L -/
theorem freeRemote (h : Marked root s) : Marked root (freeRemote root k o s) := by
  have hturn : ∀ c, Marked root (turnTo root k c s) := by
    intro c
    rw [turnTo]
    split
    · exact h.flushRemoteList.of_caches rfl
    · exact h
  rw [Slab.freeRemote]
  simp only
  split <;> exact (hturn _).of_caches rfl

/-- Source: `sys/slab_allocator.cpp` `SlabCache::Free`. Kind: L -/
theorem cacheFree (h : Marked root s) : Marked root (cacheFree root k c o s) := by
  have hput : Marked root (s.setCache c
      { s.caches c with objectList := o :: (s.caches c).objectList }) := h.setCache (h c)
  rw [Slab.cacheFree]
  simp only
  split
  · exact hput.of_caches rfl
  · exact hput

/-- Source: `sys/slab_allocator.cpp` `SlabCache::FlushFreeList`. Kind: L -/
theorem flushObject (h : Marked root s) : Marked root (flushObject root k c o s) := by
  have hpart : ∀ (t : State) (pages : List ℕ), t.caches = s.caches →
      Marked root (t.setCache c { s.caches c with partialPageList := pages }) :=
    fun t pages ht => (h.of_caches ht).setCache (h c)
  rw [Slab.flushObject]
  simp only
  split
  · exact h.freeRemote
  split
  · split
    · exact (hpart _ _ rfl).of_caches rfl
    · exact h.of_caches rfl
  split
  · exact hpart _ _ rfl
  · exact h.of_caches rfl

/-- With nothing in `remote_.list` no mark is needed.
Source: `sys/slab_allocator.cpp` `SlabCache::ClaimRemoteFreeList`
Kind: L -/
theorem claimRemoteFreeList (h : Marked root s) (hbatch : 0 < root.freeBatch) :
    Marked root (claimRemoteFreeList c s) :=
  h.setCache fun hlen => absurd hbatch (Nat.not_lt.mpr hlen)

/-- A call returns. Source: `sys/slab_allocator.cpp` `SlabAllocatorNode::Alloc`. Kind: L -/
theorem finish (h : Marked root s) : Marked root (finish k s) := by
  rw [Slab.finish]
  split <;> exact h.of_caches rfl

/-- A call begins. Source: `sys/slab_allocator.cpp` `SlabAllocator`. Kind: L -/
theorem start (h : Marked root s) (op : Op) : Marked root (start root k topo s op) := by
  have htake : ∀ p, Marked root ((s.setCpu k { s.cpus k with target := .cpu k }).take p) :=
    fun p => h.of_caches rfl
  cases op with
  | alloc nid =>
      rw [Slab.start]
      split <;> exact h.of_caches rfl
  | free p =>
      rw [Slab.start]
      simp only
      split
      · exact (htake p).cacheFree
      · exact (htake p).freeRemote
  | freeRemote p => exact (htake p).freeRemote
  | flushFreeList amount => exact h.of_caches rfl
  | flushRemoteList => exact h.of_caches rfl
  | claimRemoteFreeList => exact h.of_caches rfl

/-- **A step keeps the marks.**
Source: `sys/slab_allocator.cpp` `SlabAllocator`
Kind: P -/
theorem step (h : Marked root s) (hbatch : 0 < root.freeBatch) {a : Step}
    (hstep : step root topo s a = some s') : Marked root s' := by
  cases a with
  | call k op =>
      cases hstep
      exact h.start op
  | run k page =>
      obtain ⟨frame, frames, hstack, hran⟩ := ran_of_step hstep
      cases hran with
      | spin => exact h
      | pop second o list hlist =>
          have hpop : Marked root (s.setCache (s.cpus k).target
              { s.caches (s.cpus k).target with objectList := list }) := h.setCache (h _)
          exact finish (hpop.of_caches rfl)
      | partialPage second s' hpartial =>
          rcases allocPartial_cases hpartial with rfl | ⟨b, pages, o, d, t, -, rfl | rfl, -, -, rfl⟩
          · exact h.of_caches rfl
          · exact finish (h.of_caches rfl)
          · have hpart : Marked root (s.setCache (s.cpus k).target
                { s.caches (s.cpus k).target with partialPageList := pages }) := h.setCache (h _)
            exact finish (hpart.of_caches rfl)
      | noPage => exact h.finish
      | addSlab b =>
          have hpart : Marked root (s.setCache (s.cpus k).target { s.caches (s.cpus k).target with
              partialPageList := b :: (s.caches (s.cpus k).target).partialPageList }) :=
            h.setCache (h _)
          exact hpart.of_caches rfl
      | claim => exact claimRemoteFreeList (h.of_caches rfl) hbatch
      | flush => exact flushObject (setCache (h.of_caches rfl) (h _))
      | flushRemote => exact flushRemoteList (h.of_caches rfl)
      | _ => exact h.of_caches rfl

end Marked

/-! ## Room -/

/-- How long `object_list_` of a cache may be under the frames of the CPU that works on it: up to
`hiwater`, or one more less what `Free` has flushed; while `Alloc` flushes what it has claimed, the
length is open.
Source: `sys/slab_allocator.cpp` `SlabCache::Alloc`, `SlabCache::Free`
Kind: D -/
def Fits (root : SlabAllocatorRoot) (len : ℕ) : List Frame → Prop
  | [] => len ≤ root.hiwater
  | .drain :: _ => True
  | .flush freed amount :: frames =>
      frames ≠ [] ∨ len ≤ root.hiwater ∨ (amount = root.freeBatch ∧ len + freed ≤ root.hiwater + 1)
  | _ :: frames => Fits root len frames

/-- The CPU works on the cache, whose list fits.
Source: `sys/slab_allocator.cpp` `SlabCache::Alloc`
Kind: D -/
def WorksOn (root : SlabAllocatorRoot) (s : State) (k : ℕ) (c : CacheId) : Prop :=
  Holds s k c ∧ (s.cpus k).target = c ∧
    Fits root (s.caches c).objectList.length (s.cpus k).stack

/-- Every `object_list_` has at most `hiwater` objects, or a CPU works on it.
Source: `sys/slab_allocator.cpp` `SlabCache::Alloc`, `SlabCache::Free`
Kind: D -/
structure Room (root : SlabAllocatorRoot) (s : State) : Prop where
  fits : ∀ c, (s.caches c).objectList.length ≤ root.hiwater ∨ ∃ k, WorksOn root s k c
  inAlloc : ∀ k, (s.cpus k).stack ≠ [.claim]

/-- After a step of the CPU: there is room, and a call that has returned left at most `hiwater`
objects.
Source: `sys/slab_allocator.cpp` `SlabCache::Free`
Kind: D -/
structure Settled (root : SlabAllocatorRoot) (k : ℕ) (s : State) : Prop where
  room : Room root s
  returned : (s.cpus k).stack = [] →
    (s.caches (s.cpus k).target).objectList.length ≤ root.hiwater

/-- A list of at most `hiwater` objects fits everywhere.
Source: `sys/slab_allocator.cpp` `SlabCache::Free`
Kind: L -/
theorem fits_of_le {len : ℕ} (h : len ≤ root.hiwater) (frames : List Frame) :
    Fits root len frames := by
  induction frames with
  | nil => exact h
  | cons frame frames ih =>
      cases frame with
      | drain => trivial
      | flush freed amount => exact Or.inr (Or.inl h)
      | _ => exact ih

/-- Two CPUs do not hold one cache.
Source: `sys/slab_allocator.cpp` `SlabAllocatorNode::Alloc`
Kind: L -/
theorem Holds.eq {k' : ℕ} (h : Holds s k c) (h' : Holds s k' c) : k = k' := by
  rcases h with hcpu | ⟨nid, hnode, hlock⟩ <;> rcases h' with hcpu' | ⟨nid', hnode', hlock'⟩
  · exact CacheId.cpu.inj (hcpu.symm.trans hcpu')
  · exact absurd (hcpu.symm.trans hnode') (by simp)
  · exact absurd (hnode.symm.trans hcpu') (by simp)
  · rw [← CacheId.node.inj (hnode.symm.trans hnode'), hlock] at hlock'
    exact Option.some.inj hlock'

namespace Room

/-- Before the first call. Source: `sys/slab_allocator.cpp` `SlabCache::SlabCache`. Kind: L -/
theorem init (boot : ℕ → SlabData) : Room root (State.init boot) where
  fits _ := Or.inl (Nat.zero_le _)
  inAlloc _ := by simp [State.init]

/-- The list of the cache that the CPU works on fits its frames.
Source: `sys/slab_allocator.cpp` `SlabCache::Alloc`
Kind: L -/
theorem fits_stack (h : Room root s) (hold : Holds s k c) :
    Fits root (s.caches c).objectList.length (s.cpus k).stack := by
  rcases h.fits c with hle | ⟨k', hold', -, hfits⟩
  · exact fits_of_le hle _
  · rw [hold.eq hold']
    exact hfits

/-- **One CPU steps**: the others keep their frames and locks, and the lists of the caches that they
work on; what the CPU worked on, or left alone, still fits.
Source: `sys/slab_allocator.cpp` `SlabAllocator`, `SlabAllocatorNode`
Kind: P -/
theorem of_step (h : Room root s) (hcpus : ∀ k' ≠ k, s'.cpus k' = s.cpus k')
    (hlocks : ∀ nid k', k' ≠ k → s.locks nid = some k' → s'.locks nid = some k')
    (hlists : ∀ c k', k' ≠ k → Holds s k' c → (s'.caches c).objectList = (s.caches c).objectList)
    (hclaim : (s'.cpus k).stack ≠ [.claim])
    (hself : ∀ c, (s.caches c).objectList.length ≤ root.hiwater ∨ WorksOn root s k c →
      (s'.caches c).objectList.length ≤ root.hiwater ∨ WorksOn root s' k c) : Room root s' where
  fits c := by
    rcases h.fits c with hle | ⟨k', hworks⟩
    · exact (hself c (Or.inl hle)).imp_right fun hworks => ⟨k, hworks⟩
    · by_cases hk : k' = k
      · subst hk
        exact (hself c (Or.inr hworks)).imp_right fun hworks => ⟨k', hworks⟩
      · obtain ⟨hold, htarget, hfits⟩ := hworks
        refine Or.inr ⟨k', ?_, ?_, ?_⟩
        · exact hold.imp_right fun ⟨nid, hnode, hlock⟩ => ⟨nid, hnode, hlocks nid k' hk hlock⟩
        · rw [hcpus k' hk]
          exact htarget
        · rw [hcpus k' hk, hlists c k' hk hold]
          exact hfits
  inAlloc k' := by
    by_cases hk : k' = k
    · rw [hk]
      exact hclaim
    · rw [hcpus k' hk]
      exact h.inAlloc k'

/-- The CPU writes the cache that it holds, then runs functions that leave the lists alone.
Source: `sys/slab_allocator.cpp` `SlabCache::Alloc`, `SlabCache::FlushFreeList`
Kind: L -/
theorem of_hold (h : Room root s) {v : SlabCache} (hold : Holds s k (s.cpus k).target)
    (hq : Quiet root k (s.setCache (s.cpus k).target v) s') (hclaim : (s'.cpus k).stack ≠ [.claim])
    (hfits : Fits root (s.caches (s.cpus k).target).objectList.length (s.cpus k).stack →
      Fits root v.objectList.length (s'.cpus k).stack) : Settled root k s' := by
  have hself : (s'.caches (s.cpus k).target).objectList = v.objectList := by
    rw [hq.objectList, State.setCache_caches, Function.update_self]
  have hother : ∀ c ≠ (s.cpus k).target, (s'.caches c).objectList = (s.caches c).objectList := by
    intro c hc
    rw [hq.objectList, State.setCache_caches, Function.update_of_ne hc]
  have htarget : (s'.cpus k).target = (s.cpus k).target := hq.target
  have hfits' := hfits (h.fits_stack hold)
  refine ⟨h.of_step (k := k) hq.cpus (fun nid k' _ hlock => by rw [hq.locks]; exact hlock)
    (fun c k' hk hold' => hother c fun hc => hk ?_) hclaim fun c hc => ?_, fun hidle => ?_⟩
  · rw [hc] at hold'
    exact hold'.eq hold
  · by_cases hne : c = (s.cpus k).target
    · rw [hne]
      refine Or.inr ⟨?_, htarget, ?_⟩
      · exact hold.imp_right fun ⟨nid, hnode, hlock⟩ => ⟨nid, hnode, by rw [hq.locks]; exact hlock⟩
      · rw [hself]
        exact hfits'
    · rw [hother c hne]
      exact Or.inl (hc.resolve_right fun hworks => hne hworks.2.1.symm)
  · rw [hidle] at hfits'
    rw [htarget, hself]
    exact hfits'

/-- The CPU runs functions that leave the lists alone.
Source: `sys/slab_allocator.cpp` `SlabCache::FlushFreeList`
Kind: L -/
theorem of_quiet (h : Room root s) (hold : Holds s k (s.cpus k).target) (hq : Quiet root k s s')
    (hclaim : (s'.cpus k).stack ≠ [.claim])
    (hfits : Fits root (s.caches (s.cpus k).target).objectList.length (s.cpus k).stack →
      Fits root (s.caches (s.cpus k).target).objectList.length (s'.cpus k).stack) :
    Settled root k s' := by
  refine h.of_hold hold (v := s.caches (s.cpus k).target) ?_ hclaim hfits
  rwa [State.setCache, Function.update_eq_self]

/-- The CPU's frames change.
Source: none: infrastructure
Kind: L -/
theorem setStack (h : Room root s) {frames : List Frame} (hold : Holds s k (s.cpus k).target)
    (hclaim : frames ≠ [.claim])
    (hfits : Fits root (s.caches (s.cpus k).target).objectList.length (s.cpus k).stack →
      Fits root (s.caches (s.cpus k).target).objectList.length frames) :
    Settled root k (s.setStack k frames) := by
  refine h.of_quiet hold (Quiet.setCpu ?_) ?_ ?_
  · rfl
  · rwa [State.setStack_cpus, Function.update_self]
  · rwa [State.setStack_cpus, Function.update_self]

/-- A call returns, with a list that is short.
Source: `sys/slab_allocator.cpp` `SlabAllocatorNode::Alloc`
Kind: L -/
theorem finish (h : Room root s) (hold : Holds s k (s.cpus k).target)
    (hle : (s.caches (s.cpus k).target).objectList.length ≤ root.hiwater) :
    Settled root k (finish k s) := by
  obtain ⟨hcaches, hcpus, hlocks⟩ := finish_spec hold
  have hself : (Slab.finish k s).cpus k = { s.cpus k with stack := [] } := by
    rw [hcpus, State.setStack_cpus, Function.update_self]
  refine ⟨h.of_step (k := k) (fun k' hk => ?_) hlocks (fun c k' _ _ => by rw [hcaches]) ?_ fun c hc => ?_,
    fun _ => ?_⟩
  · rw [hcpus, State.setStack_cpus, Function.update_of_ne hk]
  · rw [hself]
    simp
  · rw [hcaches]
    exact Or.inl (hc.elim id fun hworks => hworks.2.1 ▸ hle)
  · rw [hself, hcaches]
    exact hle

/-- An idle CPU leaves all lists alone.
Source: `sys/slab_allocator.cpp` `SlabAllocator::Alloc`, `SlabAllocator::FreeRemote`
Kind: L -/
theorem of_idle (h : Room root s) (hidle : (s.cpus k).stack = [])
    (hcpus : ∀ k' ≠ k, s'.cpus k' = s.cpus k') (hlocks : s'.locks = s.locks)
    (hlists : ∀ c, (s'.caches c).objectList = (s.caches c).objectList)
    (hclaim : (s'.cpus k).stack ≠ [.claim]) : Room root s' := by
  refine h.of_step (k := k) hcpus (fun nid k' _ hlock => by rw [hlocks]; exact hlock)
    (fun c _ _ _ => hlists c) hclaim fun c hc => ?_
  rw [hlists]
  refine Or.inl (hc.elim id fun hworks => ?_)
  have hfits := hworks.2.2
  rw [hidle] at hfits
  exact hfits

/-! ## A step keeps the room -/

/-- The list of an idle CPU's cache is short.
Source: `sys/slab_allocator.cpp` `SlabCache::Free`
Kind: L -/
theorem length_le (h : Room root s) (hidle : (s.cpus k).stack = []) :
    (s.caches (.cpu k)).objectList.length ≤ root.hiwater := by
  rcases h.fits (.cpu k) with hle | ⟨k', hold, -, hfits⟩
  · exact hle
  · have hk : k' = k := hold.eq (Or.inl rfl)
    rw [hk, hidle] at hfits
    exact hfits

/-- **`Free`** flushes the one object that is too many.
Source: `sys/slab_allocator.cpp` `SlabCache::Free`
Kind: L -/
theorem cacheFree (h : Room root s) (hidle : (s.cpus k).stack = [])
    (htarget : (s.cpus k).target = .cpu k) : Settled root k (cacheFree root k (.cpu k) o s) := by
  have hle := h.length_le hidle
  have hold : Holds s k (s.cpus k).target := Or.inl htarget
  obtain ⟨v, hv⟩ : ∃ v : SlabCache, v = { s.caches (.cpu k) with
    objectList := o :: (s.caches (.cpu k)).objectList } := ⟨_, rfl⟩
  have hlist : v.objectList = o :: (s.caches (.cpu k)).objectList := by rw [hv]
  rw [Slab.cacheFree]
  simp only
  rw [← hv]
  split
  · refine h.of_hold (v := v) hold ?_ ?_ fun _ => ?_
    · rw [htarget]
      exact Quiet.push _
    · rw [push_stack]
      simp
    · rw [push_stack, State.setCache_cpus, hidle, hlist, List.length_cons]
      exact Or.inr (Or.inr ⟨rfl, by omega⟩)
  · rename_i hshort
    refine h.of_hold (v := v) hold ?_ ?_ fun _ => ?_
    · rw [htarget]
      exact Quiet.refl
    · rw [State.setCache_cpus, hidle]
      simp
    · rw [State.setCache_cpus, hidle, hlist]
      exact Nat.le_of_not_lt hshort

/-- Source: `sys/slab_allocator.cpp` `SlabAllocator::FreeRemote`
Kind: L -/
theorem freeRemote (h : Room root s) (hidle : (s.cpus k).stack = [])
    (htarget : (s.cpus k).target = .cpu k) : Settled root k (freeRemote root k o s) := by
  have hle := h.length_le hidle
  refine h.of_quiet (Or.inl htarget) Quiet.freeRemote ?_ fun _ => ?_
  · rcases freeRemote_stack root k o s with h' | h' <;> rw [h', hidle] <;> simp
  · rw [htarget]
    exact fits_of_le hle _

/-- A call begins.
Source: `sys/slab_allocator.cpp` `SlabAllocator::Alloc`, `SlabAllocator::Free`
Kind: L -/
theorem start (h : Room root s) (hidle : (s.cpus k).stack = []) {op : Op}
    (hok : ClaimsInAlloc s (.call k op)) : Settled root k (start root k topo s op) := by
  have henter : ∀ v : SlabAllocator, v.stack ≠ [] → v.stack ≠ [.claim] →
      Settled root k (s.setCpu k v) := by
    intro v hne hclaim
    have hself : (s.setCpu k v).cpus k = v := Function.update_self _ _ _
    refine ⟨h.of_idle hidle (fun k' hk => Function.update_of_ne hk _ _) rfl (fun _ => rfl) ?_,
      fun hnil => absurd hnil ?_⟩ <;> rw [hself] <;> assumption
  have htake : ∀ p, Room root ((s.setCpu k { s.cpus k with target := .cpu k }).take p) ∧
      (((s.setCpu k { s.cpus k with target := .cpu k }).take p).cpus k).stack = [] ∧
      (((s.setCpu k { s.cpus k with target := .cpu k }).take p).cpus k).target = .cpu k := by
    intro p
    have hself : ((s.setCpu k { s.cpus k with target := .cpu k }).take p).cpus k =
        { s.cpus k with target := .cpu k } := Function.update_self _ _ _
    rw [hself]
    refine ⟨h.of_idle hidle (fun k' hk => Function.update_of_ne hk _ _) rfl (fun _ => rfl) ?_,
      hidle, rfl⟩
    rw [hself]
    exact h.inAlloc k
  cases op with
  | alloc nid =>
      rw [Slab.start]
      split
      · exact henter _ (by simp) (by simp)
      · exact henter _ (by simp) (by simp)
  | free p =>
      obtain ⟨h', hidle', htarget⟩ := htake p
      rw [Slab.start]
      simp only
      split
      · exact h'.cacheFree hidle' htarget
      · exact h'.freeRemote hidle' htarget
  | freeRemote p =>
      obtain ⟨h', hidle', htarget⟩ := htake p
      exact h'.freeRemote hidle' htarget
  | flushFreeList amount => exact henter _ (by simp) (by simp)
  | flushRemoteList => exact henter _ (by simp) (by simp)
  | claimRemoteFreeList => exact hok.elim

/-- The lock is taken. Source: `sys/slab_allocator.cpp` `SlabAllocatorNode::Alloc`. Kind: L -/
theorem run_lock (h : Room root s) (hstack : (s.cpus k).stack = [.lock]) {nid : ℕ}
    (hfree : s.locks nid = none) : Settled root k { s.setStack k [.alloc false] with
      locks := Function.update s.locks nid (some k) } := by
  have hself : (s.setStack k [.alloc false]).cpus k = { s.cpus k with stack := [.alloc false] } :=
    Function.update_self _ _ _
  refine ⟨h.of_step (k := k) (fun k' hk => Function.update_of_ne hk _ _) (fun nid' k' _ hlock => ?_)
    (fun _ _ _ _ => rfl) ?_ fun c hc => ?_, fun hidle => absurd hidle ?_⟩
  · have hne : nid' ≠ nid := by
      rintro rfl
      rw [hfree] at hlock
      cases hlock
    exact (Function.update_of_ne hne _ _).trans hlock
  · rw [hself]
    simp
  · refine Or.inl (hc.elim id fun hworks => ?_)
    have hfits := hworks.2.2
    rw [hstack] at hfits
    exact hfits
  · rw [hself]
    simp

/-- `Alloc` returns, with an object that is not from `object_list_`.
Source: `sys/slab_allocator.cpp` `SlabCache::Alloc`
Kind: L -/
theorem finish_of_quiet (h : Room root s) {t : State} (hold : Holds s k (s.cpus k).target)
    (hle : (s.caches (s.cpus k).target).objectList.length ≤ root.hiwater) (hq : Quiet root k s t)
    (hclaim : (t.cpus k).stack ≠ [.claim]) : Settled root k (Slab.finish k t) := by
  have hroom : Room root t := (h.of_quiet hold hq hclaim fun _ => fits_of_le hle _).room
  refine hroom.finish ?_ ?_
  · rw [hq.target]
    exact hold.imp_right fun ⟨nid, hnode, hlock⟩ => ⟨nid, hnode, by rw [hq.locks]; exact hlock⟩
  · rw [hq.target, hq.objectList]
    exact hle

/-- `Alloc` takes an object off `object_list_`.
Source: `sys/slab_allocator.cpp` `SlabCache::Alloc`
Kind: L -/
theorem run_pop (h : Room root s) (hold : Holds s k (s.cpus k).target) {list : List ℕ}
    (hle : (s.caches (s.cpus k).target).objectList.length ≤ root.hiwater)
    (hclaim : (s.cpus k).stack ≠ [.claim])
    (hlist : (s.caches (s.cpus k).target).objectList = o :: list) :
    Settled root k (Slab.finish k ((s.setCache (s.cpus k).target
      { s.caches (s.cpus k).target with objectList := list }).give o)) := by
  rw [hlist, List.length_cons] at hle
  obtain ⟨v, hv⟩ : ∃ v : SlabCache, v = { s.caches (s.cpus k).target with objectList := list } :=
    ⟨_, rfl⟩
  have hvlist : v.objectList = list := by rw [hv]
  rw [← hv]
  have hroom : Room root ((s.setCache (s.cpus k).target v).give o) := by
    refine (h.of_hold hold (v := v) ?_ ?_ fun _ => fits_of_le ?_ _).room
    · exact Quiet.of_caches rfl rfl rfl
    · rwa [State.give_cpus, State.setCache_cpus]
    · rw [hvlist]
      omega
  refine hroom.finish hold ?_
  rw [State.give_caches, State.give_cpus, State.setCache_cpus, State.setCache_caches,
    Function.update_self, hvlist]
  omega

/-- `FlushFreeList` returns: to `Free` when as many objects are gone as `free_batch` says or all, and
that is at least the one that was too many.
Source: `sys/slab_allocator.cpp` `SlabCache::Free`, `SlabCache::FlushFreeList`
Kind: L -/
theorem run_flushed (h : Room root s) (hbatch : 0 < root.freeBatch)
    (hold : Holds s k (s.cpus k).target) {freed amount : ℕ} {frames : List Frame}
    (hstack : (s.cpus k).stack = .flush freed amount :: frames)
    (hunder : Under root (s.caches (s.cpus k).target).objectList.length
      (s.caches (s.cpus k).target).remoteCheck freed amount frames)
    (hdone : (s.caches (s.cpus k).target).objectList = [] ∨ amount ≤ freed) :
    Settled root k (s.setStack k frames) := by
  cases hunder with
  | top =>
      refine h.setStack hold (by simp) fun hfits => ?_
      rw [hstack] at hfits
      rcases hdone with hnil | hdone
      · rw [hnil]
        exact Nat.zero_le _
      · rcases hfits with hne | hle | ⟨hamount, hle⟩
        · exact absurd rfl hne
        · exact hle
        · show (s.caches (s.cpus k).target).objectList.length ≤ root.hiwater
          omega
  | alloc second => exact h.setStack hold (by simp) fun _ => trivial

/-- A turn of `FlushFreeList`. Source: `sys/slab_allocator.cpp` `SlabCache::FlushFreeList`. Kind: L -/
theorem run_flush (h : Room root s) (hold : Holds s k (s.cpus k).target) {freed amount : ℕ}
    {frames : List Frame} {list : List ℕ}
    (hstack : (s.cpus k).stack = .flush freed amount :: frames)
    (hlist : (s.caches (s.cpus k).target).objectList = o :: list) :
    Settled root k (flushObject root k (s.cpus k).target o
      ((s.setStack k (.flush (freed + 1) amount :: frames)).setCache (s.cpus k).target
        { s.caches (s.cpus k).target with objectList := list })) := by
  obtain ⟨t, ht⟩ : ∃ t, t = (s.setStack k (.flush (freed + 1) amount :: frames)).setCache
      (s.cpus k).target { s.caches (s.cpus k).target with objectList := list } := ⟨_, rfl⟩
  rw [← ht]
  have hstackt : (t.cpus k).stack = .flush (freed + 1) amount :: frames := by
    rw [ht, State.setCache_cpus, State.setStack_cpus, Function.update_self]
  have hq : Quiet root k (s.setCache (s.cpus k).target
      { s.caches (s.cpus k).target with objectList := list }) t := ht ▸ Quiet.setStack_setCache _ _
  -- one object fewer, one turn more
  have hturn : Fits root (s.caches (s.cpus k).target).objectList.length (s.cpus k).stack →
      Fits root list.length (.flush (freed + 1) amount :: frames) := by
    rw [hstack, hlist, List.length_cons]
    rintro (hne | hle | ⟨hamount, hle⟩)
    · exact Or.inl hne
    · exact Or.inr (Or.inl (by omega))
    · exact Or.inr (Or.inr ⟨hamount, by omega⟩)
  refine h.of_hold hold (hq.trans Quiet.flushObject) ?_ fun hfits => ?_
  · rcases flushObject_stack root k o (s.cpus k).target t with h' | h' | ⟨pfn, h'⟩ <;>
      rw [h', hstackt] <;> simp
  · rcases flushObject_stack root k o (s.cpus k).target t with h' | h' | ⟨pfn, h'⟩ <;>
      rw [h', hstackt] <;> exact hturn hfits

/-- **A step of a CPU keeps the room.**
Source: `sys/slab_allocator.cpp` `SlabCache::Alloc`, `SlabCache::FlushFreeList`
Kind: P -/
theorem run (h : Room root s) (hgood : Good root s) (hbatch : 0 < root.freeBatch) {page : Option ℕ}
    (hstep : step root topo s (.run k page) = some s') : Settled root k s' := by
  obtain ⟨frame, frames, hstack, hran⟩ := ran_of_step hstep
  have hclaim := h.inAlloc k
  have hold : frame ≠ .lock → Holds s k (s.cpus k).target := hgood.wf.holds hstack
  have hfits : frame ≠ .lock →
      Fits root (s.caches (s.cpus k).target).objectList.length (frame :: frames) :=
    fun hne => hstack ▸ h.fits_stack (hold hne)
  cases hran with
  | lock nid htarget hfree =>
      obtain rfl := hgood.frames_eq_nil hstack (Or.inl rfl)
      exact h.run_lock hstack hfree
  | spin =>
      refine ⟨h, fun hidle => ?_⟩
      rw [hstack] at hidle
      cases hidle
  | pop second o list hlist =>
      obtain rfl := hgood.frames_eq_nil hstack (Or.inr (Or.inl ⟨second, rfl⟩))
      exact h.run_pop (hold (by simp)) (hfits (by simp)) hclaim hlist
  | retry second =>
      obtain rfl := hgood.frames_eq_nil hstack (Or.inr (Or.inl ⟨second, rfl⟩))
      exact h.setStack (hold (by simp)) (by simp) fun _ => trivial
  | partialPage second s' hpartial =>
      obtain rfl := hgood.frames_eq_nil hstack (Or.inr (Or.inl ⟨second, rfl⟩))
      rcases quiet_allocPartial hpartial with rfl | ⟨t, hq, htstack, rfl⟩
      · exact h.setStack (hold (by simp)) (by simp) fun _ => hfits (by simp)
      · exact h.finish_of_quiet (hold (by simp)) (hfits (by simp)) hq (by rwa [htstack])
  | noPage =>
      obtain rfl := hgood.frames_eq_nil hstack (Or.inr (Or.inr ⟨false, rfl⟩))
      exact h.finish (hold (by simp)) (hfits (by simp))
  | addSlab b =>
      obtain rfl := hgood.frames_eq_nil hstack (Or.inr (Or.inr ⟨false, rfl⟩))
      have hset : Quiet root k s (s.setStack k [.alloc true]) := Quiet.setCpu rfl
      have hblocks : Quiet root k (s.setStack k [.alloc true])
          { s.setStack k [.alloc true] with blocks := b :: s.blocks } := Quiet.of_caches rfl rfl rfl
      refine h.of_quiet (hold (by simp)) (hset.trans (hblocks.trans Quiet.addSlab)) ?_ fun _ => ?_
      · simp [addSlab]
      · exact fits_of_le (hfits (by simp)) _
  | claim =>
      cases hgood.shape hstack with
      | claim => exact absurd hstack hclaim
      | claimIn second hcheck hlen =>
          refine h.of_hold (hold (by simp)) (Quiet.setStack_setCache _ _) ?_ fun _ => ?_
          · simp [claimRemoteFreeList]
          · rw [claimRemoteFreeList, State.setCache_cpus, State.setStack_cpus, Function.update_self]
            trivial
  | drain =>
      cases hgood.shape hstack with
      | drain second hcheck =>
          exact h.setStack (hold (by simp)) (by simp) fun _ => Or.inl (List.cons_ne_nil _ _)
  | drained hle =>
      cases hgood.shape hstack with
      | drain second hcheck =>
          exact h.setStack (hold (by simp)) (by simp) fun _ => fits_of_le hle _
  | flush freed amount o list hfreed hlist => exact h.run_flush (hold (by simp)) hstack hlist
  | flushed freed amount hdone =>
      exact h.run_flushed hbatch (hold (by simp)) hstack (hgood.under hstack) hdone
  | release b =>
      have hset : Quiet root k s (s.setStack k frames) := Quiet.setCpu rfl
      refine h.of_quiet (hold (by simp)) (hset.trans (Quiet.of_caches rfl rfl rfl)) ?_ ?_
      · rw [release_stack]
        cases hgood.shape hstack
        simp
      · rw [release_stack, hstack]
        exact id
  | flushRemote =>
      have hset : Quiet root k s (s.setStack k frames) := Quiet.setCpu rfl
      have hself : ((flushRemoteList root k (s.setStack k frames)).cpus k).stack = frames := by
        rw [flushRemoteList_stack, State.setStack_cpus, Function.update_self]
      refine h.of_quiet (hold (by simp)) (hset.trans Quiet.flushRemoteList) ?_ ?_
      · rw [hself]
        cases hgood.shape hstack <;> simp
      · rw [hself, hstack]
        exact id

end Room

/-! ## Sizes up to 64 pages -/

/-- `FlushFreeList(free_batch)` takes an object off a list that is not empty.
Source: `sys/slab_allocator.cpp` `SlabCache::FlushFreeList`
Kind: L -/
theorem flush_lt (hbatch : 0 < root.freeBatch) {page : Option ℕ} {frames : List Frame}
    (hstep : step root topo s (.run k page) = some s')
    (hstack : (s.cpus k).stack = .flush 0 root.freeBatch :: frames)
    (hne : (s.caches (s.cpus k).target).objectList ≠ []) :
    (s'.caches (s.cpus k).target).objectList.length <
      (s.caches (s.cpus k).target).objectList.length := by
  obtain ⟨o, list, hlist⟩ := List.exists_cons_of_ne_nil hne
  rw [step, hstack] at hstep
  simp only [runFrame, hlist, hbatch, if_true] at hstep
  cases hstep
  rw [Quiet.flushObject.objectList, State.setCache_caches, Function.update_self, hlist]
  exact Nat.lt_succ_self _

/-- With a `free_batch` that is not zero every run keeps the bounds.
Source: `sys/slab_allocator.cpp` `SlabCache::Free`, `SlabAllocator::FlushRemoteList`
Kind: L -/
theorem staysBounded (hbatch : 0 < root.freeBatch) : StaysBounded root := by
  intro topo boot as s a s' hrun hlegal hstep
  have hstep : step root topo s a = some s' := hstep
  obtain ⟨hgood, hroom, hmarked⟩ : Good root s ∧ Room root s ∧ Marked root s := by
    have hinit : Marked root (State.init boot) := fun c hlen => absurd hbatch (Nat.not_lt.mpr hlen)
    refine hrun.invariant (I := fun t => Good root t ∧ Room root t ∧ Marked root t)
      ⟨Good.init boot, Room.init boot, hinit⟩ ?_
    rintro t a t' ⟨hgood, hroom, hmarked⟩ ⟨hlegal, hok⟩ hstep
    have hstep : step root topo t a = some t' := hstep
    refine ⟨hgood.step hlegal hstep, ?_, hmarked.step hbatch hstep⟩
    cases a with
    | call k op =>
        cases hstep
        exact (hroom.start hlegal.1 hok).room
    | run k page => exact (hroom.run hgood hbatch hstep).room
  refine ⟨fun hidle => ?_, fun k page frames ha hstack hne => ?_, fun c hlen => ?_⟩
  · cases a with
    | call k op =>
        cases hstep
        exact (hroom.start hlegal.1.1 hlegal.2).returned hidle
    | run k page => exact (hroom.run hgood hbatch hstep).returned hidle
  · subst ha
    exact flush_lt hbatch hstep hstack hne
  · exact hmarked.step hbatch hstep c ((Nat.le_max_left _ _).trans hlen)

/-! ## Larger sizes -/

/-- CPU 0 with its first slab, inside `Alloc`.
Source: none: infrastructure
Kind: D -/
def firstSlab (root : SlabAllocatorRoot) (pfn : ℕ) : State :=
  addSlab root (.cpu 0) pfn { (State.init blank).setStack 0 [.alloc true] with blocks := [pfn] }

/-- The first object of the first slab is handed out.
Source: `sys/slab_allocator.cpp` `SlabCache::Alloc`
Kind: L -/
theorem firstSlab_alloc {pfn o : ℕ} {list : List ℕ} (hlist : (root.objects pfn).reverse = o :: list) :
    ∃ s, step root spread (firstSlab root pfn) (.run 0 none) = some s ∧ (s.cpus 0).stack = [] ∧
      o ∈ s.held ∧ (s.caches (.cpu 0)).objectList = [] := by
  obtain ⟨t, ht⟩ : ∃ t, t = firstSlab root pfn := ⟨_, rfl⟩
  have hcpu : t.cpus 0 = ⟨[], none, .cpu 0, [.alloc true]⟩ := by rw [ht]; rfl
  have hcache : t.caches (.cpu 0) = ⟨[], [pfn], [], false⟩ := by rw [ht]; rfl
  have hdata : (t.data pfn).list = o :: list ∧ (t.data pfn).used = 0 := by
    rw [ht, firstSlab, addSlab_data, if_pos rfl, if_pos rfl]
    exact ⟨hlist, rfl⟩
  rw [← ht, step, hcpu]
  simp only [runFrame, hcpu, hcache, Bool.false_eq_true, if_false, allocPartial, hdata,
    root.numObjectsPerSlab_pos, if_true]
  refine ⟨_, rfl, ?_⟩
  simp only [finish]
  split <;> split <;>
    simp [State.setStack, State.setCpu, State.give, State.setData, State.setCache, hcpu, hcache] at *

/-- With a `free_batch` of zero, an object that CPU 0 allocates and frees stays in `object_list_`, where
`hiwater` is zero.
Source: `sys/slab_allocator.cpp` `SlabCache::Free`
Kind: L -/
theorem not_staysBounded (hbatch : root.freeBatch = 0) : ¬ StaysBounded root := by
  intro hall
  have hiwater : root.hiwater = 0 := by rw [root.hiwater_eq, hbatch]
  obtain ⟨pfn, hpfn⟩ : ∃ pfn, pfn = 2 ^ root.order := ⟨_, rfl⟩
  have hblock : IsBlock root.order pfn := by
    rw [hpfn]
    refine ⟨dvd_rfl, ?_⟩
    have hle := Nat.pow_le_pow_right (show 0 < 2 by omega) root.order_bounds.2
    exact (Nat.add_le_add hle hle).trans (by decide)
  obtain ⟨o, list, hlist⟩ : ∃ o list, (root.objects pfn).reverse = o :: list := by
    refine List.exists_cons_of_length_pos ?_
    rw [List.length_reverse, root.length_objects]
    exact root.numObjectsPerSlab_pos
  obtain ⟨s, halloc, hidle, hheld, hnil⟩ := firstSlab_alloc hlist
  have hsnoc : ∀ {as t a t'}, ((slabSystem root spread).guard ClaimsInAlloc).Run (State.init blank) as t →
      Legal root t a → ClaimsInAlloc t a → step root spread t a = some t' →
      ((slabSystem root spread).guard ClaimsInAlloc).Run (State.init blank) (as ++ [a]) t' :=
    fun hrun hlegal hok hstep => System.Run.snoc hrun ⟨hlegal, hok⟩ hstep
  have hcalled : ((slabSystem root spread).guard ClaimsInAlloc).Run (State.init blank)
      [.call 0 (.alloc 0)] ((State.init blank).setStack 0 [.alloc false]) :=
    hsnoc System.Run.nil ⟨rfl, trivial⟩ trivial rfl
  have hempty : ((slabSystem root spread).guard ClaimsInAlloc).Run (State.init blank)
      [.call 0 (.alloc 0), .run 0 none] ((State.init blank).setStack 0 [.nullptr false]) := by
    refine hsnoc hcalled ⟨?_, trivial⟩ trivial ?_
    · exact List.cons_ne_nil _ _
    · simp [step, runFrame, allocPartial, State.init, State.setStack, State.setCpu]
  have hadded : ((slabSystem root spread).guard ClaimsInAlloc).Run (State.init blank)
      [.call 0 (.alloc 0), .run 0 none, .run 0 (some pfn)] (firstSlab root pfn) := by
    refine hsnoc hempty ⟨?_, hblock, ?_, ?_⟩ trivial ?_
    · exact List.cons_ne_nil _ _
    · exact fun b hb => absurd hb List.not_mem_nil
    · rw [hpfn]
      exact (Nat.two_pow_pos _).ne'
    · simp [step, runFrame, firstSlab, State.init, State.setStack, State.setCpu]
  have hgiven := hsnoc hadded (a := .run 0 none) ⟨List.cons_ne_nil _ _, trivial⟩ trivial halloc
  have hfreed := hsnoc hgiven (a := .call 0 (.free o)) ⟨hidle, hheld⟩ trivial rfl
  -- `Free` has called `FlushFreeList(0)`
  obtain ⟨t, ht⟩ : ∃ t, t = start root 0 spread s (.free o) := ⟨_, rfl⟩
  have hfree : t = cacheFree root 0 (.cpu 0) o
      ((s.setCpu 0 { s.cpus 0 with target := .cpu 0 }).take o) := by
    rw [ht]
    rfl
  have hlong : (t.caches (.cpu 0)).objectList = [o] ∧ (t.cpus 0).target = .cpu 0 ∧
      (t.cpus 0).stack = [.flush 0 0] := by
    rw [hfree]
    simp [cacheFree, hnil, hiwater, hbatch, hidle]
  rw [← ht] at hfreed
  have hback : step root spread t (.run 0 none) = some (t.setStack 0 []) := by
    simp [step, runFrame, hlong]
  have hself : (t.setStack 0 []).cpus 0 = { t.cpus 0 with stack := [] } := by
    rw [State.setStack_cpus, Function.update_self]
  have hbound := (hall spread blank _ t (.run 0 none) (t.setStack 0 []) hfreed
    ⟨⟨by simp [hlong], trivial⟩, trivial⟩ hback).returned (by rw [Step.cpu, hself])
  rw [Step.cpu, hself] at hbound
  simp [hlong, hiwater] at hbound

/-- **The bounds, exactly.** In every run that claims in `Alloc` only, `object_list_` has at most
`hiwater` objects after each call, `FlushFreeList(free_batch)` takes an object off a list that is not
empty, and a cache with `free_batch` objects to claim is marked, if and only if the objects have at
most 64 pages.
Source: `sys/slab_allocator.cpp` `calculate_freebatch`, `SlabCache::Free`
Kind: C -/
theorem slabBounds_exactlyWhen (root : SlabAllocatorRoot) :
    StaysBounded root ↔ root.size ≤ 64 * pageSize := by
  rw [← freeBatch_pos_iff]
  refine ⟨fun hall => Nat.pos_of_ne_zero fun hbatch => ?_, staysBounded⟩
  exact not_staysBounded hbatch hall

/-- Objects of 512 KB, the first size above 64 pages that the general purpose allocator has.
Source: `sys/slab_allocator.cpp` `SlabAllocatorRoot::SlabAllocatorRoot`
Kind: D -/
def rootOf512K : SlabAllocatorRoot where
  align := 8
  size := 524288
  order := 7
  freeBatch := 0
  hiwater := 0
  size_pos := by decide
  order_eq := by decide +kernel
  freeBatch_eq := by decide +kernel
  hiwater_eq := rfl

example : (SlabAllocatorRoot.construct 524288 0).map (fun root =>
    (root.align, root.size, root.order, root.freeBatch, root.hiwater)) =
      some (8, 524288, 7, 0, 0) := by decide +kernel

/-- **Not for every size**: with objects of 512 KB nothing that is freed is ever flushed.
Source: `sys/slab_allocator.cpp` `calculate_freebatch`
Kind: C -/
theorem slabBounds_not_always : ¬ ∀ root : SlabAllocatorRoot, StaysBounded root := by
  intro hall
  have hbatch : rootOf512K.freeBatch = 0 := rfl
  exact not_staysBounded hbatch (hall rootOf512K)

end Slab

end EbbRT
