import EbbRT.Mem.SlabHome

/-!
# Flushing a cache to the end

`FlushFreeListAll` with nobody else running. An object of the cache itself goes to its slab, and a
slab whose objects are all back is returned; an object of another cache goes to the remote list of
the CPU that runs the flush, in batches for one cache. `flush_loop` says what a whole flush changes.
-/

namespace EbbRT

namespace Slab

open EbbRT.Lib

/-! ## The code -/

/-- The allocators while the destructor runs, and the slabs that it has passed to
`page_allocator->Free`.
Source: none: infrastructure
Kind: D -/
structure Teardown where
  state : State
  returned : List ℕ

variable (root : SlabAllocatorRoot) (k : ℕ)

/-- The CPU runs the frames of a call, nobody else runs.
Source: `sys/slab_allocator.cpp` `SlabAllocatorRoot::~SlabAllocatorRoot`
Kind: D -/
def runCall : ℕ → Teardown → Teardown
  | 0, t => t
  | fuel + 1, t =>
      match (t.state.cpus k).stack with
      | [] => t
      | frame :: frames =>
          match runFrame root k none t.state frames frame with
          | none => t
          | some s => runCall fuel ⟨s, releasing [frame] ++ t.returned⟩

/-- `FlushFreeList(size_t(-1))`, on any cache. A turn of its loop has at most two frames.
Source: `sys/slab_allocator.cpp` `SlabCache::FlushFreeListAll`
Kind: D -/
def flushFreeListAll (c : CacheId) (t : Teardown) : Teardown :=
  runCall root k (2 * word) ⟨t.state.setCpu k
    { t.state.cpus k with target := c, stack := [.flush 0 (word - 1)] }, t.returned⟩

/-! ## Batches -/

/-- The owners of the objects that a cache holds for others, in the order in which they are flushed.
Source: `sys/slab_allocator.cpp` `SlabCache::FlushFreeList`
Kind: D -/
def State.strays (s : State) (c : CacheId) : List CacheId :=
  ((s.caches c).objectList.map s.owner).filter (· ≠ c)

/-- How many objects at the end belong to one cache.
Source: none: infrastructure
Kind: D -/
def lastRun (l : List CacheId) : ℕ := (l.reverse.takeWhile fun c => l.getLast? = some c).length

variable {root k}

/-- What `FreeRemote` does to `remote_cache_` and the length of `remote_list_`.
Source: `sys/slab_allocator.cpp` `SlabAllocator::FreeRemote`
Kind: D -/
def batch (freeBatch : ℕ) (r : Option CacheId × ℕ) (c : CacheId) : Option CacheId × ℕ :=
  let length := (if r.1 = some c then r.2 else 0) + 1
  (some c, if length > freeBatch then 0 else length)

/-- Source: none: infrastructure
Kind: D -/
def State.batchOf (s : State) (k : ℕ) : Option CacheId × ℕ :=
  ((s.cpus k).remoteCache, (s.cpus k).remoteList.length)

/-- Source: none: infrastructure. Kind: L -/
theorem lastRun_concat (l : List CacheId) (c : CacheId) :
    lastRun (l ++ [c]) = (if l.getLast? = some c then lastRun l else 0) + 1 := by
  unfold lastRun
  rw [List.reverse_concat, List.getLast?_concat]
  rw [List.takeWhile_cons_of_pos (by simp), List.length_cons]
  congr 1
  by_cases hlast : l.getLast? = some c
  · rw [if_pos hlast, hlast]
  · rw [if_neg hlast]
    cases hl : l.reverse with
    | nil => rfl
    | cons c' l' =>
        have hc' : l.getLast? = some c' := by
          rw [List.getLast?_eq_head?_reverse, hl]
          rfl
        rw [List.takeWhile_cons_of_neg]
        · rfl
        · intro heq
          rw [hc'] at hlast
          simp only [Option.some.injEq, decide_eq_true_eq] at heq
          exact hlast (by rw [heq])

/-- Source: none: infrastructure. Kind: L -/
theorem succ_mod_batch (freeBatch m : ℕ) :
    (m + 1) % (freeBatch + 1) =
      if m % (freeBatch + 1) + 1 > freeBatch then 0 else m % (freeBatch + 1) + 1 := by
  have hlt : m % (freeBatch + 1) < freeBatch + 1 := Nat.mod_lt _ (Nat.succ_pos _)
  rw [← Nat.mod_add_mod]
  by_cases hfull : m % (freeBatch + 1) + 1 > freeBatch
  · rw [if_pos hfull, show m % (freeBatch + 1) + 1 = freeBatch + 1 by omega, Nat.mod_self]
  · rw [if_neg hfull]
    exact Nat.mod_eq_of_lt (by omega)

/-- **Batches are full or not**: from an empty list, what is left after some objects is what the last
run of objects of one cache leaves over.
Source: `sys/slab_allocator.cpp` `SlabAllocator::FreeRemote`
Kind: L -/
theorem foldl_batch (freeBatch : ℕ) (cache : Option CacheId) (l : List CacheId) :
    l.foldl (batch freeBatch) (cache, 0) =
      (l.getLast?.or cache, lastRun l % (freeBatch + 1)) := by
  induction l using List.reverseRecOn with
  | nil => simp [lastRun]
  | append_singleton l c ih =>
      rw [List.foldl_concat, ih, lastRun_concat, List.getLast?_concat]
      have hrest : (if (l.getLast?.or cache) = some c then lastRun l % (freeBatch + 1) else 0) =
          (if l.getLast? = some c then lastRun l else 0) % (freeBatch + 1) := by
        cases hl : l.getLast? with
        | none =>
            rw [List.getLast?_eq_none_iff.mp hl]
            simp [lastRun]
        | some c' =>
            rw [Option.some_or]
            by_cases hc : some c' = some c
            · rw [if_pos hc, if_pos hc]
            · rw [if_neg hc, if_neg hc, Nat.zero_mod]
      unfold batch
      dsimp only
      rw [hrest, succ_mod_batch]
      rfl

/-! ## What a flush changes -/

variable {s s' : State} {t t' t'' : Teardown} {o b : ℕ} {c : CacheId} {strays strays' : List CacheId}

/-- What the whole destructor leaves alone: the owners of the pages, what clients hold; a slab is
returned or still there; one that was not used stays, and no other one becomes such a slab.
Source: `sys/slab_allocator.cpp` `SlabAllocatorRoot::~SlabAllocatorRoot`
Kind: D -/
structure Progress (t t' : Teardown) : Prop where
  cache : ∀ q, (t'.state.data q).cache = (t.state.data q).cache
  held : t'.state.held = t.state.held
  returned : (t'.returned ++ t'.state.blocks).Perm (t.returned ++ t.state.blocks)
  unused : ∀ b ∈ t.state.blocks, (t.state.data b).used = 0 →
    b ∈ t'.state.blocks ∧ (t'.state.data b).used = 0
  used : (∀ b ∈ t.state.blocks, (t.state.data b).used ≠ 0) →
    ∀ b ∈ t'.state.blocks, (t'.state.data b).used ≠ 0

/-- A flush of cache `c` by CPU `k` that finds objects of the caches `strays`: only the list of `c`,
the CPU's own lists and, if there are strays, the remote lists change.
Source: `sys/slab_allocator.cpp` `SlabCache::FlushFreeList`
Kind: D -/
structure Flushed (root : SlabAllocatorRoot) (k : ℕ) (c : CacheId) (strays : List CacheId)
    (t t' : Teardown) : Prop where
  progress : Progress t t'
  objectList : ∀ c' ≠ c, (t'.state.caches c').objectList = (t.state.caches c').objectList
  cpus : ∀ k' ≠ k, t'.state.cpus k' = t.state.cpus k'
  batch : t'.state.batchOf k = strays.foldl (batch root.freeBatch) (t.state.batchOf k)
  remote : strays = [] → ∀ c', (t'.state.caches c').remote = (t.state.caches c').remote

namespace Progress

/-- Source: none: infrastructure. Kind: L -/
theorem trans (h : Progress t t') (h' : Progress t' t'') : Progress t t'' where
  cache q := (h'.cache q).trans (h.cache q)
  held := h'.held.trans h.held
  returned := h'.returned.trans h.returned
  unused b hb hused := by
    obtain ⟨hb', hused'⟩ := h.unused b hb hused
    exact h'.unused b hb' hused'
  used hused := h'.used (h.used hused)

/-- Pages, blocks and clients are as before. Source: none: infrastructure. Kind: L -/
theorem of_pages {returned : List ℕ} (hdata : s'.data = s.data) (hblocks : s'.blocks = s.blocks)
    (hheld : s'.held = s.held) : Progress ⟨s, returned⟩ ⟨s', returned⟩ where
  cache q := by rw [hdata]
  held := hheld
  returned := List.Perm.of_eq (by rw [hblocks])
  unused b hb hused := by
    rw [hblocks, hdata]
    exact ⟨hb, hused⟩
  used hused b hb := by
    rw [hblocks] at hb
    rw [hdata]
    exact hused b hb

/-- Source: none: infrastructure. Kind: L -/
theorem owner_eq (h : Progress t t') : t'.state.owner = t.state.owner := by
  funext o
  exact h.cache _

end Progress

namespace Flushed

/-- Source: none: infrastructure. Kind: L -/
theorem trans (h : Flushed root k c strays t t') (h' : Flushed root k c strays' t' t'') :
    Flushed root k c (strays ++ strays') t t'' where
  progress := h.progress.trans h'.progress
  objectList c' hc := (h'.objectList c' hc).trans (h.objectList c' hc)
  cpus k' hk := (h'.cpus k' hk).trans (h.cpus k' hk)
  batch := by rw [h'.batch, h.batch, List.foldl_append]
  remote hnil c' := by
    obtain ⟨h1, h2⟩ := List.append_eq_nil_iff.mp hnil
    rw [h'.remote h2, h.remote h1]

/-- Only frames, locks and the list of `c` change. Source: none: infrastructure. Kind: L -/
theorem of_lists {returned : List ℕ} (hdata : s'.data = s.data) (hblocks : s'.blocks = s.blocks)
    (hheld : s'.held = s.held)
    (hobjects : ∀ c' ≠ c, (s'.caches c').objectList = (s.caches c').objectList)
    (hremote : ∀ c', (s'.caches c').remote = (s.caches c').remote)
    (hcpus : ∀ k' ≠ k, s'.cpus k' = s.cpus k') (hbatch : s'.batchOf k = s.batchOf k) :
    Flushed root k c [] ⟨s, returned⟩ ⟨s', returned⟩ where
  progress := Progress.of_pages hdata hblocks hheld
  objectList := hobjects
  cpus := hcpus
  batch := hbatch
  remote _ := hremote

end Flushed

/-- Source: none: infrastructure. Kind: L -/
theorem flushRemoteList_pages :
    (flushRemoteList root k s).blocks = s.blocks ∧ (flushRemoteList root k s).held = s.held := by
  unfold flushRemoteList
  cases (s.cpus k).remoteCache <;> exact ⟨rfl, rfl⟩

/-- Source: none: infrastructure. Kind: L -/
theorem turnTo_pages :
    (turnTo root k c s).blocks = s.blocks ∧ (turnTo root k c s).held = s.held := by
  unfold turnTo
  by_cases hc : (s.cpus k).remoteCache ≠ some c
  · rw [if_pos hc]
    exact flushRemoteList_pages
  · rw [if_neg hc]
    exact ⟨rfl, rfl⟩

/-- Source: `sys/slab_allocator.cpp` `SlabAllocator::FlushRemoteList`
Kind: L -/
theorem flushRemoteList_remoteCache :
    ((flushRemoteList root k s).cpus k).remoteCache = (s.cpus k).remoteCache := by
  unfold flushRemoteList
  cases hcache : (s.cpus k).remoteCache with
  | none => exact hcache
  | some c =>
      dsimp only
      rw [State.setCpu_cpus, Function.update_self]
      exact hcache

/-- The list that `FreeRemote` pushes on is empty if the cache has changed.
Source: `sys/slab_allocator.cpp` `SlabAllocator::FreeRemote`
Kind: L -/
theorem turnTo_length (h : Homed root s) :
    ((turnTo root k c s).cpus k).remoteList.length =
      if (s.cpus k).remoteCache = some c then (s.cpus k).remoteList.length else 0 := by
  unfold turnTo
  by_cases hc : (s.cpus k).remoteCache = some c
  · rw [if_neg (not_not.mpr hc), if_pos hc]
  · rw [if_pos hc, if_neg hc]
    dsimp only
    rw [State.setCpu_cpus, Function.update_self]
    dsimp only
    rw [h.flushRemoteList_eq_nil]
    rfl

/-- The call of a function and its return. Source: none: infrastructure. Kind: L -/
theorem push_setStack (frame : Frame) (s : State) (k : ℕ) :
    (s.push k frame).setStack k (s.cpus k).stack = s := by
  unfold State.push State.setStack State.setCpu
  simp

/-! ## One turn of a flush -/

/-- From `s`, with an object of cache `owner` in the hand, a turn of the loop comes to `v`: `u` is
where the loop's body has led to, and at most one frame on top is left to run.
Source: `sys/slab_allocator.cpp` `SlabCache::FlushFreeList`
Kind: D -/
structure Settles (root : SlabAllocatorRoot) (k : ℕ) (c : CacheId) (strays : List CacheId) (s : State)
    (u t' : Teardown) : Prop where
  runs : ∃ n ≤ 1, ∀ fuel, runCall root k (fuel + n) u = runCall root k fuel t'
  inv : Inv root [] t'.state
  homed : Homed root t'.state
  stack : (t'.state.cpus k).stack = (s.cpus k).stack
  target : (t'.state.cpus k).target = (s.cpus k).target
  objectList : (t'.state.caches c).objectList = (s.caches c).objectList
  flushed : Flushed root k c strays ⟨s, u.returned⟩ t'

/-- One more frame runs. Source: none: infrastructure. Kind: L -/
theorem runCall_succ {frame : Frame} {frames : List Frame} (fuel : ℕ)
    (hstack : (t.state.cpus k).stack = frame :: frames)
    (hstep : runFrame root k none t.state frames frame = some s) :
    runCall root k (fuel + 1) t = runCall root k fuel ⟨s, releasing [frame] ++ t.returned⟩ := by
  rw [runCall, hstack]
  dsimp only
  rw [hstep]

/-- An object of another cache goes to the CPU's remote list, and a full batch to that cache.
Source: `sys/slab_allocator.cpp` `SlabAllocator::FreeRemote`
Kind: L -/
theorem settles_stray (hinv : Inv root [o] s) (hhomed : Homed root s) (hk : k < maxNumCpus)
    (returned : List ℕ) :
    ∃ t', Settles root k c [s.owner o] s ⟨freeRemote root k o s, returned⟩ t' := by
  have hknown : (s.owner o).Known := (hhomed.owner_eq hinv (p := none) List.mem_cons_self).2
  have hinv' : Inv root [] (freeRemote root k o s) := hinv.freeRemote
  have hhomed' : Homed root (freeRemote root k o s) := hhomed.freeRemote hk hknown
  have hturned : Homed root (turnTo root k (s.owner o) s) := hhomed.turnTo
  have hquiet : Quiet root k s (turnTo root k (s.owner o) s) := Quiet.turnTo
  obtain ⟨u, hu⟩ : ∃ u, u = (turnTo root k (s.owner o) s).setCpu k
      { (turnTo root k (s.owner o) s).cpus k with
        remoteList := o :: ((turnTo root k (s.owner o) s).cpus k).remoteList } := ⟨_, rfl⟩
  have hself : u.cpus k = { (turnTo root k (s.owner o) s).cpus k with
      remoteList := o :: ((turnTo root k (s.owner o) s).cpus k).remoteList } := by
    rw [hu, State.setCpu_cpus, Function.update_self]
  have hstacku : (u.cpus k).stack = (s.cpus k).stack := by
    rw [hself]
    exact turnTo_stack
  have hlength : (u.cpus k).remoteList.length =
      (if (s.cpus k).remoteCache = some (s.owner o) then (s.cpus k).remoteList.length else 0) + 1 := by
    rw [hself]
    dsimp only
    rw [List.length_cons, turnTo_length hhomed]
  have hcacheu : (u.cpus k).remoteCache = some (s.owner o) := by
    rw [hself]
    exact Homed.turnTo_remoteCache root k _ s
  have hquietu : Quiet root k s u := by
    rw [hu]
    exact hquiet.trans (Quiet.setCpu rfl)
  have hdatau : u.data = s.data := by
    rw [hu]
    exact Homed.turnTo_data
  have hpagesu : u.blocks = s.blocks ∧ u.held = s.held := by
    rw [hu]
    exact turnTo_pages
  have hfree : freeRemote root k o s =
      if (u.cpus k).remoteList.length > root.freeBatch then u.push k .flushRemote else u := by
    rw [hself, hu]
    rfl
  -- in both cases nothing but the lists has changed
  have hflushed : ∀ v : State, v.data = u.data → v.blocks = u.blocks → v.held = u.held →
      Quiet root k u v → v.batchOf k = batch root.freeBatch (s.batchOf k) (s.owner o) →
      Flushed root k c [s.owner o] ⟨s, returned⟩ ⟨v, returned⟩ := by
    intro v hdata hblocks hheld hq hbatch
    have hq' := hquietu.trans hq
    refine ⟨Progress.of_pages (hdata.trans hdatau) (hblocks.trans hpagesu.1) (hheld.trans hpagesu.2),
      fun c' _ => hq'.objectList c', hq'.cpus, hbatch, fun hnil => ?_⟩
    exact absurd hnil (List.cons_ne_nil _ _)
  by_cases hlen : (u.cpus k).remoteList.length > root.freeBatch
  · rw [if_pos hlen] at hfree
    rw [hfree] at hinv' hhomed' ⊢
    have hstack : ((u.push k .flushRemote).cpus k).stack = .flushRemote :: (u.cpus k).stack :=
      push_stack _
    have hinvu : Inv root [] u := by
      rw [← push_setStack .flushRemote u k]
      refine hinv'.setStack ?_
      rw [hstack]
      rfl
    have hhomedu : Homed root u := by
      rw [← push_setStack .flushRemote u k]
      exact hhomed'.setStack _
    refine ⟨⟨flushRemoteList root k u, returned⟩, ⟨1, le_rfl, fun fuel => ?_⟩,
      hinvu.flushRemoteList, hhomedu.flushRemoteList, ?_, ?_, ?_, ?_⟩
    · rw [runCall_succ fuel hstack (s := flushRemoteList root k u)]
      · rfl
      · unfold runFrame
        rw [push_setStack]
    · exact flushRemoteList_stack.trans hstacku
    · exact (hquietu.trans Quiet.flushRemoteList).target
    · exact (hquietu.trans Quiet.flushRemoteList).objectList c
    · refine hflushed _ Homed.flushRemoteList_data flushRemoteList_pages.1 flushRemoteList_pages.2
        Quiet.flushRemoteList ?_
      unfold State.batchOf batch
      dsimp only
      rw [flushRemoteList_remoteCache, hhomedu.flushRemoteList_eq_nil, hcacheu, ← hlength, if_pos hlen]
      rfl
  · rw [if_neg hlen] at hfree
    rw [hfree] at hinv' hhomed' ⊢
    refine ⟨⟨u, returned⟩, ⟨0, by omega, fun fuel => rfl⟩, hinv', hhomed', hstacku, hquietu.target,
      hquietu.objectList c, hflushed u rfl rfl rfl Quiet.refl ?_⟩
    unfold State.batchOf batch
    dsimp only
    rw [hcacheu, ← hlength, if_neg hlen]

/-- What a turn of the loop changes in the pages: slab `b` gets an object, the CPUs and the lists of
objects stay.
Source: `sys/slab_allocator.cpp` `SlabCache::FlushFreeList`
Kind: D -/
structure PageOnly (b : ℕ) (d : SlabData) (s u : State) : Prop where
  data : u.data = Function.update s.data b d
  blocks : u.blocks = s.blocks
  held : u.held = s.held
  cpus : u.cpus = s.cpus
  lists : ∀ c, (u.caches c).objectList = (s.caches c).objectList ∧
    (u.caches c).remote = (s.caches c).remote

/-- Source: none: infrastructure. Kind: L -/
theorem PageOnly.setData (b : ℕ) (d : SlabData) (s : State) : PageOnly b d s (s.setData b d) :=
  ⟨rfl, rfl, rfl, rfl, fun _ => ⟨rfl, rfl⟩⟩

/-- Source: none: infrastructure. Kind: L -/
theorem PageOnly.setPartial (b : ℕ) (d : SlabData) (s : State) (c : CacheId) (pages : List ℕ) :
    PageOnly b d s ((s.setData b d).setCache c { s.caches c with partialPageList := pages }) :=
  ⟨rfl, rfl, rfl, rfl, Inv.setPartial_lists s c pages⟩

/-- A slab that still has used objects.
Source: `sys/slab_allocator.cpp` `SlabCache::FlushFreeList`
Kind: L -/
theorem PageOnly.flushed {d : SlabData} {u : State} (h : PageOnly b d s u)
    (hcache : d.cache = (s.data b).cache) (hpos : 0 < (s.data b).used) (hused : d.used ≠ 0)
    (returned : List ℕ) : Flushed root k c [] ⟨s, returned⟩ ⟨u, returned⟩ := by
  refine ⟨⟨?_, h.held, List.Perm.of_eq (by rw [h.blocks]), ?_, ?_⟩, fun c' _ => (h.lists c').1, ?_, ?_,
    fun _ c' => (h.lists c').2⟩
  · intro q
    dsimp only
    rw [h.data]
    by_cases hq : q = b
    · rw [hq, Function.update_self, hcache]
    · rw [Function.update_of_ne hq]
  · intro b' hb' hzero
    dsimp only at hb' hzero ⊢
    have hne : b' ≠ b := by
      rintro rfl
      omega
    rw [h.blocks, h.data, Function.update_of_ne hne]
    exact ⟨hb', hzero⟩
  · intro hall b' hb'
    dsimp only at hall hb' ⊢
    rw [h.blocks] at hb'
    rw [h.data]
    by_cases hne : b' = b
    · rw [hne, Function.update_self]
      exact hused
    · rw [Function.update_of_ne hne]
      exact hall b' hb'
  · intro k' _
    dsimp only
    rw [h.cpus]
  · unfold State.batchOf
    dsimp only
    rw [h.cpus]
    rfl

/-- A slab whose last used object has come back.
Source: `sys/slab_allocator.cpp` `SlabCache::FlushFreeList`
Kind: L -/
theorem PageOnly.flushed_release {d : SlabData} {u : State} (h : PageOnly b d s u)
    (hcache : d.cache = (s.data b).cache) (hpos : 0 < (s.data b).used) (hb : b ∈ s.blocks)
    (hnodup : s.blocks.Nodup) (returned : List ℕ) :
    Flushed root k c [] ⟨s, returned⟩ ⟨release b u, releasing [.release b] ++ returned⟩ := by
  have hdata : ∀ b' ≠ b, (release b u).data b' = s.data b' := by
    intro b' hne
    rw [release, State.setData_data, Function.update_of_ne hne, h.data, Function.update_of_ne hne]
  have hblocks : (release b u).blocks = s.blocks.erase b := by
    rw [release, h.blocks]
  refine ⟨⟨?_, h.held, ?_, ?_, ?_⟩, fun c' _ => (h.lists c').1, ?_, ?_, fun _ c' => (h.lists c').2⟩
  · intro q
    dsimp only
    by_cases hq : q = b
    · rw [hq, release, State.setData_data, Function.update_self, h.data, Function.update_self, hcache]
    · rw [hdata q hq]
  · dsimp only
    rw [hblocks]
    have hcons : (releasing [.release b] ++ returned ++ s.blocks.erase b).Perm
        (returned ++ b :: s.blocks.erase b) := List.perm_middle.symm
    exact hcons.trans ((List.perm_cons_erase hb).symm.append_left returned)
  · intro b' hb' hzero
    dsimp only at hb' hzero ⊢
    have hne : b' ≠ b := by
      rintro rfl
      omega
    rw [hblocks, hdata b' hne]
    exact ⟨hnodup.mem_erase_iff.mpr ⟨hne, hb'⟩, hzero⟩
  · intro hall b' hb'
    dsimp only at hall hb' ⊢
    rw [hblocks] at hb'
    obtain ⟨hne, hmem⟩ := hnodup.mem_erase_iff.mp hb'
    rw [hdata b' hne]
    exact hall b' hmem
  · intro k' _
    dsimp only
    rw [← h.cpus]
    rfl
  · unfold State.batchOf
    dsimp only
    rw [← h.cpus]
    rfl

/-- An object of the cache itself goes to its slab, and a slab whose objects are all back is returned.
Source: `sys/slab_allocator.cpp` `SlabCache::FlushFreeList`
Kind: L -/
theorem settles_own (hinv : Inv root [o] s) (hhomed : Homed root s) (hk : k < maxNumCpus)
    (hown : s.owner o = c) (returned : List ℕ) :
    ∃ t', Settles root k c [] s ⟨flushObject root k c o s, returned⟩ t' := by
  obtain ⟨howner, hknown⟩ := hhomed.owner_eq hinv (p := none) (o := o) List.mem_cons_self
  have hinv' : Inv root [] (flushObject root k c o s) := hinv.flushObject
  have hhomed' : Homed root (flushObject root k c o s) := hhomed.flushObject hk hknown
  obtain ⟨hpos, hsub, hbalanced⟩ := hinv.balanced_flush rfl
  have hb := hbalanced.mem
  have hcache : ¬ (s.data (addrToSlabPfn o root.order)).cache ≠ c := by
    rw [← howner, hown]
    exact not_not.mpr rfl
  unfold flushObject at hinv' hhomed' ⊢
  dsimp only at hinv' hhomed' ⊢
  rw [if_neg hcache] at hinv' hhomed' ⊢
  clear hbalanced
  generalize addrToSlabPfn o root.order = b at *
  rw [hsub] at hinv' hhomed' ⊢
  obtain ⟨d, hd⟩ : ∃ d : SlabData,
      d = ⟨o :: (s.data b).list, (s.data b).cache, (s.data b).used - 1⟩ := ⟨_, rfl⟩
  rw [← hd] at hinv' hhomed' ⊢
  have hdcache : d.cache = (s.data b).cache := by rw [hd]
  by_cases hzero : (s.data b).used - 1 = 0
  · rw [if_pos hzero] at hinv' hhomed' ⊢
    -- the slab is taken off its list and released
    have hrelease : ∀ u : State, PageOnly b d s u → Inv root [] (u.push k (.release b)) →
        Homed root (u.push k (.release b)) →
        Settles root k c [] s ⟨u.push k (.release b), returned⟩
          ⟨release b u, releasing [.release b] ++ returned⟩ := by
      intro u hu hinvu hhomedu
      have hstack : ((u.push k (.release b)).cpus k).stack = .release b :: (u.cpus k).stack :=
        push_stack _
      refine ⟨⟨1, le_rfl, fun fuel => ?_⟩, ?_, ?_, ?_, ?_, (hu.lists c).1,
        hu.flushed_release hdcache hpos hb hinv.nodup returned⟩
      · rw [runCall_succ fuel hstack (s := release b u)]
        unfold runFrame
        rw [push_setStack]
      · have hinv'' := hinvu.release hstack
        rwa [push_setStack] at hinv''
      · refine Homed.release ?_
        rw [← push_setStack (.release b) u k]
        exact hhomedu.setStack _
      · exact congrArg (fun cpus => SlabAllocator.stack (cpus k)) hu.cpus
      · exact congrArg (fun cpus => SlabAllocator.target (cpus k)) hu.cpus
    by_cases hmany : root.numObjectsPerSlab > 1
    · rw [if_pos hmany] at hinv' hhomed' ⊢
      exact ⟨_, hrelease _ (PageOnly.setPartial b d s c _) hinv' hhomed'⟩
    · rw [if_neg hmany] at hinv' hhomed' ⊢
      exact ⟨_, hrelease _ (PageOnly.setData b d s) hinv' hhomed'⟩
  · rw [if_neg hzero] at hinv' hhomed' ⊢
    have hstay : ∀ u : State, PageOnly b d s u → Inv root [] u → Homed root u →
        Settles root k c [] s ⟨u, returned⟩ ⟨u, returned⟩ := by
      intro u hu hinvu hhomedu
      refine ⟨⟨0, by omega, fun fuel => rfl⟩, hinvu, hhomedu, ?_, ?_, (hu.lists c).1,
        hu.flushed hdcache hpos (by rw [hd]; exact hzero) returned⟩
      · exact congrArg (fun cpus => SlabAllocator.stack (cpus k)) hu.cpus
      · exact congrArg (fun cpus => SlabAllocator.target (cpus k)) hu.cpus
    by_cases hfull : (s.data b).used - 1 + 1 = root.numObjectsPerSlab
    · rw [if_pos hfull] at hinv' hhomed' ⊢
      exact ⟨_, hstay _ (PageOnly.setPartial b d s c _) hinv' hhomed'⟩
    · rw [if_neg hfull] at hinv' hhomed' ⊢
      exact ⟨_, hstay _ (PageOnly.setData b d s) hinv' hhomed'⟩

/-- **One turn of a flush.** The first object leaves the list; if it belongs to another cache it is
one more object of the batch.
Source: `sys/slab_allocator.cpp` `SlabCache::FlushFreeList`
Kind: L -/
theorem flush_turn {freed amount : ℕ} {list : List ℕ} (hinv : Inv root [] t.state)
    (hhomed : Homed root t.state) (hk : k < maxNumCpus)
    (hstack : (t.state.cpus k).stack = [.flush freed amount]) (htarget : (t.state.cpus k).target = c)
    (hlist : (t.state.caches c).objectList = o :: list) (hfreed : freed < amount) :
    ∃ t', (∃ n ≤ 2, ∀ fuel, runCall root k (fuel + n) t = runCall root k fuel t') ∧
      Inv root [] t'.state ∧ Homed root t'.state ∧
      (t'.state.cpus k).stack = [.flush (freed + 1) amount] ∧ (t'.state.cpus k).target = c ∧
      (t'.state.caches c).objectList = list ∧
      Flushed root k c ([t.state.owner o].filter (· ≠ c)) t t' := by
  obtain ⟨s, hs⟩ : ∃ s, s = (t.state.setStack k [.flush (freed + 1) amount]).setCache c
      { t.state.caches c with objectList := list } := ⟨_, rfl⟩
  have hself : s.cpus k = { t.state.cpus k with stack := [.flush (freed + 1) amount] } := by
    rw [hs, State.setCache_cpus, State.setStack_cpus, Function.update_self]
  have hother : ∀ c', c' ≠ c → s.caches c' = t.state.caches c' := by
    intro c' hc
    rw [hs, State.setCache_caches, Function.update_of_ne hc]
    rfl
  have hcache : s.caches c = { t.state.caches c with objectList := list } := by
    rw [hs, State.setCache_caches, Function.update_self]
  have hpop : Inv root [o] s := by
    have hinv' : Inv root [] (t.state.setStack k [.flush (freed + 1) amount]) :=
      hinv.setStack (by rw [hstack]; rfl)
    rw [hs]
    exact hinv'.pop hlist
  have hhomed' : Homed root s := by
    rw [hs]
    refine Homed.setCache_sublist (hhomed.setStack _) ?_ (List.Subset.refl _)
    show list ⊆ (t.state.caches c).objectList
    rw [hlist]
    exact List.subset_cons_self o list
  have howner : s.owner o = t.state.owner o := by
    rw [hs]
    rfl
  have hrun : ∀ fuel, runCall root k (fuel + 1) t =
      runCall root k fuel ⟨flushObject root k c o s, t.returned⟩ := by
    intro fuel
    refine runCall_succ fuel hstack ?_
    unfold runFrame
    dsimp only
    rw [htarget, hlist]
    dsimp only
    rw [if_pos hfreed, hs]
  have hpopped : Flushed root k c [] t ⟨s, t.returned⟩ := by
    refine Flushed.of_lists ?_ ?_ ?_ ?_ ?_ ?_ ?_
    · rw [hs]
      rfl
    · rw [hs]
      rfl
    · rw [hs]
      rfl
    · intro c' hc
      rw [hother c' hc]
    · intro c'
      by_cases hc : c' = c
      · rw [hc, hcache]
      · rw [hother c' hc]
    · intro k' hk'
      rw [hs, State.setCache_cpus, State.setStack_cpus, Function.update_of_ne hk']
    · unfold State.batchOf
      rw [hself]
  have hsettled : ∃ t', Settles root k c ([t.state.owner o].filter (· ≠ c)) s
      ⟨flushObject root k c o s, t.returned⟩ t' := by
    by_cases hown : t.state.owner o = c
    · rw [List.filter_cons_of_neg (by simpa using hown), List.filter_nil]
      exact settles_own hpop hhomed' hk (howner.trans hown) t.returned
    · rw [List.filter_cons_of_pos (by simpa using hown), List.filter_nil, ← howner]
      have hstray : (s.data (addrToSlabPfn o root.order)).cache ≠ c := by
        rw [← (hhomed'.owner_eq hpop (p := none) List.mem_cons_self).1, howner]
        exact hown
      have hflush : flushObject root k c o s = freeRemote root k o s := by
        unfold flushObject
        dsimp only
        rw [if_pos hstray]
      rw [hflush]
      exact settles_stray hpop hhomed' hk t.returned
  obtain ⟨t', ⟨n, hn, hruns⟩, hinv', hhomed'', hstack', htarget', hlist', hflushed⟩ := hsettled
  refine ⟨t', ⟨n + 1, by omega, fun fuel => ?_⟩, hinv', hhomed'', ?_, ?_, ?_, ?_⟩
  · rw [← Nat.add_assoc, hrun]
    exact hruns fuel
  · rw [hstack', hself]
  · rw [htarget', hself]
    exact htarget
  · rw [hlist', hcache]
  · exact hpopped.trans hflushed

/-- **The loop of a flush**, with enough turns left, empties the list.
Source: `sys/slab_allocator.cpp` `SlabCache::FlushFreeList`
Kind: L -/
theorem flush_loop {freed amount : ℕ} {list : List ℕ} (fuel : ℕ) (hinv : Inv root [] t.state)
    (hhomed : Homed root t.state) (hk : k < maxNumCpus)
    (hstack : (t.state.cpus k).stack = [.flush freed amount]) (htarget : (t.state.cpus k).target = c)
    (hlist : (t.state.caches c).objectList = list) (hamount : freed + list.length < amount)
    (hfuel : 2 * list.length + 1 < fuel) :
    Inv root [] (runCall root k fuel t).state ∧ Homed root (runCall root k fuel t).state ∧
      ((runCall root k fuel t).state.cpus k).stack = [] ∧
      ((runCall root k fuel t).state.caches c).objectList = [] ∧
      Flushed root k c ((list.map t.state.owner).filter (· ≠ c)) t (runCall root k fuel t) := by
  induction list generalizing t freed fuel with
  | nil =>
      obtain ⟨fuel, rfl⟩ : ∃ n, fuel = n + 2 := ⟨fuel - 2, by simp at hfuel; omega⟩
      have hstep : runFrame root k none t.state [] (.flush freed amount) =
          some (t.state.setStack k []) := by
        unfold runFrame
        dsimp only
        rw [htarget, hlist]
      have hidle : ((t.state.setStack k []).cpus k).stack = [] := by
        rw [State.setStack_cpus, Function.update_self]
      have hrun : runCall root k (fuel + 2) t = ⟨t.state.setStack k [], t.returned⟩ := by
        rw [runCall_succ (fuel + 1) hstack hstep, runCall]
        dsimp only
        rw [hidle]
        rfl
      rw [hrun]
      refine ⟨hinv.setStack (by rw [hstack]; rfl), hhomed.setStack _, hidle, hlist, ?_⟩
      refine Flushed.of_lists rfl rfl rfl (fun _ _ => rfl) (fun _ => rfl) (fun k' hk' => ?_) ?_
      · rw [State.setStack_cpus, Function.update_of_ne hk']
      · unfold State.batchOf
        rw [State.setStack_cpus, Function.update_self]
  | cons o list ih =>
      rw [List.length_cons] at hamount hfuel
      obtain ⟨t', ⟨n, hn, hruns⟩, hinv', hhomed', hstack', htarget', hlist', hflushed⟩ :=
        flush_turn hinv hhomed hk hstack htarget hlist (by omega)
      obtain ⟨fuel, rfl⟩ : ∃ m, fuel = m + n := ⟨fuel - n, by omega⟩
      obtain ⟨hinv'', hhomed'', hidle, hnil, hrest⟩ := ih fuel hinv' hhomed' hstack'
        htarget' hlist' (by omega) (by omega)
      rw [hruns]
      refine ⟨hinv'', hhomed'', hidle, hnil, ?_⟩
      rw [hflushed.progress.owner_eq] at hrest
      have hcons : ((o :: list).map t.state.owner).filter (· ≠ c) =
          [t.state.owner o].filter (· ≠ c) ++ (list.map t.state.owner).filter (· ≠ c) := by
        rw [List.map_cons, ← List.singleton_append, List.filter_append]
      rw [hcons]
      exact hflushed.trans hrest

end Slab

end EbbRT
