import EbbRT.Mem.SlabRuns

/-!
# Whose objects are where

Every object has an owner, the cache of the slab that it is in. What allocations and frees leave in
`remote_.list` of a cache, and in `object_list_` of a node's cache, is owned by that cache; what a
CPU keeps in its `remote_list_` is owned by its `remote_cache_`; only in `object_list_` of a CPU's
cache there may be objects of others, which another CPU of the node has allocated. With that goes
that only the caches in the root's two arrays are used.
-/

namespace EbbRT

namespace Slab

open EbbRT.Lib

/-- Source: `sys/cpu.hpp` `MAX_NUM_CPUS`. Kind: D -/
def maxNumCpus : ℕ := 256

/-- Source: `sys/numa.hpp` `MAX_NUMA_NODES`. Kind: D -/
def maxNumaNodes : ℕ := 256

/-- The caches that the root's arrays have room for.
Source: `sys/slab_allocator.hpp` `SlabAllocatorRoot`
Kind: D -/
def CacheId.Known : CacheId → Prop
  | .cpu i => i < maxNumCpus
  | .node nid => nid < maxNumaNodes

/-- The cache that `FreeRemote` finds for an object.
Source: `sys/slab_allocator.cpp` `SlabAllocator::FreeRemote`
Kind: D -/
def State.owner (s : State) (o : ℕ) : CacheId := (s.data (pfnDown o)).cache

/-- Clients allocate, from any node, and free; only the CPUs that there are run.
Source: none: infrastructure
Kind: D -/
def AllocsAndFrees (_ : State) : Step → Prop
  | .call k (.alloc nid) => k < maxNumCpus ∧ nid < maxNumaNodes
  | .call k (.free _) => k < maxNumCpus
  | .call _ _ => False
  | .run k _ => k < maxNumCpus

instance (s : State) : ∀ a : Step, Decidable (AllocsAndFrees s a)
  | .call _ (.alloc _) => inferInstanceAs (Decidable (_ ∧ _))
  | .call _ (.free _) => inferInstanceAs (Decidable (_ < _))
  | .call _ (.freeRemote _) => isFalse not_false
  | .call _ (.flushFreeList _) => isFalse not_false
  | .call _ .flushRemoteList => isFalse not_false
  | .call _ .claimRemoteFreeList => isFalse not_false
  | .run _ _ => inferInstanceAs (Decidable (_ < _))

/-! ## The invariant -/

/-- Where the objects of a cache may be.
Source: `sys/slab_allocator.hpp` `SlabCache`, `SlabAllocator`
Kind: D -/
structure Homed (root : SlabAllocatorRoot) (s : State) : Prop where
  /-- All pages of a slab name one cache. -/
  frames : ∀ b ∈ s.blocks, ∀ o ∈ root.objects b, s.owner o = (s.data b).cache
  known : ∀ b ∈ s.blocks, (s.data b).cache.Known
  target : ∀ k < maxNumCpus, (s.cpus k).target.Known
  objectList : ∀ c, ∀ o ∈ (s.caches c).objectList, c.Known ∧ ∀ nid, c = .node nid → s.owner o = c
  remoteList : ∀ k, ∀ o ∈ (s.cpus k).remoteList,
    k < maxNumCpus ∧ (s.cpus k).remoteCache = some (s.owner o) ∧ (s.owner o).Known
  remote : ∀ c, ∀ o ∈ (s.caches c).remote, s.owner o = c ∧ c.Known

variable {root : SlabAllocatorRoot} {hand : List ℕ} {s s' : State} {k o b : ℕ} {c : CacheId}

namespace Homed

/-- Before the first call. Source: `sys/slab_allocator.cpp` `SlabCache::SlabCache`. Kind: L -/
theorem init (boot : ℕ → SlabData) : Homed root (State.init boot) where
  frames _ hb := absurd hb List.not_mem_nil
  known _ hb := absurd hb List.not_mem_nil
  target _ hk := hk
  objectList _ _ ho := absurd ho List.not_mem_nil
  remoteList _ _ ho := absurd ho List.not_mem_nil
  remote _ _ ho := absurd ho List.not_mem_nil

/-- **The owner of a live object** is the cache of its slab, and is in the arrays.
Source: `sys/slab_allocator.cpp` `SlabCache::AddSlab`
Kind: L -/
theorem owner_eq (h : Homed root s) (hinv : Inv root hand s) {p : Option Place}
    (ho : o ∈ s.withHand hand p) :
    s.owner o = (s.data (addrToSlabPfn o root.order)).cache ∧ (s.owner o).Known := by
  obtain ⟨hb, hmem⟩ := hinv.slab_of_mem ho
  have heq := h.frames _ hb o hmem
  exact ⟨heq, heq ▸ h.known _ hb⟩

/-- Pages and blocks change, but no cache of a page, and no block is new.
Source: none: infrastructure
Kind: L -/
theorem of_pages (h : Homed root s) (hcache : ∀ q, (s'.data q).cache = (s.data q).cache)
    (hblocks : ∀ b ∈ s'.blocks, b ∈ s.blocks) (hcaches : s'.caches = s.caches)
    (hcpus : s'.cpus = s.cpus) : Homed root s' := by
  have howner : ∀ o, s'.owner o = s.owner o := fun o => hcache _
  refine ⟨?_, ?_, ?_, ?_, ?_, ?_⟩
  · intro b hb o ho
    rw [howner, hcache]
    exact h.frames b (hblocks b hb) o ho
  · intro b hb
    rw [hcache]
    exact h.known b (hblocks b hb)
  · rw [hcpus]
    exact h.target
  · simp only [howner, hcaches]
    exact h.objectList
  · simp only [howner, hcpus]
    exact h.remoteList
  · simp only [howner, hcaches]
    exact h.remote

/-- Source: none: infrastructure. Kind: L -/
theorem setData (h : Homed root s) {d : SlabData} (hd : d.cache = (s.data b).cache) :
    Homed root (s.setData b d) := by
  refine h.of_pages (fun q => ?_) (fun _ hb => hb) rfl rfl
  rw [State.setData_data]
  by_cases hq : q = b
  · rw [hq, Function.update_self, hd]
  · rw [Function.update_of_ne hq]

/-- One cache changes. Source: none: infrastructure. Kind: L -/
theorem setCache (h : Homed root s) {v : SlabCache}
    (hobjects : ∀ o ∈ v.objectList, c.Known ∧ ∀ nid, c = .node nid → s.owner o = c)
    (hremote : ∀ o ∈ v.remote, s.owner o = c ∧ c.Known) : Homed root (s.setCache c v) := by
  refine ⟨h.frames, h.known, h.target, ?_, h.remoteList, ?_⟩
  · intro c' o ho
    rw [State.setCache_caches] at ho
    by_cases hc : c' = c
    · subst hc
      rw [Function.update_self] at ho
      exact hobjects o ho
    · rw [Function.update_of_ne hc] at ho
      exact h.objectList c' o ho
  · intro c' o ho
    rw [State.setCache_caches] at ho
    by_cases hc : c' = c
    · subst hc
      rw [Function.update_self] at ho
      exact hremote o ho
    · rw [Function.update_of_ne hc] at ho
      exact h.remote c' o ho

/-- One CPU changes. Source: none: infrastructure. Kind: L -/
theorem setCpu (h : Homed root s) {v : SlabAllocator} (htarget : k < maxNumCpus → v.target.Known)
    (hlist : ∀ o ∈ v.remoteList,
      k < maxNumCpus ∧ v.remoteCache = some (s.owner o) ∧ (s.owner o).Known) :
    Homed root (s.setCpu k v) := by
  refine ⟨h.frames, h.known, ?_, h.objectList, ?_, h.remote⟩
  · intro k' hk'
    rw [State.setCpu_cpus]
    by_cases hk : k' = k
    · subst hk
      rw [Function.update_self]
      exact htarget hk'
    · rw [Function.update_of_ne hk]
      exact h.target k' hk'
  · intro k' o ho
    rw [State.setCpu_cpus] at ho ⊢
    by_cases hk : k' = k
    · subst hk
      rw [Function.update_self] at ho ⊢
      exact hlist o ho
    · rw [Function.update_of_ne hk] at ho ⊢
      exact h.remoteList k' o ho

/-- Source: none: infrastructure. Kind: L -/
theorem setStack (h : Homed root s) (frames : List Frame) : Homed root (s.setStack k frames) :=
  h.setCpu (h.target k) (h.remoteList k)

/-- Source: none: infrastructure. Kind: L -/
theorem setHeld (h : Homed root s) (held : List ℕ) : Homed root { s with held := held } :=
  h.of_pages (fun _ => rfl) (fun _ hb => hb) rfl rfl

/-- The lists of objects of a cache stay, or lose some.
Source: none: infrastructure
Kind: L -/
theorem setCache_sublist (h : Homed root s) {v : SlabCache}
    (hobjects : v.objectList ⊆ (s.caches c).objectList) (hremote : v.remote ⊆ (s.caches c).remote) :
    Homed root (s.setCache c v) :=
  h.setCache (fun o ho => h.objectList c o (hobjects ho)) fun o ho => h.remote c o (hremote ho)

/-! ## The functions keep it -/

/-- Source: `sys/slab_allocator.cpp` `SlabAllocator::FlushRemoteList`
Kind: L -/
theorem flushRemoteList (h : Homed root s) : Homed root (flushRemoteList root k s) := by
  unfold Slab.flushRemoteList
  cases hcache : (s.cpus k).remoteCache with
  | none => exact h
  | some c =>
      dsimp only
      have howner : ∀ o ∈ (s.cpus k).remoteList, s.owner o = c ∧ c.Known := by
        intro o ho
        obtain ⟨-, heq, hknown⟩ := h.remoteList k o ho
        rw [hcache] at heq
        obtain rfl := Option.some.inj heq
        exact ⟨rfl, hknown⟩
      have hreceive : Homed root (s.setCache c ((s.caches c).receive root (s.cpus k).remoteList)) := by
        refine h.setCache (h.objectList c) fun o ho => ?_
        rw [SlabCache.receive_remote, (perm_spliceAfterBegin _ _).mem_iff] at ho
        exact (List.mem_append.mp ho).elim (howner o) (h.remote c o)
      exact hreceive.setCpu (h.target k) fun o ho => absurd ho List.not_mem_nil

/-- `remote_cache_` becomes the new cache, and `remote_list_` is empty if it changed.
Source: `sys/slab_allocator.cpp` `SlabAllocator::FreeRemote`
Kind: L -/
theorem turnTo_remoteCache (root : SlabAllocatorRoot) (k : ℕ) (c : CacheId) (s : State) :
    ((turnTo root k c s).cpus k).remoteCache = some c := by
  unfold turnTo
  by_cases hc : (s.cpus k).remoteCache ≠ some c
  · rw [if_pos hc]
    dsimp only
    rw [State.setCpu_cpus, Function.update_self]
  · rw [if_neg hc]
    exact not_not.mp hc

/-- Source: `sys/slab_allocator.cpp` `SlabAllocator::FreeRemote`
Kind: L -/
theorem flushRemoteList_data : (Slab.flushRemoteList root k s).data = s.data := by
  unfold Slab.flushRemoteList
  cases (s.cpus k).remoteCache <;> rfl

/-- Source: `sys/slab_allocator.cpp` `SlabAllocator::FreeRemote`
Kind: L -/
theorem turnTo_data : (turnTo root k c s).data = s.data := by
  unfold turnTo
  by_cases hc : (s.cpus k).remoteCache ≠ some c
  · rw [if_pos hc]
    exact flushRemoteList_data
  · rw [if_neg hc]

/-- After a flush nothing is left in `remote_list_`.
Source: `sys/slab_allocator.cpp` `SlabAllocator::FlushRemoteList`
Kind: L -/
theorem flushRemoteList_eq_nil (h : Homed root s) :
    ((Slab.flushRemoteList root k s).cpus k).remoteList = [] := by
  unfold Slab.flushRemoteList
  cases hcache : (s.cpus k).remoteCache with
  | none =>
      refine List.eq_nil_iff_forall_not_mem.mpr fun o ho => ?_
      have heq := (h.remoteList k o ho).2.1
      rw [hcache] at heq
      cases heq
  | some c =>
      dsimp only
      rw [State.setCpu_cpus, Function.update_self]

/-- Source: `sys/slab_allocator.cpp` `SlabAllocator::FreeRemote`
Kind: L -/
theorem turnTo (h : Homed root s) : Homed root (turnTo root k c s) := by
  unfold Slab.turnTo
  by_cases hc : (s.cpus k).remoteCache ≠ some c
  · rw [if_pos hc]
    dsimp only
    refine h.flushRemoteList.setCpu (h.flushRemoteList.target k) fun o ho => ?_
    rw [h.flushRemoteList_eq_nil] at ho
    cases ho
  · rw [if_neg hc]
    exact h

/-- Source: `sys/slab_allocator.cpp` `SlabAllocator::FreeRemote`
Kind: L -/
theorem freeRemote (h : Homed root s) (hk : k < maxNumCpus) (hknown : (s.owner o).Known) :
    Homed root (freeRemote root k o s) := by
  unfold Slab.freeRemote
  dsimp only
  obtain ⟨t, ht⟩ : ∃ t, t = Slab.turnTo root k (s.data (pfnDown o)).cache s := ⟨_, rfl⟩
  rw [← ht]
  have hturn : Homed root t := ht ▸ h.turnTo
  have howner : t.owner o = s.owner o := by
    unfold State.owner
    rw [ht, turnTo_data]
  have hcache : (t.cpus k).remoteCache = some (t.owner o) := by
    rw [howner, ht]
    exact turnTo_remoteCache root k _ s
  have hput : Homed root (t.setCpu k
      { t.cpus k with remoteList := o :: (t.cpus k).remoteList }) := by
    refine hturn.setCpu (hturn.target k) fun o' ho' => ?_
    rcases List.mem_cons.mp ho' with rfl | ho'
    · exact ⟨hk, hcache, howner ▸ hknown⟩
    · exact hturn.remoteList k o' ho'
  by_cases hlen : (o :: (t.cpus k).remoteList).length > root.freeBatch
  · rw [if_pos hlen]
    exact hput.setStack _
  · rw [if_neg hlen]
    exact hput

/-- Source: `sys/slab_allocator.cpp` `SlabCache::ClaimRemoteFreeList`
Kind: L -/
theorem claimRemoteFreeList (h : Homed root s) : Homed root (claimRemoteFreeList c s) := by
  refine h.setCache (fun o ho => ?_) fun o ho => absurd ho List.not_mem_nil
  dsimp only at ho
  rw [(perm_spliceAfterEnd _ _).mem_iff] at ho
  rcases List.mem_append.mp ho with ho | ho
  · exact h.objectList c o ho
  · exact ⟨(h.remote c o ho).2, fun _ _ => (h.remote c o ho).1⟩

/-- Source: `sys/slab_allocator.cpp` `SlabCache::Free`
Kind: L -/
theorem cacheFree (h : Homed root s) (hk : k < maxNumCpus) : Homed root (cacheFree root k (.cpu k) o s) := by
  unfold Slab.cacheFree
  dsimp only
  have hput : Homed root (s.setCache (.cpu k)
      { s.caches (.cpu k) with objectList := o :: (s.caches (.cpu k)).objectList }) :=
    h.setCache (fun _ _ => ⟨hk, nofun⟩) (h.remote _)
  by_cases hlen : (o :: (s.caches (.cpu k)).objectList).length > root.hiwater
  · rw [if_pos hlen]
    exact hput.setStack _
  · rw [if_neg hlen]
    exact hput

/-- Source: `sys/slab_allocator.cpp` `SlabCache::FlushFreeList`
Kind: L -/
theorem flushObject (h : Homed root s) (hk : k < maxNumCpus) (hknown : (s.owner o).Known) :
    Homed root (flushObject root k c o s) := by
  unfold Slab.flushObject
  dsimp only
  by_cases hcache : (s.data (addrToSlabPfn o root.order)).cache ≠ c
  · rw [if_pos hcache]
    exact h.freeRemote hk hknown
  rw [if_neg hcache]
  have hpages : ∀ (t : State) (pages : List ℕ), Homed root t →
      Homed root (t.setCache c { t.caches c with partialPageList := pages }) :=
    fun t pages ht => ht.setCache_sublist (List.Subset.refl _) (List.Subset.refl _)
  obtain ⟨d, hd⟩ : ∃ d : SlabData, d = { s.data (addrToSlabPfn o root.order) with
      list := o :: (s.data (addrToSlabPfn o root.order)).list
      used := wsub (s.data (addrToSlabPfn o root.order)).used 1 } := ⟨_, rfl⟩
  rw [← hd]
  have hslab : Homed root (s.setData (addrToSlabPfn o root.order) d) := h.setData (by rw [hd])
  by_cases hzero : wsub (s.data (addrToSlabPfn o root.order)).used 1 = 0
  · rw [if_pos hzero]
    by_cases hmany : root.numObjectsPerSlab > 1
    · rw [if_pos hmany]
      exact (hpages _ _ hslab).setStack _
    · rw [if_neg hmany]
      exact hslab.setStack _
  · rw [if_neg hzero]
    by_cases hfull : wsub (s.data (addrToSlabPfn o root.order)).used 1 + 1 = root.numObjectsPerSlab
    · rw [if_pos hfull]
      exact hpages _ _ hslab
    · rw [if_neg hfull]
      exact hslab

/-- Source: `sys/slab_allocator.cpp` `SlabCache::FlushFreeList`
Kind: L -/
theorem release (h : Homed root s) : Homed root (release b s) := by
  refine h.of_pages (fun q => ?_) (fun _ hb => List.mem_of_mem_erase hb) rfl rfl
  rw [Slab.release, State.setData_data]
  by_cases hq : q = b
  · rw [hq, Function.update_self]
  · rw [Function.update_of_ne hq]

/-- Source: `sys/slab_allocator.cpp` `SlabAllocator::Alloc`
Kind: L -/
theorem finish (h : Homed root s) : Homed root (finish k s) := by
  have h' : Homed root (s.setStack k []) := h.setStack []
  unfold Slab.finish
  cases (s.cpus k).target with
  | cpu i => exact h'
  | node nid => exact h'.of_pages (fun _ => rfl) (fun _ hb => hb) rfl rfl

/-- Source: `sys/slab_allocator.cpp` `SlabCache::Alloc`
Kind: L -/
theorem allocPartial (h : Homed root s) {second : Bool} {frames : List Frame}
    (hstep : allocPartial root k second c frames s = some s') : Homed root s' := by
  rcases allocPartial_cases hstep with rfl | ⟨b, pages, o, d, t, -, rfl | rfl, -, hcache, rfl⟩
  · exact h.setStack _
  · exact Homed.finish (Homed.setHeld (h.setData hcache) _)
  · have hpart : Homed root (s.setCache c { s.caches c with partialPageList := pages }) :=
      h.setCache_sublist (List.Subset.refl _) (List.Subset.refl _)
    exact Homed.finish (Homed.setHeld (hpart.setData hcache) _)

/-- A new slab's pages are no other slab's.
Source: `sys/slab_allocator.cpp` `SlabCache::AddSlab`
Kind: L -/
theorem addSlab (h : Homed root s) (hinv : Inv root [] s) (hpage : PageLegal root s (some b))
    (hc : c.Known) : Homed root (addSlab root c b { s with blocks := b :: s.blocks }) := by
  obtain ⟨hblock, hfresh, -⟩ := hpage
  obtain ⟨s', hs'⟩ : ∃ s', s' = Slab.addSlab root c b { s with blocks := b :: s.blocks } := ⟨_, rfl⟩
  rw [← hs']
  have hpos := Nat.two_pow_pos root.order
  have hne : ∀ b' ∈ s.blocks, b' ≠ b := by
    intro b' hb' heq
    rcases hfresh b' hb' with hle | hle <;> omega
  have hcache : ∀ q, (s'.data q).cache =
      if q ∈ (root.objects b).map pfnDown then c else (s.data q).cache := by
    intro q
    rw [hs', addSlab_data]
  -- no page of a slab that was there before is written
  have hold : ∀ b' ∈ s.blocks, ∀ o ∈ root.objects b', s'.owner o = s.owner o := by
    intro b' hb' o ho
    unfold State.owner
    rw [hcache, if_neg]
    intro hmem
    obtain ⟨o', ho', heq⟩ := List.mem_map.mp hmem
    have h1 := root.addrToSlabPfn_of_mem (hinv.block b' hb') ho
    have h2 := root.addrToSlabPfn_of_mem hblock ho'
    unfold addrToSlabPfn at h1 h2
    rw [heq, h1] at h2
    exact hne b' hb' h2
  have hlive : ∀ {p : Place} {o : ℕ}, o ∈ s.contents p → s'.owner o = s.owner o := by
    intro p o ho
    obtain ⟨hb', hmem⟩ := hinv.slab_of_mem (p := some p) ho
    exact hold _ hb' o hmem
  have hslab : ∀ b' ∈ s.blocks, (s'.data b').cache = (s.data b').cache := by
    intro b' hb'
    rw [hcache, if_neg fun hmem => hne b' hb' (root.eq_of_mem_frames hblock (hinv.block b' hb') hmem)]
  have hself : (s'.data b).cache = c := by
    rw [hcache, if_pos (root.mem_frames hblock)]
  have hblocks : s'.blocks = b :: s.blocks := by
    rw [hs']
    rfl
  have hcpus : s'.cpus = s.cpus := by
    rw [hs']
    rfl
  have hlists : ∀ c', (s'.caches c').objectList = (s.caches c').objectList ∧
      (s'.caches c').remote = (s.caches c').remote := by
    rw [hs']
    exact Inv.setPartial_lists s c _
  refine ⟨?_, ?_, ?_, ?_, ?_, ?_⟩
  · rw [hblocks]
    refine List.forall_mem_cons.mpr ⟨fun o ho => ?_, fun b' hb' o ho => ?_⟩
    · unfold State.owner
      rw [hself, hcache, if_pos (List.mem_map_of_mem ho)]
    · rw [hold b' hb' o ho, hslab b' hb']
      exact h.frames b' hb' o ho
  · rw [hblocks]
    refine List.forall_mem_cons.mpr ⟨hself ▸ hc, fun b' hb' => ?_⟩
    rw [hslab b' hb']
    exact h.known b' hb'
  · rw [hcpus]
    exact h.target
  · intro c' o ho
    rw [(hlists c').1] at ho
    rw [hlive (p := .objectList c') ho]
    exact h.objectList c' o ho
  · intro k' o ho
    rw [hcpus] at ho ⊢
    rw [hlive (p := .remoteList k') ho]
    exact h.remoteList k' o ho
  · intro c' o ho
    rw [(hlists c').2] at ho
    rw [hlive (p := .remote c') ho]
    exact h.remote c' o ho

/-! ## The steps keep it -/

/-- Source: `sys/slab_allocator.cpp` `SlabCache::Alloc`, `SlabCache::FlushFreeList`
Kind: L -/
theorem run (h : Homed root s) (hgood : Good root s) {page : Option ℕ} {frame : Frame}
    {frames : List Frame} (hk : k < maxNumCpus) (hpage : PageLegal root s page)
    (hstack : (s.cpus k).stack = frame :: frames) (hran : Ran root k page s frames frame s') :
    Homed root s' := by
  cases hran with
  | lock => exact (h.setStack _).of_pages (fun _ => rfl) (fun _ hb => hb) rfl rfl
  | spin => exact h
  | pop second o list hlist =>
      have hpop : Homed root (s.setCache (s.cpus k).target
          { s.caches (s.cpus k).target with objectList := list }) := by
        refine h.setCache_sublist ?_ (List.Subset.refl _)
        rw [hlist]
        exact List.subset_cons_self o list
      exact (hpop.setHeld _).finish
  | retry => exact h.setStack _
  | partialPage second s' hstep => exact h.allocPartial hstep
  | noPage => exact h.finish
  | addSlab b heq =>
      have hstack' : releasing (Frame.alloc true :: frames) = releasing (s.cpus k).stack := by
        rw [hstack]
        rfl
      exact Homed.addSlab (h.setStack _) (hgood.inv.setStack hstack') (heq ▸ hpage) (h.target k hk)
  | claim => exact (h.setStack _).claimRemoteFreeList
  | drain => exact h.setStack _
  | drained => exact h.setStack _
  | flush freed amount o list hfreed hlist =>
      have ho : o ∈ s.withHand [] (some (.objectList (s.cpus k).target)) := by
        show o ∈ (s.caches (s.cpus k).target).objectList
        rw [hlist]
        exact List.mem_cons_self
      have hpop : Homed root ((s.setStack k (.flush (freed + 1) amount :: frames)).setCache
          (s.cpus k).target { s.caches (s.cpus k).target with objectList := list }) := by
        refine Homed.setCache_sublist (h.setStack _) ?_ (List.Subset.refl _)
        show list ⊆ (s.caches (s.cpus k).target).objectList
        rw [hlist]
        exact List.subset_cons_self o list
      exact hpop.flushObject hk (h.owner_eq hgood.inv ho).2
  | flushed => exact h.setStack _
  | release pfn => exact (h.setStack _).release
  | flushRemote => exact (h.setStack _).flushRemoteList

/-- Source: `sys/slab_allocator.cpp` `SlabAllocator::Alloc`, `SlabAllocator::Free`
Kind: L -/
theorem start (h : Homed root s) (hgood : Good root s) {topo : Topology} {op : Op}
    (hrange : AllocsAndFrees s (.call k op)) (hlegal : OpLegal s op) :
    Homed root (start root k topo s op) := by
  unfold Slab.start
  cases op with
  | alloc nid =>
      obtain ⟨hk, hnid⟩ := hrange
      dsimp only
      by_cases hhome : nid = topo.nodeOf k
      · rw [if_pos hhome]
        exact h.setCpu (fun _ => hk) (h.remoteList k)
      · rw [if_neg hhome]
        exact h.setCpu (fun _ => hnid) (h.remoteList k)
  | free p =>
      dsimp only
      have hk : k < maxNumCpus := hrange
      have htarget : Homed root (s.setCpu k { s.cpus k with target := .cpu k }) :=
        h.setCpu (fun hk => hk) (h.remoteList k)
      have htaken : Homed root ((s.setCpu k { s.cpus k with target := .cpu k }).take p) :=
        htarget.setHeld _
      by_cases hhome : topo.pageNid (pfnDown p) = topo.nodeOf k
      · rw [if_pos hhome]
        exact htaken.cacheFree hk
      · rw [if_neg hhome]
        exact htaken.freeRemote hk (h.owner_eq hgood.inv (p := some .held) hlegal).2
  | freeRemote p => exact hrange.elim
  | flushFreeList amount => exact hrange.elim
  | flushRemoteList => exact hrange.elim
  | claimRemoteFreeList => exact hrange.elim

/-- **Every run of allocations and frees keeps the objects where they belong.**
Source: `sys/slab_allocator.cpp` `SlabAllocator`
Kind: P -/
theorem of_run {topo : Topology} {boot : ℕ → SlabData} {as : List Step}
    (h : ((slabSystem root topo).guard AllocsAndFrees).Run (State.init boot) as s) : Homed root s := by
  have hboth : Good root s ∧ Homed root s := by
    refine System.Run.invariant (I := fun s => Good root s ∧ Homed root s) h
      ⟨Good.init boot, Homed.init boot⟩ ?_
    rintro s a s' ⟨hgood, hhomed⟩ ⟨hlegal, hrange⟩ hstep
    refine ⟨hgood.step hlegal hstep, ?_⟩
    cases a with
    | call k op =>
        cases hstep
        exact hhomed.start hgood hrange hlegal.2
    | run k page =>
        have hrun : Slab.step root topo s (.run k page) = some s' := hstep
        obtain ⟨frame, frames, hstack, hran⟩ := ran_of_step hrun
        exact hhomed.run hgood hrange hlegal.2 hstack hran
  exact hboth.2

end Homed

end Slab

end EbbRT
