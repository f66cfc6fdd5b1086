import EbbRT.Mem.SlabAllocator

/-!
# The invariant of the slab allocator

Two conservation laws, both of tokens that move between places. The objects of the blocks that the
root holds are each in one of the five kinds of places, or in the hand of the running step. The
slabs that are not used up are each on the partial list of their own cache, or about to be released
by a CPU. `Inv.of_lists` covers every function that only moves objects between lists; the functions
that count a slab's objects have a lemma of their own.
-/

namespace EbbRT

namespace Slab

open EbbRT.Lib

/-! ## The invariant -/

/-- The slabs that the frames will release.
Source: `sys/slab_allocator.cpp` `SlabCache::FlushFreeList`
Kind: D -/
def releasing : List Frame → List ℕ
  | [] => []
  | .release pfn :: frames => pfn :: releasing frames
  | _ :: frames => releasing frames

/-- Where a slab that is not used up may be.
Source: `sys/slab_allocator.cpp` `SlabCache::FlushFreeList`
Kind: D -/
inductive SlabPlace where
  | partialPages (c : CacheId)
  | releasing (k : ℕ)
  deriving DecidableEq, Repr

namespace State

variable (root : SlabAllocatorRoot) (s : State)

/-- The places, and the hand of the running step.
Source: none: infrastructure
Kind: D -/
def withHand (hand : List ℕ) : Option Place → List ℕ
  | none => hand
  | some p => s.contents p

/-- The slabs in a place.
Source: `sys/slab_allocator.cpp` `SlabCache::FlushFreeList`
Kind: D -/
def slabs : SlabPlace → List ℕ
  | .partialPages c => (s.caches c).partialPageList
  | .releasing k => releasing (s.cpus k).stack

/-- The objects of the blocks that the root holds.
Source: `sys/slab_allocator.cpp` `SlabCache::AddSlab`
Kind: D -/
def liveObjects : Set ℕ := {o | ∃ b ∈ s.blocks, o ∈ root.objects b}

/-- The slabs that are not used up.
Source: `sys/slab_allocator.cpp` `SlabCache::Alloc`
Kind: D -/
def freeSlabs : Set ℕ := {b | b ∈ s.blocks ∧ (s.data b).used < root.numObjectsPerSlab}

end State

/-- What holds between the steps, and inside a step that has `hand` in its hand.
Source: `sys/slab_allocator.cpp` `SlabCache`, `SlabAllocator`
Kind: D -/
structure Inv (root : SlabAllocatorRoot) (hand : List ℕ) (s : State) : Prop where
  /-- The objects are conserved. -/
  objects : Placed (s.withHand hand) (s.liveObjects root)
  /-- The slabs that are not used up are conserved. -/
  slabs : Placed s.slabs (s.freeSlabs root)
  /-- A page's list has objects of that page's slab. -/
  own : ∀ pfn, ∀ o ∈ (s.data pfn).list, addrToSlabPfn o root.order = pfn
  /-- A block is aligned and in memory. -/
  block : ∀ b ∈ s.blocks, IsBlock root.order b
  /-- No block is held twice. -/
  nodup : s.blocks.Nodup
  /-- The counter of a slab. -/
  count : ∀ b ∈ s.blocks, (s.data b).used + (s.data b).list.length = root.numObjectsPerSlab
  /-- A partial list has slabs of its own cache. -/
  home : ∀ c, ∀ b ∈ (s.caches c).partialPageList, (s.data b).cache = c
  /-- A slab is released when all of its objects are back. -/
  unused : ∀ k, ∀ b ∈ releasing (s.cpus k).stack, (s.data b).used = 0

/-- What the data of a slab may become: objects have moved between its list and the hand, and its counter
is in step. No CPU is about to release the slab.
Source: `sys/slab_allocator.cpp` `SlabCache::FlushFreeList`, `SlabCache::Alloc`
Kind: D -/
structure Balanced (root : SlabAllocatorRoot) (hand hand' : List ℕ) (s : State) (b : ℕ) (d : SlabData) :
    Prop where
  mem : b ∈ s.blocks
  idle : ∀ k, b ∉ releasing (s.cpus k).stack
  cache : d.cache = (s.data b).cache
  perm : (hand' ++ d.list).Perm (hand ++ (s.data b).list)
  own : ∀ o ∈ d.list, addrToSlabPfn o root.order = b
  count : d.used + d.list.length = root.numObjectsPerSlab

/-- Source: `sys/slab_allocator.cpp` `SlabAllocator::FlushRemoteList`
Kind: L -/
theorem perm_spliceAfterBegin (list moved : List ℕ) :
    (spliceAfterBegin list moved).Perm (moved ++ list) := by
  cases list with
  | nil => rw [List.append_nil, spliceAfterBegin]
  | cons o os => exact List.perm_middle.symm

/-- Source: `sys/slab_allocator.cpp` `SlabCache::ClaimRemoteFreeList`
Kind: L -/
theorem perm_spliceAfterEnd (list moved : List ℕ) :
    (spliceAfterEnd list moved).Perm (list ++ moved) := by
  cases list with
  | nil => exact List.Perm.refl _
  | cons o os => exact List.perm_append_comm

/-- Out of the hand, onto a list. Source: none: infrastructure. Kind: L -/
theorem perm_hand_cons (o : ℕ) (list : List ℕ) : ([] ++ o :: list).Perm ([o] ++ list) := List.Perm.refl _

/-- What the loop of `AddSlab` writes: the objects are pushed one after another on the first
frame's list, and every frame in which one starts gets the cache.
Source: `sys/slab_allocator.cpp` `SlabCache::AddSlab`
Kind: L -/
theorem foldl_addObject (c : CacheId) (pfn : ℕ) (os : List ℕ) (data : ℕ → SlabData) (q : ℕ) :
    os.foldl (addObject c pfn) data q =
      { list := if q = pfn then os.reverse ++ (data q).list else (data q).list
        cache := if q ∈ os.map pfnDown then c else (data q).cache
        used := (data q).used } := by
  induction os generalizing data with
  | nil =>
      rw [List.foldl_nil, List.reverse_nil, List.nil_append, ite_self, List.map_nil,
        if_neg List.not_mem_nil]
  | cons o os ih =>
      rw [List.foldl_cons, ih (addObject c pfn data o)]
      have hone : addObject c pfn data o q =
          { list := if q = pfn then o :: (data q).list else (data q).list
            cache := if q = pfnDown o then c else (data q).cache
            used := (data q).used } := by
        rw [addObject]
        by_cases hq : q = pfnDown o
        · subst hq
          rw [Function.update_self, if_pos rfl]
          by_cases hp : pfnDown o = pfn
          · rw [← hp, Function.update_self, if_pos rfl]
          · rw [Function.update_of_ne hp, if_neg hp]
        · rw [Function.update_of_ne hq, if_neg hq]
          by_cases hp : q = pfn
          · subst hp
            rw [Function.update_self, if_pos rfl]
          · rw [Function.update_of_ne hp, if_neg hp]
      simp only [hone, List.map_cons, List.reverse_cons, List.mem_cons]
      congr 1
      · by_cases hp : q = pfn
        · simp only [if_pos hp, List.append_assoc, List.singleton_append]
        · simp only [if_neg hp]
      · by_cases hos : q ∈ os.map pfnDown
        · simp only [if_pos hos, if_pos (Or.inr hos)]
        · simp only [if_neg hos, or_iff_left hos]

/-- **What `AddSlab` writes**: the objects are on the list of the first page, none is used, and the pages
in which one starts have the cache.
Source: `sys/slab_allocator.cpp` `SlabCache::AddSlab`
Kind: P -/
theorem addSlab_data (root : SlabAllocatorRoot) (c : CacheId) (b : ℕ) (s : State) (q : ℕ) :
    (addSlab root c b s).data q =
      { list := if q = b then (root.objects b).reverse else (s.data q).list
        cache := if q ∈ (root.objects b).map pfnDown then c else (s.data q).cache
        used := if q = b then 0 else (s.data q).used } := by
  show (root.objects b).foldl (addObject c b)
    (Function.update s.data b { s.data b with list := [], used := 0 }) q = _
  rw [foldl_addObject]
  by_cases hq : q = b
  · subst hq
    rw [Function.update_self, if_pos rfl, if_pos rfl, if_pos rfl, List.append_nil]
  · rw [Function.update_of_ne hq, if_neg hq, if_neg hq, if_neg hq]

namespace Inv

variable {root : SlabAllocatorRoot} {hand hand' : List ℕ} {s s' : State} {c : CacheId} {k o b : ℕ}

/-- Before the first call. Source: `sys/slab_allocator.cpp` `SlabCache::SlabCache`. Kind: L -/
theorem init (boot : ℕ → SlabData) : Inv root [] (State.init boot) := by
  have hnil : ∀ p, (State.init boot).withHand [] p = [] := by
    intro p
    rcases p with _ | p
    · rfl
    · cases p <;> rfl
  have hslab : ∀ p, (State.init boot).slabs p = [] := by
    intro p
    cases p <;> rfl
  refine ⟨⟨fun p => ?_, fun p q a ha => ?_, fun a => ?_⟩, ⟨fun p => ?_, fun p q a ha => ?_, fun a => ?_⟩,
    fun pfn o ho => ?_, fun b hb => ?_, List.nodup_nil, fun b hb => ?_, fun c b hb => ?_,
    fun k b hb => ?_⟩
  · rw [hnil p]
    exact List.nodup_nil
  · rw [hnil p] at ha
    cases ha
  · simp only [hnil, List.not_mem_nil, exists_false, iff_false]
    rintro ⟨b, hb, _⟩
    cases hb
  · rw [hslab p]
    exact List.nodup_nil
  · rw [hslab p] at ha
    cases ha
  · simp only [hslab, List.not_mem_nil, exists_false, iff_false]
    rintro ⟨hb, _⟩
    cases hb
  all_goals contradiction

/-! ## What it says about one object and one slab -/

/-- An object in a place is an object of the slab that masking finds.
Source: `sys/slab_allocator.cpp` `addr_to_slab_pfn`
Kind: L -/
theorem slab_of_mem (h : Inv root hand s) {p : Option Place} (ho : o ∈ s.withHand hand p) :
    addrToSlabPfn o root.order ∈ s.blocks ∧ o ∈ root.objects (addrToSlabPfn o root.order) := by
  obtain ⟨b, hb, hob⟩ := h.objects.mem ho
  rw [root.addrToSlabPfn_of_mem (h.block b hb) hob]
  exact ⟨hb, hob⟩

/-- A page's list is made of objects of its slab, and no object is on it twice.
Source: `sys/slab_allocator.cpp` `SlabCache::AddSlab`
Kind: L -/
theorem list_subperm (h : Inv root hand s) (b : ℕ) : (s.data b).list.Subperm (root.objects b) := by
  refine (h.objects.nodup (some (.page b))).subperm fun o ho => ?_
  have := (h.slab_of_mem (show o ∈ s.withHand hand (some (.page b)) from ho)).2
  rwa [h.own b o ho] at this

/-- A page that heads no block has no objects on its list.
Source: `sys/slab_allocator.cpp` `SlabCache::FlushFreeList`
Kind: L -/
theorem list_eq_nil (h : Inv root hand s) (hb : b ∉ s.blocks) : (s.data b).list = [] := by
  refine List.eq_nil_iff_forall_not_mem.mpr fun o ho => hb ?_
  have := (h.slab_of_mem (show o ∈ s.withHand hand (some (.page b)) from ho)).1
  rwa [h.own b o ho] at this

/-- **A slab without used objects has all of them on its list.**
Source: `sys/slab_allocator.cpp` `SlabCache::FlushFreeList`
Kind: P -/
theorem list_perm (h : Inv root hand s) (hb : b ∈ s.blocks) (hused : (s.data b).used = 0) :
    (s.data b).list.Perm (root.objects b) := by
  refine (h.list_subperm b).perm_of_length_le ?_
  have := h.count b hb
  rw [root.length_objects]
  omega

/-- An object that is not on its slab's list is a used one.
Source: `sys/slab_allocator.cpp` `SlabCache::FlushFreeList`
Kind: L -/
theorem used_pos (h : Inv root hand s) {p : Option Place} (ho : o ∈ s.withHand hand p)
    (hp : p ≠ some (.page (addrToSlabPfn o root.order))) :
    0 < (s.data (addrToSlabPfn o root.order)).used := by
  obtain ⟨hb, hob⟩ := h.slab_of_mem ho
  refine Nat.pos_of_ne_zero fun hused => hp ?_
  have hmem : o ∈ (s.data (addrToSlabPfn o root.order)).list := (h.list_perm hb hused).mem_iff.mpr hob
  exact h.objects.unique p (some (.page (addrToSlabPfn o root.order))) o ho hmem

/-- A slab on a partial list. Source: `sys/slab_allocator.cpp` `SlabCache::Alloc`. Kind: L -/
theorem of_mem_partialPages (h : Inv root hand s) (hb : b ∈ (s.caches c).partialPageList) :
    b ∈ s.blocks ∧ (s.data b).used < root.numObjectsPerSlab ∧ (s.data b).cache = c := by
  obtain ⟨h1, h2⟩ := h.slabs.mem (show b ∈ s.slabs (.partialPages c) from hb)
  exact ⟨h1, h2, h.home c b hb⟩

/-- A slab that is about to be released.
Source: `sys/slab_allocator.cpp` `SlabCache::FlushFreeList`
Kind: L -/
theorem of_mem_releasing (h : Inv root hand s) (hb : b ∈ releasing (s.cpus k).stack) :
    b ∈ s.blocks ∧ (s.data b).used = 0 ∧ ∀ c, b ∉ (s.caches c).partialPageList := by
  refine ⟨(h.slabs.mem (show b ∈ s.slabs (.releasing k) from hb)).1, h.unused k b hb, fun c hc => ?_⟩
  cases h.slabs.unique (.partialPages c) (.releasing k) b hc hb

/-! ## Functions that only move objects between lists -/

/-- **Moving objects**: pages, blocks and partial lists are as before, no frame that releases a slab
is gained or lost, and the objects are conserved.
Source: `sys/slab_allocator.cpp` `SlabAllocator`
Kind: P -/
theorem of_lists (h : Inv root hand s) (hdata : ∀ b, (s'.data b).used = (s.data b).used ∧
      (s'.data b).cache = (s.data b).cache ∧ (s'.data b).list = (s.data b).list)
    (hblocks : s'.blocks = s.blocks)
    (hpart : ∀ c, (s'.caches c).partialPageList = (s.caches c).partialPageList)
    (hrel : ∀ k, releasing (s'.cpus k).stack = releasing (s.cpus k).stack)
    (hobj : Placed (s'.withHand hand') (s.liveObjects root)) : Inv root hand' s' := by
  have hslabs : ∀ p, s'.slabs p = s.slabs p := by
    intro p
    cases p
    · exact hpart _
    · exact hrel _
  refine ⟨?_, ?_, ?_, ?_, ?_, ?_, ?_, ?_⟩
  · rw [State.liveObjects, hblocks]
    exact hobj
  · have hfree : s'.freeSlabs root = s.freeSlabs root := by
      ext b
      simp only [State.freeSlabs, Set.mem_ofPred_eq, hblocks, (hdata b).1]
    rw [hfree]
    exact h.slabs.congr fun p => hslabs p ▸ List.Perm.refl _
  · intro pfn o ho
    rw [(hdata pfn).2.2] at ho
    exact h.own pfn o ho
  · rw [hblocks]
    exact h.block
  · rw [hblocks]
    exact h.nodup
  · intro b hb
    rw [hblocks] at hb
    rw [(hdata b).1, (hdata b).2.2]
    exact h.count b hb
  · intro c b hb
    rw [hpart c] at hb
    rw [(hdata b).2.1]
    exact h.home c b hb
  · intro k b hb
    rw [hrel k] at hb
    rw [(hdata b).1]
    exact h.unused k b hb

/-- The frames change, and none that releases a slab.
Source: none: infrastructure
Kind: L -/
theorem setCpu (h : Inv root hand s) {v : SlabAllocator}
    (hlist : v.remoteList = (s.cpus k).remoteList)
    (hrel : releasing v.stack = releasing (s.cpus k).stack) : Inv root hand (s.setCpu k v) := by
  have hcpu : ∀ k', ((s.setCpu k v).cpus k').remoteList = (s.cpus k').remoteList ∧
      releasing ((s.setCpu k v).cpus k').stack = releasing (s.cpus k').stack := by
    intro k'
    by_cases hk : k' = k
    · subst hk
      rw [State.setCpu_cpus, Function.update_self]
      exact ⟨hlist, hrel⟩
    · rw [State.setCpu_cpus, Function.update_of_ne hk]
      exact ⟨rfl, rfl⟩
  refine h.of_lists (fun b => ⟨rfl, rfl, rfl⟩) rfl (fun c => rfl) (fun k' => (hcpu k').2)
    (h.objects.congr fun p => ?_)
  rcases p with _ | _ | c | k' | c | b
  case some.remoteList => exact List.Perm.of_eq (hcpu k').1
  all_goals exact List.Perm.refl _

/-- The frames of a CPU change, and none that releases a slab.
Source: none: infrastructure
Kind: L -/
theorem setStack (h : Inv root hand s) {frames : List Frame}
    (hrel : releasing frames = releasing (s.cpus k).stack) : Inv root hand (s.setStack k frames) :=
  h.setCpu rfl hrel

/-- A cache changes, its partial list and `remote_.list` aside, and objects move between its
`object_list_` and the hand.
Source: `sys/slab_allocator.cpp` `SlabCache::Alloc`, `SlabCache::Free`
Kind: L -/
theorem setObjectList (h : Inv root hand s) {v : SlabCache}
    (hpart : v.partialPageList = (s.caches c).partialPageList)
    (hremote : v.remote = (s.caches c).remote)
    (hperm : (hand' ++ v.objectList).Perm (hand ++ (s.caches c).objectList)) :
    Inv root hand' (s.setCache c v) := by
  have hcache : ∀ c', ((s.setCache c v).caches c').partialPageList = (s.caches c').partialPageList ∧
      ((s.setCache c v).caches c').remote = (s.caches c').remote ∧
      (c' ≠ c → ((s.setCache c v).caches c').objectList = (s.caches c').objectList) := by
    intro c'
    by_cases hc : c' = c
    · subst hc
      rw [State.setCache_caches, Function.update_self]
      exact ⟨hpart, hremote, fun hne => absurd rfl hne⟩
    · rw [State.setCache_caches, Function.update_of_ne hc]
      exact ⟨rfl, rfl, fun _ => rfl⟩
  refine h.of_lists (fun b => ⟨rfl, rfl, rfl⟩) rfl (fun c' => (hcache c').1) (fun k => rfl)
    (h.objects.move (p := none) (q := some (.objectList c)) nofun ?_ ?_)
  · simpa only [State.withHand, State.contents, State.setCache_caches, Function.update_self] using hperm
  · rintro (_ | _ | c' | k | c' | b) hp hq
    case some.objectList => exact List.Perm.of_eq ((hcache c').2.2 fun hc => hq (by rw [hc]))
    case some.remote => exact List.Perm.of_eq (hcache c').2.1
    case none => exact absurd rfl hp
    all_goals exact List.Perm.refl _

/-- The first object of an `object_list_` is popped.
Source: `sys/slab_allocator.cpp` `SlabCache::Alloc`, `SlabCache::FlushFreeList`
Kind: L -/
theorem pop (h : Inv root [] s) {list : List ℕ} (hlist : (s.caches c).objectList = o :: list) :
    Inv root [o] (s.setCache c { s.caches c with objectList := list }) := by
  refine h.setObjectList ?_ ?_ ?_
  · rfl
  · rfl
  · rw [hlist]
    exact List.Perm.refl _

/-- Objects move between a CPU's `remote_list_` and the hand.
Source: `sys/slab_allocator.cpp` `SlabAllocator::FreeRemote`
Kind: L -/
theorem setRemoteList (h : Inv root hand s) {v : SlabAllocator}
    (hrel : releasing v.stack = releasing (s.cpus k).stack)
    (hperm : (hand' ++ v.remoteList).Perm (hand ++ (s.cpus k).remoteList)) :
    Inv root hand' (s.setCpu k v) := by
  have hcpu : ∀ k', releasing ((s.setCpu k v).cpus k').stack = releasing (s.cpus k').stack ∧
      (k' ≠ k → ((s.setCpu k v).cpus k').remoteList = (s.cpus k').remoteList) := by
    intro k'
    by_cases hk : k' = k
    · subst hk
      rw [State.setCpu_cpus, Function.update_self]
      exact ⟨hrel, fun hne => absurd rfl hne⟩
    · rw [State.setCpu_cpus, Function.update_of_ne hk]
      exact ⟨rfl, fun _ => rfl⟩
  refine h.of_lists (fun b => ⟨rfl, rfl, rfl⟩) rfl (fun c => rfl) (fun k' => (hcpu k').1)
    (h.objects.move (p := none) (q := some (.remoteList k)) nofun ?_ ?_)
  · simpa only [State.withHand, State.contents, State.setCpu_cpus, Function.update_self] using hperm
  · rintro (_ | _ | c | k' | c | b) hp hq
    case some.remoteList => exact List.Perm.of_eq ((hcpu k').2 fun hk => hq (by rw [hk]))
    case none => exact absurd rfl hp
    all_goals exact List.Perm.refl _

/-- Objects move between the client and the hand.
Source: `sys/slab_allocator.cpp` `SlabAllocator::Alloc`, `SlabAllocator::Free`
Kind: L -/
theorem setHeld (h : Inv root hand s) {held : List ℕ}
    (hperm : (hand' ++ held).Perm (hand ++ s.held)) : Inv root hand' { s with held := held } := by
  refine h.of_lists (fun b => ⟨rfl, rfl, rfl⟩) rfl (fun c => rfl) (fun k => rfl)
    (h.objects.move (p := none) (q := some .held) nofun hperm ?_)
  rintro (_ | _ | c | k | c | b) hp hq
  case none => exact absurd rfl hp
  case some.held => exact absurd rfl hq
  all_goals exact List.Perm.refl _

/-- **Flushing the remote list** moves it to `remote_.list` of the cache it was collected for.
Source: `sys/slab_allocator.cpp` `SlabAllocator::FlushRemoteList`
Kind: L -/
theorem flushRemoteList (h : Inv root hand s) : Inv root hand (flushRemoteList root k s) := by
  rw [Slab.flushRemoteList]
  split
  · exact h
  rename_i c _
  have hcache : ∀ c', (Function.update s.caches c
        ((s.caches c).receive root (s.cpus k).remoteList) c').partialPageList =
          (s.caches c').partialPageList ∧
      (Function.update s.caches c
        ((s.caches c).receive root (s.cpus k).remoteList) c').objectList =
          (s.caches c').objectList := by
    intro c'
    by_cases hc : c' = c
    · subst hc
      rw [Function.update_self]
      exact ⟨rfl, rfl⟩
    · rw [Function.update_of_ne hc]
      exact ⟨rfl, rfl⟩
  refine h.of_lists (fun b => ⟨rfl, rfl, rfl⟩) rfl (fun c' => (hcache c').1) (fun k' => ?_)
    (h.objects.move (p := some (.remoteList k)) (q := some (.remote c)) nofun ?_ ?_)
  · by_cases hk : k' = k
    · subst hk
      rw [State.setCpu_cpus, Function.update_self]
    · rw [State.setCpu_cpus, Function.update_of_ne hk]
      rfl
  · simpa only [State.withHand, State.contents, State.setCpu_cpus, State.setCpu_caches,
      State.setCache_caches, Function.update_self, List.nil_append, SlabCache.receive_remote]
      using perm_spliceAfterBegin _ _
  · rintro (_ | _ | c' | k' | c' | b) hp hq
    case some.objectList => exact List.Perm.of_eq (hcache c').2
    case some.remoteList =>
      refine List.Perm.of_eq (congrArg SlabAllocator.remoteList ?_)
      exact Function.update_of_ne (fun hk => hp (by rw [hk])) _ _
    case some.remote =>
      refine List.Perm.of_eq (congrArg SlabCache.remote ?_)
      exact Function.update_of_ne (fun hc => hq (by rw [hc])) _ _
    all_goals exact List.Perm.refl _

/-- Source: `sys/slab_allocator.cpp` `SlabCache::ClaimRemoteFreeList`
Kind: L -/
theorem claimRemoteFreeList (h : Inv root hand s) : Inv root hand (claimRemoteFreeList c s) := by
  have hother : ∀ c', c' ≠ c → (Slab.claimRemoteFreeList c s).caches c' = s.caches c' :=
    fun c' hc => Function.update_of_ne hc _ _
  refine h.of_lists (fun b => ⟨rfl, rfl, rfl⟩) rfl (fun c' => ?_) (fun k => rfl)
    (h.objects.move (p := some (.objectList c)) (q := some (.remote c)) nofun ?_ ?_)
  · by_cases hc : c' = c
    · subst hc
      rw [Slab.claimRemoteFreeList, State.setCache_caches, Function.update_self]
    · rw [hother c' hc]
  · simpa only [State.withHand, State.contents, Slab.claimRemoteFreeList, State.setCache_caches,
      Function.update_self, List.append_nil] using perm_spliceAfterEnd _ _
  · rintro (_ | _ | c' | k' | c' | b) hp hq
    case some.objectList =>
      exact List.Perm.of_eq (congrArg SlabCache.objectList (hother c' fun hc => hp (by rw [hc])))
    case some.remote =>
      exact List.Perm.of_eq (congrArg SlabCache.remote (hother c' fun hc => hq (by rw [hc])))
    all_goals exact List.Perm.refl _

/-- Source: `sys/slab_allocator.cpp` `SlabAllocator::FreeRemote`
Kind: L -/
theorem turnTo (h : Inv root hand s) : Inv root hand (turnTo root k c s) := by
  rw [Slab.turnTo]
  split
  · exact (h.flushRemoteList).setCpu rfl rfl
  · exact h

/-- The object in the hand goes to the CPU's `remote_list_`.
Source: `sys/slab_allocator.cpp` `SlabAllocator::FreeRemote`
Kind: L -/
theorem freeRemote (h : Inv root [o] s) : Inv root [] (freeRemote root k o s) := by
  have h' : Inv root [o] (Slab.turnTo root k (s.data (pfnDown o)).cache s) := h.turnTo
  rw [Slab.freeRemote]
  simp only
  have hput := h'.setRemoteList (k := k) (v := { (Slab.turnTo root k
    (s.data (pfnDown o)).cache s).cpus k with remoteList := o :: ((Slab.turnTo root k
    (s.data (pfnDown o)).cache s).cpus k).remoteList }) rfl (perm_hand_cons o _)
  split
  · exact hput.setStack rfl
  · exact hput

/-- The object in the hand goes to the cache's `object_list_`.
Source: `sys/slab_allocator.cpp` `SlabCache::Free`
Kind: L -/
theorem cacheFree (h : Inv root [o] s) : Inv root [] (cacheFree root k c o s) := by
  rw [Slab.cacheFree]
  simp only
  have hput := h.setObjectList (c := c) (v := { s.caches c with
    objectList := o :: (s.caches c).objectList }) rfl rfl (perm_hand_cons o _)
  split
  · exact hput.setStack rfl
  · exact hput

/-! ## Functions that count the objects of a slab -/

/-- **One slab changes**: objects move between its list and the hand with its counter in step, the
other lists of objects are as before, and the slabs that are not used up are conserved.
Source: `sys/slab_allocator.cpp` `SlabCache::FlushFreeList`, `SlabCache::Alloc`
Kind: P -/
theorem of_slab (h : Inv root hand s) {d : SlabData} (hd : Balanced root hand hand' s b d)
    (hdata : s'.data = Function.update s.data b d) (hblocks : s'.blocks = s.blocks)
    (hheld : s'.held = s.held)
    (hcaches : ∀ c, (s'.caches c).objectList = (s.caches c).objectList ∧
      (s'.caches c).remote = (s.caches c).remote)
    (hcpus : ∀ k, (s'.cpus k).remoteList = (s.cpus k).remoteList)
    (hslabs : Placed s'.slabs (s'.freeSlabs root))
    (hhome : ∀ c, ∀ b' ∈ (s'.caches c).partialPageList, (s.data b').cache = c)
    (hunused : ∀ k, ∀ b' ∈ releasing (s'.cpus k).stack, (s'.data b').used = 0) :
    Inv root hand' s' := by
  have hself : s'.data b = d := by rw [hdata, Function.update_self]
  have hother : ∀ b', b' ≠ b → s'.data b' = s.data b' := fun b' hne => by
    rw [hdata, Function.update_of_ne hne]
  refine ⟨?_, hslabs, ?_, ?_, ?_, ?_, ?_, hunused⟩
  · rw [State.liveObjects, hblocks]
    refine h.objects.move (p := none) (q := some (.page b)) nofun ?_ ?_
    · simpa only [State.withHand, State.contents, hself] using hd.perm
    · rintro (_ | _ | c | k | c | b') hp hq
      case none => exact absurd rfl hp
      case some.held => exact List.Perm.of_eq hheld
      case some.objectList => exact List.Perm.of_eq (hcaches c).1
      case some.remoteList => exact List.Perm.of_eq (hcpus k)
      case some.remote => exact List.Perm.of_eq (hcaches c).2
      case some.page =>
        exact List.Perm.of_eq (congrArg SlabData.list (hother b' fun hne => hq (by rw [hne])))
  · intro b' o ho
    by_cases hne : b' = b
    · subst hne
      rw [hself] at ho
      exact hd.own o ho
    · rw [hother b' hne] at ho
      exact h.own b' o ho
  · rw [hblocks]
    exact h.block
  · rw [hblocks]
    exact h.nodup
  · intro b' hb'
    by_cases hne : b' = b
    · subst hne
      rw [hself]
      exact hd.count
    · rw [hother b' hne]
      exact h.count b' (hblocks ▸ hb')
  · intro c b' hb'
    rw [← hhome c b' hb']
    by_cases hne : b' = b
    · subst hne
      rw [hself, hd.cache]
    · rw [hother b' hne]

/-- A slab that gets an object back is not used up, or no longer.
Source: `sys/slab_allocator.cpp` `SlabCache::FlushFreeList`
Kind: L -/
theorem freeSlabs_of_lt {d : SlabData} (hb : b ∈ s.blocks)
    (hdata : s'.data = Function.update s.data b d) (hblocks : s'.blocks = s.blocks)
    (hlt : d.used < root.numObjectsPerSlab) :
    s'.freeSlabs root = s.freeSlabs root ∪ {a | a ∈ [b]} := by
  ext a
  simp only [State.freeSlabs, Set.mem_union, Set.mem_ofPred_eq, List.mem_singleton, hblocks, hdata]
  by_cases ha : a = b
  · subst ha
    simp only [hb, Function.update_self, hlt, and_self, or_true]
  · simp only [Function.update_of_ne ha, ha, or_false]

/-- A slab that hands out its last object is used up.
Source: `sys/slab_allocator.cpp` `SlabCache::Alloc`
Kind: L -/
theorem freeSlabs_of_eq {d : SlabData} (hdata : s'.data = Function.update s.data b d)
    (hblocks : s'.blocks = s.blocks) (heq : d.used = root.numObjectsPerSlab) :
    s'.freeSlabs root = {a | a ∈ s.freeSlabs root ∧ a ∉ [b]} := by
  ext a
  simp only [State.freeSlabs, Set.mem_ofPred_eq, List.mem_singleton, hblocks, hdata]
  by_cases ha : a = b
  · subst ha
    simp only [Function.update_self, heq, lt_irrefl, and_false, not_true_eq_false]
  · simp only [Function.update_of_ne ha, ha, not_false_eq_true, and_true]

/-- The slabs when one slab that is not used up stays so.
Source: `sys/slab_allocator.cpp` `SlabCache::FlushFreeList`
Kind: L -/
theorem freeSlabs_of_mem {d : SlabData} (hdata : s'.data = Function.update s.data b d)
    (hblocks : s'.blocks = s.blocks) (hlt : d.used < root.numObjectsPerSlab)
    (hb : b ∈ s.freeSlabs root) : s'.freeSlabs root = s.freeSlabs root := by
  rw [freeSlabs_of_lt hb.1 hdata hblocks hlt]
  ext a
  simp only [Set.mem_union, Set.mem_ofPred_eq, List.mem_singleton, or_iff_left_iff_imp]
  rintro rfl
  exact hb

/-- A slab that is used but not used up is on the partial list of its cache.
Source: `sys/slab_allocator.cpp` `SlabCache::FlushFreeList`
Kind: L -/
theorem mem_partialPages (h : Inv root hand s) (hb : b ∈ s.blocks) (hpos : 0 < (s.data b).used)
    (hlt : (s.data b).used < root.numObjectsPerSlab) :
    b ∈ (s.caches (s.data b).cache).partialPageList := by
  obtain ⟨p, hp⟩ := (h.slabs.cover b).mp ⟨hb, hlt⟩
  cases p with
  | partialPages c =>
      have := h.home c b hp
      rw [this]
      exact hp
  | releasing k =>
      have := h.unused k b hp
      omega

/-- Source: none: infrastructure. Kind: L -/
theorem push_remoteList (s : State) (k : ℕ) (frame : Frame) (k' : ℕ) :
    ((s.push k frame).cpus k').remoteList = (s.cpus k').remoteList := by
  rw [State.push_cpus]
  by_cases hk : k' = k
  · subst hk
    rw [Function.update_self]
  · rw [Function.update_of_ne hk]

/-- Source: none: infrastructure. Kind: L -/
theorem setPartial_lists (s : State) (c : CacheId) (pages : List ℕ) (c' : CacheId) :
    ((s.setCache c { s.caches c with partialPageList := pages }).caches c').objectList =
        (s.caches c').objectList ∧
      ((s.setCache c { s.caches c with partialPageList := pages }).caches c').remote =
        (s.caches c').remote := by
  rw [State.setCache_caches]
  by_cases hc : c' = c
  · subst hc
    rw [Function.update_self]
    exact ⟨rfl, rfl⟩
  · rw [Function.update_of_ne hc]
    exact ⟨rfl, rfl⟩

/-- A place other than a cache's partial list. Source: none: infrastructure. Kind: L -/
theorem slabs_setPartial (s : State) (c : CacheId) (pages : List ℕ) {p : SlabPlace}
    (hp : p ≠ .partialPages c) :
    (s.setCache c { s.caches c with partialPageList := pages }).slabs p = s.slabs p := by
  cases p with
  | partialPages c' =>
      exact congrArg SlabCache.partialPageList (Function.update_of_ne (fun hc => hp (by rw [hc])) _ _)
  | releasing k => rfl

/-- A place other than what a CPU is about to release. Source: none: infrastructure. Kind: L -/
theorem slabs_push (s : State) (k : ℕ) (frame : Frame) {p : SlabPlace} (hp : p ≠ .releasing k) :
    (s.push k frame).slabs p = s.slabs p := by
  cases p with
  | partialPages c => rfl
  | releasing k' =>
      exact congrArg (fun v => releasing (SlabAllocator.stack v))
        (Function.update_of_ne (fun hk => hp (by rw [hk])) _ _)

/-- A partial list changes, and has slabs of its own cache.
Source: `sys/slab_allocator.cpp` `SlabCache::FlushFreeList`, `SlabCache::Alloc`
Kind: L -/
theorem home_setPartial (h : Inv root hand s) {pages : List ℕ} (hpages : ∀ b' ∈ pages, (s.data b').cache = c) :
    ∀ c', ∀ b' ∈ ((s.setCache c { s.caches c with partialPageList := pages }).caches c').partialPageList,
      (s.data b').cache = c' := by
  intro c' b' hb'
  rw [State.setCache_caches] at hb'
  by_cases hc : c' = c
  · subst hc
    rw [Function.update_self] at hb'
    exact hpages b' hb'
  · rw [Function.update_of_ne hc] at hb'
    exact h.home c' b' hb'

/-- The slabs that are about to be released are not touched.
Source: `sys/slab_allocator.cpp` `SlabCache::FlushFreeList`
Kind: L -/
theorem unused_update {d : SlabData} (h : Inv root hand s) (hd : Balanced root hand hand' s b d) :
    ∀ k, ∀ b' ∈ releasing (s.cpus k).stack, (Function.update s.data b d b').used = 0 := by
  intro k b' hb'
  rw [Function.update_of_ne (fun hne : b' = b => hd.idle k (hne ▸ hb'))]
  exact h.unused k b' hb'

/-- A slab without used objects may be among them. Source: `sys/slab_allocator.cpp` `SlabCache::FlushFreeList`.
Kind: L -/
theorem unused_push {d : SlabData} (h : Inv root hand s) (hd : Balanced root hand hand' s b d)
    (hused : d.used = 0) (k : ℕ) :
    ∀ k', ∀ b' ∈ releasing ((s.push k (.release b)).cpus k').stack,
      (Function.update s.data b d b').used = 0 := by
  intro k' b' hb'
  rw [State.push_cpus] at hb'
  by_cases hk : k' = k
  · subst hk
    rw [Function.update_self] at hb'
    rcases List.mem_cons.mp hb' with rfl | hb'
    · rw [Function.update_self, hused]
    · exact h.unused_update hd k' b' hb'
  · rw [Function.update_of_ne hk] at hb'
    exact h.unused_update hd k' b' hb'

/-- The slab was not used up and is not now. Source: `sys/slab_allocator.cpp` `SlabCache::FlushFreeList`.
Kind: L -/
theorem keepSlab {d : SlabData} (h : Inv root hand s) (hd : Balanced root hand hand' s b d)
    (hlt : d.used < root.numObjectsPerSlab) (hfree : b ∈ s.freeSlabs root) :
    Inv root hand' (s.setData b d) := by
  have hslabs : (s.setData b d).freeSlabs root = s.freeSlabs root :=
    freeSlabs_of_mem (d := d) rfl rfl hlt hfree
  refine h.of_slab hd rfl rfl rfl (fun c => ⟨rfl, rfl⟩) (fun k => rfl) ?_ h.home (h.unused_update hd)
  rw [hslabs]
  exact h.slabs.congr fun p => by cases p <;> exact List.Perm.refl _

/-- The slab was used up; it goes on the partial list.
Source: `sys/slab_allocator.cpp` `SlabCache::FlushFreeList`
Kind: L -/
theorem refillSlab {d : SlabData} (h : Inv root hand s) (hd : Balanced root hand hand' s b d)
    (hlt : d.used < root.numObjectsPerSlab) (hfree : b ∉ s.freeSlabs root) (hcache : (s.data b).cache = c) :
    Inv root hand' ((s.setData b d).setCache c
      { s.caches c with partialPageList := b :: (s.caches c).partialPageList }) := by
  have hslabs : ((s.setData b d).setCache c { s.caches c with
      partialPageList := b :: (s.caches c).partialPageList }).freeSlabs root =
        s.freeSlabs root ∪ {a | a ∈ [b]} := freeSlabs_of_lt (d := d) hd.mem rfl rfl hlt
  refine h.of_slab hd rfl rfl rfl (setPartial_lists _ _ _) (fun k => rfl) ?_
    (h.home_setPartial (List.forall_mem_cons.mpr ⟨hcache, h.home c⟩)) (h.unused_update hd)
  refine (congrArg _ hslabs).mpr ?_
  refine h.slabs.add (q := .partialPages c) (List.nodup_singleton b) ?_ ?_ fun p hp => ?_
  · intro a ha
    rwa [List.mem_singleton.mp ha]
  · rw [State.slabs, State.setCache_caches, Function.update_self]
    exact List.Perm.refl _
  · exact List.Perm.of_eq (slabs_setPartial s c _ hp)

/-- The slab was used up, and had one object: it is released without having been on the partial list.
Source: `sys/slab_allocator.cpp` `SlabCache::FlushFreeList`
Kind: L -/
theorem releaseSingle {d : SlabData} (h : Inv root hand s) (hd : Balanced root hand hand' s b d)
    (hused : d.used = 0) (hfree : b ∉ s.freeSlabs root) :
    Inv root hand' ((s.setData b d).push k (.release b)) := by
  have hlt : d.used < root.numObjectsPerSlab := hused ▸ root.numObjectsPerSlab_pos
  have hslabs : ((s.setData b d).push k (.release b)).freeSlabs root = s.freeSlabs root ∪ {a | a ∈ [b]} :=
    freeSlabs_of_lt (d := d) hd.mem rfl rfl hlt
  refine h.of_slab hd rfl rfl rfl (fun c => ⟨rfl, rfl⟩) (push_remoteList _ _ _) ?_ h.home
    (h.unused_push hd hused k)
  rw [hslabs]
  refine h.slabs.add (q := .releasing k) (List.nodup_singleton b) ?_ ?_ fun p hp => ?_
  · intro a ha
    rwa [List.mem_singleton.mp ha]
  · rw [State.slabs, State.push_cpus, Function.update_self]
    exact List.Perm.refl _
  · exact List.Perm.of_eq (slabs_push s k _ hp)

/-- The slab goes from the partial list to what the CPU is about to release.
Source: `sys/slab_allocator.cpp` `SlabCache::FlushFreeList`
Kind: L -/
theorem releasePartial {d : SlabData} (h : Inv root hand s) (hd : Balanced root hand hand' s b d)
    (hused : d.used = 0) (hmem : b ∈ (s.caches c).partialPageList) :
    Inv root hand' (((s.setData b d).setCache c
      { s.caches c with partialPageList := (s.caches c).partialPageList.erase b }).push k (.release b)) := by
  have hlt : d.used < root.numObjectsPerSlab := hused ▸ root.numObjectsPerSlab_pos
  have hslabs : (((s.setData b d).setCache c { s.caches c with
      partialPageList := (s.caches c).partialPageList.erase b }).push k (.release b)).freeSlabs root =
        s.freeSlabs root := by
    have hfree : b ∈ s.freeSlabs root := h.slabs.mem (show b ∈ s.slabs (.partialPages c) from hmem)
    exact freeSlabs_of_mem (d := d) rfl rfl hlt hfree
  refine h.of_slab hd rfl rfl rfl (setPartial_lists s c _) (push_remoteList s k _) ?_
    (h.home_setPartial fun b' hb' => h.home c b' (List.mem_of_mem_erase hb')) (h.unused_push hd hused k)
  refine (congrArg _ hslabs).mpr ?_
  refine h.slabs.move (p := .partialPages c) (q := .releasing k) nofun ?_ fun p hp hq => ?_
  · have hperm : ((s.caches c).partialPageList.erase b ++ b :: releasing (s.cpus k).stack).Perm
        ((s.caches c).partialPageList ++ releasing (s.cpus k).stack) :=
      List.perm_middle.trans ((List.perm_cons_erase hmem).symm.append_right _)
    simpa only [State.slabs, State.push_cpus, State.push_caches, State.setCache_cpus,
      State.setCache_caches, State.setData_cpus, State.setData_caches, Function.update_self,
      releasing] using hperm
  · exact List.Perm.of_eq ((slabs_push _ k _ hq).trans (slabs_setPartial s c _ hp))

/-- The slab hands out its last object, and is taken off the partial list.
Source: `sys/slab_allocator.cpp` `SlabCache::Alloc`
Kind: L -/
theorem useUpSlab {d : SlabData} (h : Inv root hand s) (hd : Balanced root hand hand' s b d)
    (hused : d.used = root.numObjectsPerSlab) {pages : List ℕ}
    (hpages : (s.caches c).partialPageList = b :: pages) :
    Inv root hand' ((s.setCache c { s.caches c with partialPageList := pages }).setData b d) := by
  have hslabs : ((s.setCache c { s.caches c with partialPageList := pages }).setData b d).freeSlabs root =
      {a | a ∈ s.freeSlabs root ∧ a ∉ [b]} := freeSlabs_of_eq (d := d) rfl rfl hused
  have hhome : ∀ b' ∈ pages, (s.data b').cache = c := by
    intro b' hb'
    exact h.home c b' (hpages ▸ List.mem_cons_of_mem b hb')
  refine h.of_slab hd rfl rfl rfl (setPartial_lists s c _) (fun k => rfl) ?_ (h.home_setPartial hhome)
    (h.unused_update hd)
  refine (congrArg _ hslabs).mpr ?_
  have hcons : (s.slabs (.partialPages c)).Perm ([b] ++ pages) := List.Perm.of_eq hpages
  refine h.slabs.remove hcons ?_ fun p hp => ?_
  · rw [State.slabs, State.setData_caches, State.setCache_caches, Function.update_self]
  · exact List.Perm.of_eq (slabs_setPartial s c _ hp)

/-- The object in the hand goes on its slab's list.
Source: `sys/slab_allocator.cpp` `SlabCache::FlushFreeList`
Kind: L -/
theorem balanced_flush (h : Inv root [o] s) (hb : addrToSlabPfn o root.order = b) :
    0 < (s.data b).used ∧ wsub (s.data b).used 1 = (s.data b).used - 1 ∧
      Balanced root [o] [] s b
        { s.data b with list := o :: (s.data b).list, used := wsub (s.data b).used 1 } := by
  subst hb
  have hpos : 0 < (s.data (addrToSlabPfn o root.order)).used :=
    h.used_pos (p := none) List.mem_cons_self nofun
  obtain ⟨hmem, -⟩ := h.slab_of_mem (p := none) (o := o) List.mem_cons_self
  have hcount := h.count _ hmem
  have hlt := root.numObjectsPerSlab_lt
  have hsub : wsub (s.data (addrToSlabPfn o root.order)).used 1 =
      (s.data (addrToSlabPfn o root.order)).used - 1 := wsub_eq hpos (by omega)
  refine ⟨hpos, hsub, hmem, fun k hk => ?_, rfl, perm_hand_cons o _,
    List.forall_mem_cons.mpr ⟨rfl, h.own _⟩, ?_⟩
  · -- a slab that is about to be released has no used object
    have hzero := h.unused k _ hk
    omega
  · show wsub _ 1 + (List.length _ + 1) = _
    rw [hsub]
    omega

/-- The object in the hand goes to its slab's list, and a slab whose objects are all back is taken
off the partial list to be released.
Source: `sys/slab_allocator.cpp` `SlabCache::FlushFreeList`
Kind: L -/
theorem flushObject (h : Inv root [o] s) : Inv root [] (flushObject root k c o s) := by
  rw [Slab.flushObject]
  simp only
  split
  · exact h.freeRemote
  rename_i hcache
  have hcache : (s.data (addrToSlabPfn o root.order)).cache = c := not_not.mp hcache
  obtain ⟨hpos, hsub, hd⟩ := h.balanced_flush rfl
  have hcount := h.count _ hd.mem
  generalize addrToSlabPfn o root.order = b at *
  split
  · rename_i hzero
    split
    · rename_i hmany
      exact h.releasePartial hd hzero (hcache ▸ h.mem_partialPages hd.mem hpos (by omega))
    · rename_i hone
      exact h.releaseSingle hd hzero fun hfree => absurd hfree.2 (by omega)
  · rename_i hused
    have hlt : wsub (s.data b).used 1 < root.numObjectsPerSlab := by omega
    split
    · rename_i hfull
      exact h.refillSlab hd hlt (fun hfree => absurd hfree.2 (by omega)) hcache
    · rename_i hnot
      exact h.keepSlab hd hlt ⟨hd.mem, by omega⟩

/-- The call returns. Source: `sys/slab_allocator.cpp` `SlabAllocator::Alloc`. Kind: L -/
theorem finish (h : Inv root hand s) (hstack : releasing (s.cpus k).stack = []) :
    Inv root hand (finish k s) := by
  have h' : Inv root hand (s.setStack k []) := h.setStack (by rw [hstack]; rfl)
  rw [Slab.finish]
  split
  · exact h'
  · refine h'.of_lists (fun b => ⟨rfl, rfl, rfl⟩) rfl (fun c => rfl) (fun k => rfl)
      (h'.objects.congr fun p => ?_)
    rcases p with _ | _ | c | k' | c | b <;> exact List.Perm.refl _

/-- `SlabCache::Alloc` does not fail: a partial page is not used up and has an object, which goes to
the client.
Source: `sys/slab_allocator.cpp` `SlabCache::Alloc`
Kind: L -/
theorem allocPartial (h : Inv root [] s) {second : Bool} {frames : List Frame}
    (hstack : releasing (s.cpus k).stack = []) (hframes : releasing frames = []) :
    ∃ s', allocPartial root k second c frames s = some s' ∧ Inv root [] s' := by
  rw [Slab.allocPartial]
  split
  · exact ⟨_, rfl, h.setStack (by rw [hstack]; exact hframes)⟩
  rename_i b pages hpages
  obtain ⟨hb, hlt, hcache⟩ := h.of_mem_partialPages (c := c) (b := b) (hpages ▸ List.mem_cons_self)
  simp only
  rw [if_pos hlt]
  split
  · rename_i hnil
    have := h.count b hb
    rw [hnil, List.length_nil] at this
    omega
  rename_i o list hlist
  have hcount := h.count b hb
  rw [hlist, List.length_cons] at hcount
  have hd : Balanced root [] [o] s b { s.data b with list := list, used := (s.data b).used + 1 } := by
    refine ⟨hb, fun k hk => ?_, rfl, ?_, fun o' ho' => ?_, ?_⟩
    · exact (h.of_mem_releasing hk).2.2 c (hpages ▸ List.mem_cons_self)
    · rw [hlist]
      exact List.Perm.refl _
    · exact h.own b o' (hlist ▸ List.mem_cons_of_mem o ho')
    · show (s.data b).used + 1 + list.length = _
      omega
  refine ⟨_, rfl, ?_⟩
  refine Inv.finish ?_ (by split <;> exact hstack)
  refine setHeld ?_ (perm_hand_cons o _)
  by_cases hfull : (s.data b).used + 1 = root.numObjectsPerSlab
  · rw [if_pos hfull]
    exact h.useUpSlab hd hfull hpages
  · rw [if_neg hfull]
    exact h.keepSlab hd (show (s.data b).used + 1 < _ by omega) ⟨hb, hlt⟩

/-- The objects that are left when a slab goes back. Source: `sys/slab_allocator.cpp` `SlabCache::FlushFreeList`.
Kind: L -/
theorem liveObjects_release (h : Inv root hand s) (hb : b ∈ s.blocks) (hused : (s.data b).used = 0)
    (frames : List Frame) : (Slab.release b (s.setStack k frames)).liveObjects root =
      {a | a ∈ s.liveObjects root ∧ a ∉ (s.data b).list} := by
  ext a
  simp only [State.liveObjects, Slab.release, Set.mem_ofPred_eq, State.setStack_blocks,
    h.nodup.mem_erase_iff, (h.list_perm hb hused).mem_iff]
  constructor
  · rintro ⟨b', ⟨hne, hb'⟩, ha⟩
    exact ⟨⟨b', hb', ha⟩, fun hab => hne (root.eq_of_mem_objects (h.block b' hb') (h.block b hb) ha hab)⟩
  · rintro ⟨⟨b', hb', ha⟩, hab⟩
    exact ⟨b', ⟨fun hne => hab (hne ▸ ha), hb'⟩, ha⟩

/-- The slabs that are left. Source: `sys/slab_allocator.cpp` `SlabCache::FlushFreeList`. Kind: L -/
theorem freeSlabs_release (h : Inv root hand s) (frames : List Frame) :
    (Slab.release b (s.setStack k frames)).freeSlabs root = {a | a ∈ s.freeSlabs root ∧ a ∉ [b]} := by
  have hdata : ∀ b', b' ≠ b → (Slab.release b (s.setStack k frames)).data b' = s.data b' :=
    fun b' hne => Function.update_of_ne hne _ _
  ext a
  simp only [State.freeSlabs, Set.mem_ofPred_eq, List.mem_singleton]
  constructor
  · rintro ⟨ha, hlt⟩
    obtain ⟨hne, ha⟩ := h.nodup.mem_erase_iff.mp ha
    rw [hdata a hne] at hlt
    exact ⟨⟨ha, hlt⟩, hne⟩
  · rintro ⟨⟨ha, hlt⟩, hne⟩
    refine ⟨h.nodup.mem_erase_iff.mpr ⟨hne, ha⟩, ?_⟩
    rwa [hdata a hne]

/-- **A slab goes back to the page allocator** with all of its objects on its list.
Source: `sys/slab_allocator.cpp` `SlabCache::FlushFreeList`
Kind: L -/
theorem release (h : Inv root [] s) {frames : List Frame}
    (hstack : (s.cpus k).stack = .release b :: frames) :
    Inv root [] (release b (s.setStack k frames)) := by
  have hrel : b ∈ releasing (s.cpus k).stack := hstack ▸ List.mem_cons_self
  obtain ⟨hb, hused, hpart⟩ := h.of_mem_releasing hrel
  have hdata : ∀ b', b' ≠ b → (Slab.release b (s.setStack k frames)).data b' = s.data b' :=
    fun b' hne => Function.update_of_ne hne _ _
  have hcpu : ∀ k', k' ≠ k → (Slab.release b (s.setStack k frames)).cpus k' = s.cpus k' :=
    fun k' hne => Function.update_of_ne hne _ _
  have hframes : releasing (s.cpus k).stack = b :: releasing frames := by rw [hstack, Slab.releasing]
  have hself : (Slab.release b (s.setStack k frames)).cpus k = { s.cpus k with stack := frames } :=
    Function.update_self _ _ _
  have hsub : ∀ k', ∀ b' ∈ releasing ((Slab.release b (s.setStack k frames)).cpus k').stack,
      b' ∈ releasing (s.cpus k').stack := by
    intro k' b' hb'
    by_cases hk : k' = k
    · subst hk
      rw [hself] at hb'
      rw [hframes]
      exact List.mem_cons_of_mem b hb'
    · rwa [hcpu k' hk] at hb'
  refine ⟨?_, ?_, ?_, ?_, h.nodup.erase b, ?_, ?_, ?_⟩
  · rw [h.liveObjects_release hb hused]
    have hall : (s.withHand [] (some (.page b))).Perm ((s.data b).list ++ []) :=
      List.Perm.of_eq (List.append_nil _).symm
    refine h.objects.remove hall ?_ ?_
    · rw [State.withHand, State.contents, Slab.release, State.setData_data, Function.update_self]
    · rintro (_ | _ | c | k' | c | b') hne
      case some.remoteList =>
        by_cases hk : k' = k
        · subst hk
          exact List.Perm.of_eq ((congrArg SlabAllocator.remoteList hself).trans rfl)
        · exact List.Perm.of_eq (congrArg SlabAllocator.remoteList (hcpu k' hk))
      case some.page =>
        exact List.Perm.of_eq (congrArg SlabData.list (hdata b' fun he => hne (by rw [he])))
      all_goals exact List.Perm.refl _
  · rw [h.freeSlabs_release]
    have hcons : (s.slabs (.releasing k)).Perm ([b] ++ releasing frames) := List.Perm.of_eq hframes
    refine h.slabs.remove hcons ?_ ?_
    · rw [State.slabs, hself]
    · rintro (c | k') hne
      · exact List.Perm.refl _
      · exact List.Perm.of_eq (congrArg (fun v => releasing (SlabAllocator.stack v))
          (hcpu k' fun hk => hne (by rw [hk])))
  · intro b' o ho
    by_cases hne : b' = b
    · subst hne
      rw [Slab.release, State.setData_data, Function.update_self] at ho
      cases ho
    · rw [hdata b' hne] at ho
      exact h.own b' o ho
  · exact fun b' hb' => h.block b' (List.mem_of_mem_erase hb')
  · intro b' hb'
    obtain ⟨hne, hb'⟩ := h.nodup.mem_erase_iff.mp hb'
    rw [hdata b' hne]
    exact h.count b' hb'
  · intro c b' hb'
    rw [hdata b' fun hne => hpart c (hne ▸ hb')]
    exact h.home c b' hb'
  · intro k' b' hb'
    by_cases hne : b' = b
    · subst hne
      rw [Slab.release, State.setData_data, Function.update_self]
      exact hused
    · rw [hdata b' hne]
      exact h.unused k' b' (hsub k' b' hb')

/-- The objects with those of a new slab. Source: `sys/slab_allocator.cpp` `SlabCache::AddSlab`. Kind: L -/
theorem liveObjects_addSlab (root : SlabAllocatorRoot) (c : CacheId) (b : ℕ) (s : State) :
    (Slab.addSlab root c b { s with blocks := b :: s.blocks }).liveObjects root =
      s.liveObjects root ∪ {a | a ∈ (root.objects b).reverse} := by
  have hblocks : (Slab.addSlab root c b { s with blocks := b :: s.blocks }).blocks = b :: s.blocks := rfl
  ext a
  simp only [State.liveObjects, hblocks, Set.mem_union, Set.mem_ofPred_eq, List.mem_cons,
    exists_eq_or_imp, List.mem_reverse, or_comm]

/-- The slabs with a new one. Source: `sys/slab_allocator.cpp` `SlabCache::AddSlab`. Kind: L -/
theorem freeSlabs_addSlab (root : SlabAllocatorRoot) (c : CacheId) (b : ℕ) (s : State) :
    (Slab.addSlab root c b { s with blocks := b :: s.blocks }).freeSlabs root =
      s.freeSlabs root ∪ {a | a ∈ [b]} := by
  have hblocks : (Slab.addSlab root c b { s with blocks := b :: s.blocks }).blocks = b :: s.blocks := rfl
  ext a
  simp only [State.freeSlabs, hblocks, addSlab_data, Set.mem_union, Set.mem_ofPred_eq, List.mem_cons,
    List.not_mem_nil, or_false]
  by_cases ha : a = b
  · simp only [ha, if_true, root.numObjectsPerSlab_pos, true_or, and_true, or_true]
  · simp only [ha, if_false, false_or, or_false]

/-- **A new slab**: its objects are on its list, and it is on the partial list.
Source: `sys/slab_allocator.cpp` `SlabCache::AddSlab`
Kind: L -/
theorem addSlab (h : Inv root [] s) (hpage : PageLegal root s (some b)) :
    Inv root [] (addSlab root c b { s with blocks := b :: s.blocks }) := by
  obtain ⟨hblock, hfresh, -⟩ := hpage
  have hpos := Nat.two_pow_pos root.order
  have hb : b ∉ s.blocks := by
    intro hb
    rcases hfresh b hb with h' | h' <;> omega
  have hnb : ∀ b' ∈ s.blocks, b' ≠ b := fun b' hb' hne => hb (hne ▸ hb')
  generalize hs' : Slab.addSlab root c b { s with blocks := b :: s.blocks } = s'
  have hblocks : s'.blocks = b :: s.blocks := by rw [← hs']; rfl
  have hcpus : s'.cpus = s.cpus := by rw [← hs']; rfl
  have hheld : s'.held = s.held := by rw [← hs']; rfl
  have hcaches : s'.caches = Function.update s.caches c
      { s.caches c with partialPageList := b :: (s.caches c).partialPageList } := by rw [← hs']; rfl
  have hlists : ∀ c', (s'.caches c').objectList = (s.caches c').objectList ∧
      (s'.caches c').remote = (s.caches c').remote := by
    rw [hcaches]
    exact setPartial_lists s c _
  have hself : (s'.data b).list = (root.objects b).reverse ∧ (s'.data b).used = 0 ∧
      (s'.data b).cache = c := by
    rw [← hs', addSlab_data, if_pos rfl, if_pos rfl, if_pos (root.mem_frames hblock)]
    exact ⟨rfl, rfl, rfl⟩
  have hother : ∀ q, q ≠ b → (s'.data q).list = (s.data q).list ∧
      (s'.data q).used = (s.data q).used ∧ (IsBlock root.order q → (s'.data q).cache = (s.data q).cache) := by
    intro q hq
    rw [← hs', addSlab_data, if_neg hq, if_neg hq]
    refine ⟨rfl, rfl, fun hqb => ?_⟩
    exact if_neg fun hmem => hq (root.eq_of_mem_frames hblock hqb hmem)
  have hlive : s'.liveObjects root = s.liveObjects root ∪ {a | a ∈ (root.objects b).reverse} := by
    rw [← hs']
    exact liveObjects_addSlab root c b s
  have hfree : s'.freeSlabs root = s.freeSlabs root ∪ {a | a ∈ [b]} := by
    rw [← hs']
    exact freeSlabs_addSlab root c b s
  refine ⟨?_, ?_, ?_, ?_, ?_, ?_, ?_, ?_⟩
  · rw [hlive]
    refine h.objects.add (q := some (.page b)) (List.nodup_reverse.mpr (root.nodup_objects b)) ?_ ?_ ?_
    · rintro a ha ⟨b', hb', ha'⟩
      exact hnb b' hb' (root.eq_of_mem_objects (h.block b' hb') hblock ha' (List.mem_reverse.mp ha))
    · refine List.Perm.of_eq ?_
      show (s'.data b).list = _ ++ (s.data b).list
      rw [hself.1, h.list_eq_nil hb, List.append_nil]
    · rintro (_ | _ | c' | k' | c' | q) hne
      case none => exact List.Perm.refl _
      case some.held => exact List.Perm.of_eq hheld
      case some.objectList => exact List.Perm.of_eq (hlists c').1
      case some.remoteList => exact List.Perm.of_eq (congrArg (fun v => SlabAllocator.remoteList (v k')) hcpus)
      case some.remote => exact List.Perm.of_eq (hlists c').2
      case some.page => exact List.Perm.of_eq (hother q fun hq => hne (by rw [hq])).1
  · rw [hfree]
    refine h.slabs.add (q := .partialPages c) (List.nodup_singleton b) ?_ ?_ ?_
    · intro a ha
      rw [List.mem_singleton.mp ha]
      exact fun hmem => hb hmem.1
    · rw [State.slabs, hcaches, Function.update_self]
      exact List.Perm.refl _
    · rintro (c' | k') hne
      · rw [State.slabs, hcaches, Function.update_of_ne fun hc => hne (by rw [hc])]
        exact List.Perm.refl _
      · rw [State.slabs, hcpus]
        exact List.Perm.refl _
  · intro q o ho
    by_cases hq : q = b
    · subst hq
      rw [hself.1, List.mem_reverse] at ho
      exact root.addrToSlabPfn_of_mem hblock ho
    · rw [(hother q hq).1] at ho
      exact h.own q o ho
  · rw [hblocks]
    exact List.forall_mem_cons.mpr ⟨hblock, h.block⟩
  · rw [hblocks]
    exact List.nodup_cons.mpr ⟨hb, h.nodup⟩
  · rw [hblocks]
    refine List.forall_mem_cons.mpr ⟨?_, fun b' hb' => ?_⟩
    · rw [hself.1, hself.2.1, List.length_reverse, root.length_objects, zero_add]
    · rw [(hother b' (hnb b' hb')).1, (hother b' (hnb b' hb')).2.1]
      exact h.count b' hb'
  · intro c' b' hb'
    have hold : b' ∈ (s.caches c').partialPageList → (s'.data b').cache = c' := by
      intro hb'
      obtain ⟨hmem, -, hcache⟩ := h.of_mem_partialPages hb'
      rw [(hother b' (hnb b' hmem)).2.2 (h.block b' hmem)]
      exact hcache
    rw [hcaches] at hb'
    by_cases hc : c' = c
    · subst hc
      rw [Function.update_self] at hb'
      rcases List.mem_cons.mp hb' with rfl | hb'
      · exact hself.2.2
      · exact hold hb'
    · rw [Function.update_of_ne hc] at hb'
      exact hold hb'
  · intro k' b' hb'
    rw [hcpus] at hb'
    rw [(hother b' (hnb b' (h.of_mem_releasing hb').1)).2.1]
    exact h.unused k' b' hb'

end Inv

end Slab

end EbbRT
