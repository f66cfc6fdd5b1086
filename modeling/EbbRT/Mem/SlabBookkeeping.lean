import EbbRT.Mem.SlabRuns

/-!
# The books of a slab cache

Here the functions of `SlabCache` are called one by one and in any order, on any cache that the CPU
holds, next to everything that the allocators do. What a step does to the slabs is said once
(`Change`): nothing, or it takes one object of a slab, or puts one back, or adds a slab, or passes one
to the page allocator. `slabBookkeeping` reads the books off it: the counter of each slab, its place
on the partial list, and when it goes back.
-/

namespace EbbRT

namespace Slab

open EbbRT.Lib

/-! ## The functions of a cache -/

/-- The functions of `SlabCache`.
Source: `sys/slab_allocator.hpp` `SlabCache`
Kind: D -/
inductive CacheOp where
  | alloc
  | addSlab (pfn : ℕ)
  | free (p : ℕ)
  | flushFreeList (amount : ℕ)
  | claimRemoteFreeList
  deriving DecidableEq, Repr

/-- A step of the allocators, or an idle CPU takes a node's lock, gives it back, or calls a function
of a cache.
Source: `sys/slab_allocator.hpp` `SlabCache`, `SlabAllocatorNode::lock_`
Kind: D -/
inductive CacheStep where
  | system (a : Step)
  | lock (k nid : ℕ)
  | unlock (k nid : ℕ)
  | call (k : ℕ) (c : CacheId) (op : CacheOp)
  deriving DecidableEq, Repr

variable (root : SlabAllocatorRoot) (topo : Topology)

/-- A slab that is added comes from the page allocator; only held objects are freed.
Source: `sys/slab_allocator.cpp` `SlabCache::AddSlab`, `SlabCache::Free`
Kind: D -/
def CacheOpLegal (s : State) : CacheOp → Prop
  | .addSlab pfn => PageLegal root s (some pfn)
  | .free p => p ∈ s.held
  | _ => True

/-- A CPU calls functions of its own cache, and of a node's under that node's lock.
Source: `sys/slab_allocator.cpp` `SlabAllocatorNode::Alloc`
Kind: D -/
def CacheLegal (s : State) : CacheStep → Prop
  | .system a => Legal root s a
  | .lock k nid => (s.cpus k).stack = [] ∧ s.locks nid = none
  | .unlock k nid => (s.cpus k).stack = [] ∧ s.locks nid = some k
  | .call k c op => (s.cpus k).stack = [] ∧ Holds s k c ∧ CacheOpLegal root s op

/-- Begin a call of a cache's function; `Alloc`, `FlushFreeList` and `ClaimRemoteFreeList` run on by
their frames.
Source: `sys/slab_allocator.cpp` `SlabCache`
Kind: D -/
def startCache (k : ℕ) (c : CacheId) (s : State) : CacheOp → State
  | .alloc => s.setCpu k { s.cpus k with target := c, stack := [.alloc false] }
  | .addSlab pfn => addSlab root c pfn { s with blocks := pfn :: s.blocks }
  | .free p => cacheFree root k c p ((s.setCpu k { s.cpus k with target := c }).take p)
  | .flushFreeList amount =>
      s.setCpu k { s.cpus k with target := c, stack := [.flush 0 amount] }
  | .claimRemoteFreeList => s.setCpu k { s.cpus k with target := c, stack := [.claim] }

/-- Source: `sys/slab_allocator.cpp` `SlabCache`
Kind: D -/
def cacheStep (s : State) : CacheStep → Option State
  | .system a => step root topo s a
  | .lock k nid => some { s with locks := Function.update s.locks nid (some k) }
  | .unlock _ nid => some { s with locks := Function.update s.locks nid none }
  | .call k c op => some (startCache root k c s op)

/-- Source: `sys/slab_allocator.cpp` `SlabCache`
Kind: D -/
def cacheSystem : System State CacheStep := ⟨CacheLegal root, cacheStep root topo⟩

/-! ## What is exchanged with the page allocator -/

/-- The block that the page allocator hands over in a step.
Source: `sys/slab_allocator.cpp` `SlabAllocator::Alloc`, `SlabAllocatorNode::Alloc`
Kind: D -/
def received (s : State) : CacheStep → Option ℕ
  | .system (.run k page) =>
      match (s.cpus k).stack with
      | .nullptr false :: _ => page
      | _ => none
  | .call _ _ (.addSlab pfn) => some pfn
  | _ => none

/-- The arguments of the call of `page_allocator->Free` in a step.
Source: `sys/slab_allocator.cpp` `SlabCache::FlushFreeList`
Kind: D -/
def passed (s : State) : CacheStep → Option (ℕ × ℕ)
  | .system (.run k _) =>
      match (s.cpus k).stack with
      | .release pfn :: _ => some (pfn, root.order)
      | _ => none
  | _ => none

/-- The step is a turn of `FlushFreeList` on CPU `k`.
Source: `sys/slab_allocator.cpp` `SlabCache::FlushFreeList`
Kind: D -/
def InFlush (k : ℕ) (s : State) (a : CacheStep) : Prop :=
  ∃ page freed amount frames, a = .system (.run k page) ∧
    (s.cpus k).stack = .flush freed amount :: frames

/-- The step is at `retry:` in `SlabCache::Alloc` on CPU `k`.
Source: `sys/slab_allocator.cpp` `SlabCache::Alloc`
Kind: D -/
def AtAlloc (s : State) (a : CacheStep) : Prop :=
  ∃ k page second frames, a = .system (.run k page) ∧ (s.cpus k).stack = .alloc second :: frames

/-! ## The books -/

/-- A slab that the cache owns: one of its blocks that is not on its way back.
Source: `sys/slab_allocator.cpp` `SlabCache`
Kind: D -/
def State.OwnedBy (s : State) (c : CacheId) (b : ℕ) : Prop :=
  b ∈ s.blocks ∧ (s.data b).cache = c ∧ ∀ k, b ∉ releasing (s.cpus k).stack

/-- The books of a state: the counters, the partial lists, and that a slab on its way back is what
the CPU passes next, with all of its objects on its own list and nowhere else.
Source: `sys/slab_allocator.cpp` `SlabCache`
Kind: D -/
structure Bookkept (s : State) : Prop where
  count : ∀ b ∈ s.blocks, (s.data b).used + (s.data b).list.length = root.numObjectsPerSlab
  mem_partialPageList : ∀ c b, s.OwnedBy c b →
    (b ∈ (s.caches c).partialPageList ↔ (s.data b).used < root.numObjectsPerSlab)
  partialPageList : ∀ c, (s.caches c).partialPageList.Nodup ∧
    ∀ b ∈ (s.caches c).partialPageList, s.OwnedBy c b
  releasing : ∀ k, ∀ b ∈ releasing (s.cpus k).stack,
    (∃ frames, (s.cpus k).stack = .release b :: frames) ∧
      (s.data b).used = 0 ∧ (∀ c, b ∉ (s.caches c).partialPageList) ∧
      ∀ o ∈ root.objects b, o ∈ (s.data b).list ∧ ∀ p, o ∈ s.contents p → p = .page b

/-- The books over one step: the blocks are those before, with the one that the page allocator handed
over and without the one that is passed back; a block is passed back with the order of the root; a
slab is on its way back from the turn of `FlushFreeList` that brings its counter to zero until it is
passed.
Source: `sys/slab_allocator.cpp` `SlabCache::FlushFreeList`
Kind: D -/
structure Accounts (s : State) (a : CacheStep) (s' : State) : Prop where
  blocks : ∀ b, b ∈ s'.blocks ↔
    received s a = some b ∨ b ∈ s.blocks ∧ passed root s a ≠ some (b, root.order)
  handed : ∀ b, received s a = some b → IsBlock root.order b ∧ b ∉ s.blocks
  back : ∀ b order, passed root s a = some (b, order) → order = root.order ∧ b ∈ s.blocks ∧
    ∃ k, b ∈ releasing (s.cpus k).stack
  begins : ∀ k b, b ∈ releasing (s'.cpus k).stack ∧ b ∉ releasing (s.cpus k).stack ↔
    InFlush k s a ∧ b ∈ s.blocks ∧ 0 < (s.data b).used ∧ (s'.data b).used = 0
  ends : ∀ k, ∀ b ∈ releasing (s.cpus k).stack,
    b ∈ releasing (s'.cpus k).stack ∨ passed root s a = some (b, root.order)

variable {root : SlabAllocatorRoot} {topo : Topology} {s s' s'' : State} {a : CacheStep}
  {k o b : ℕ} {c : CacheId}

/-! ## What a step does to the slabs -/

/-- No counter changes, no block, and no slab begins or ends its way back.
Source: none: infrastructure
Kind: D -/
structure Still (s s' : State) : Prop where
  used : ∀ b, (s'.data b).used = (s.data b).used
  blocks : s'.blocks = s.blocks
  releasing : ∀ k, releasing (s'.cpus k).stack = releasing (s.cpus k).stack

namespace Still

/-- Source: none: infrastructure. Kind: L -/
theorem refl : Still s s := ⟨fun _ => rfl, rfl, fun _ => rfl⟩

/-- Source: none: infrastructure. Kind: L -/
theorem trans (h : Still s s') (h' : Still s' s'') : Still s s'' where
  used b := (h'.used b).trans (h.used b)
  blocks := h'.blocks.trans h.blocks
  releasing k := (h'.releasing k).trans (h.releasing k)

/-- Writing the CPU. Source: none: infrastructure. Kind: L -/
theorem setCpu {v : SlabAllocator} (hrel : Slab.releasing v.stack = Slab.releasing (s.cpus k).stack) :
    Still s (s.setCpu k v) where
  used _ := rfl
  blocks := rfl
  releasing k' := by
    by_cases hk : k' = k
    · rw [hk, State.setCpu_cpus, Function.update_self, hrel]
    · rw [State.setCpu_cpus, Function.update_of_ne hk]

/-- Writing a cache. Source: none: infrastructure. Kind: L -/
theorem setCache (v : SlabCache) : Still s (s.setCache c v) := ⟨fun _ => rfl, rfl, fun _ => rfl⟩

/-- Source: `sys/slab_allocator.cpp` `SlabAllocator::FlushRemoteList`. Kind: L -/
theorem flushRemoteList : Still s (flushRemoteList root k s) := by
  rw [Slab.flushRemoteList]
  split
  · exact refl
  · refine (setCache _).trans (setCpu ?_)
    rfl

/-- Source: `sys/slab_allocator.cpp` `SlabAllocator::FreeRemote`. Kind: L -/
theorem freeRemote : Still s (freeRemote root k o s) := by
  have hturn : ∀ c, Still s (turnTo root k c s) := by
    intro c
    rw [turnTo]
    split
    · exact flushRemoteList.trans (setCpu rfl)
    · exact refl
  rw [Slab.freeRemote]
  simp only
  split
  · refine (hturn _).trans ((setCpu ?_).trans (setCpu ?_)) <;> rfl
  · refine (hturn _).trans (setCpu ?_)
    rfl

/-- Source: `sys/slab_allocator.cpp` `SlabCache::Free`. Kind: L -/
theorem cacheFree : Still s (cacheFree root k c o s) := by
  rw [Slab.cacheFree]
  simp only
  split
  · refine (setCache _).trans (setCpu ?_)
    rfl
  · exact setCache _

/-- A call returns. Source: `sys/slab_allocator.cpp` `SlabAllocatorNode::Alloc`. Kind: L -/
theorem finish (hstack : Slab.releasing (s.cpus k).stack = []) : Still s (finish k s) := by
  have h : Still s (s.setStack k []) := setCpu hstack.symm
  rw [Slab.finish]
  split
  · exact h
  · exact h.trans ⟨fun _ => rfl, rfl, fun _ => rfl⟩

end Still

/-- What a step does to the slabs: nothing, or `Alloc` takes an object of a slab, or a turn of
`FlushFreeList` puts one back, or a slab is added, or one is passed to the page allocator.
Source: `sys/slab_allocator.cpp` `SlabCache`
Kind: D -/
inductive Change (root : SlabAllocatorRoot) (s : State) (a : CacheStep) (s' : State) : Prop
  | still (hrec : received s a = none) (hpass : passed root s a = none) (h : Still s s')
  | taken (b : ℕ) (hrec : received s a = none) (hpass : passed root s a = none)
      (hused : ∀ b', (s'.data b').used = if b' = b then (s.data b).used + 1 else (s.data b').used)
      (hblocks : s'.blocks = s.blocks)
      (hrel : ∀ k, releasing (s'.cpus k).stack = releasing (s.cpus k).stack)
  | put (k b : ℕ) (hrec : received s a = none) (hpass : passed root s a = none)
      (hflush : InFlush k s a) (hb : b ∈ s.blocks) (hpos : 0 < (s.data b).used)
      (hused : ∀ b', (s'.data b').used = if b' = b then (s.data b).used - 1 else (s.data b').used)
      (hblocks : s'.blocks = s.blocks)
      (hrel : releasing (s'.cpus k).stack =
        if (s.data b).used = 1 then b :: releasing (s.cpus k).stack else releasing (s.cpus k).stack)
      (hother : ∀ k' ≠ k, releasing (s'.cpus k').stack = releasing (s.cpus k').stack)
  | added (b : ℕ) (hrec : received s a = some b) (hpass : passed root s a = none)
      (hused : ∀ b' ≠ b, (s'.data b').used = (s.data b').used) (hblocks : s'.blocks = b :: s.blocks)
      (hrel : ∀ k, releasing (s'.cpus k).stack = releasing (s.cpus k).stack)
  | passed (k b : ℕ) (hrec : received s a = none) (hpass : passed root s a = some (b, root.order))
      (hused : ∀ b', (s'.data b').used = (s.data b').used) (hblocks : s'.blocks = s.blocks.erase b)
      (hrel : releasing (s.cpus k).stack = b :: releasing (s'.cpus k).stack)
      (hother : ∀ k' ≠ k, releasing (s'.cpus k').stack = releasing (s.cpus k').stack)

/-- **A turn of `FlushFreeList`** leaves the slabs alone, or puts the object back; a slab that has no
used object then is on its way back.
Source: `sys/slab_allocator.cpp` `SlabCache::FlushFreeList`
Kind: L -/
theorem flushObject_change (h : Inv root [o] s) :
    Still s (flushObject root k c o s) ∨ ∃ b ∈ s.blocks, 0 < (s.data b).used ∧
      (∀ b', ((flushObject root k c o s).data b').used =
        if b' = b then (s.data b).used - 1 else (s.data b').used) ∧
      (flushObject root k c o s).blocks = s.blocks ∧
      releasing ((flushObject root k c o s).cpus k).stack =
        (if (s.data b).used = 1 then b :: releasing (s.cpus k).stack
          else releasing (s.cpus k).stack) ∧
      ∀ k' ≠ k, (flushObject root k c o s).cpus k' = s.cpus k' := by
  obtain ⟨hpos, hsub, hd⟩ := h.balanced_flush rfl
  have hquiet : Quiet root k s (flushObject root k c o s) := Quiet.flushObject
  have hblocks : (flushObject root k c o s).blocks = s.blocks := flushObject_blocks
  by_cases hcache : (s.data (addrToSlabPfn o root.order)).cache = c
  · refine Or.inr ⟨_, hd.mem, hpos, fun b' => ?_, hblocks, ?_, hquiet.cpus⟩
    all_goals
      rw [flushObject]
      simp only [hcache, ne_eq, not_true_eq_false, if_false]
      rw [hsub]
      generalize addrToSlabPfn o root.order = b at *
    · have hone : ∀ d : SlabData, d.used = (s.data b).used - 1 →
          (Function.update s.data b d b').used =
            if b' = b then (s.data b).used - 1 else (s.data b').used := by
        intro d hd
        by_cases hne : b' = b
        · rw [hne, Function.update_self, if_pos rfl, hd]
        · rw [Function.update_of_ne hne, if_neg hne]
      split
      · split <;> exact hone _ rfl
      · split <;> exact hone _ rfl
    · by_cases hone : (s.data b).used = 1
      · rw [if_pos (show (s.data b).used - 1 = 0 by omega), if_pos hone]
        split <;> rw [push_stack] <;> rfl
      · rw [if_neg (show ¬ (s.data b).used - 1 = 0 by omega), if_neg hone]
        split <;> rfl
  · refine Or.inl ?_
    rw [flushObject]
    simp only [hcache, ne_eq, not_false_eq_true, if_true]
    exact Still.freeRemote

/-! ## The invariants of the allocators hold here too -/

/-- A function of a cache begins.
Source: `sys/slab_allocator.cpp` `SlabCache`
Kind: L -/
theorem Good.startCache (h : Good root s) (hidle : (s.cpus k).stack = []) (hold : Holds s k c)
    {op : CacheOp} (hlegal : CacheOpLegal root s op) : Good root (startCache root k c s op) := by
  cases op with
  | alloc => exact h.enter hidle rfl (fun _ _ => Shape.alloc false) (Or.inl hold)
  | addSlab pfn =>
      refine ⟨h.inv.addSlab hlegal, ?_⟩
      have hblocks : Quiet root k s { s with blocks := pfn :: s.blocks } := Quiet.of_caches rfl rfl rfl
      have hq : Quiet root k s (addSlab root c pfn { s with blocks := pfn :: s.blocks }) :=
        hblocks.trans Quiet.addSlab
      refine h.wf.of_step (k := k) hq.cpus (fun c' => Or.inl (congrArg List.length (hq.objectList c'))) hq.mark
        hq.batch (fun nid k' _ hlock => hlock) ?_ (Or.inl hidle)
      rw [ShapeOf]
      show Shape root _ _ (s.cpus k).stack
      rw [hidle]
      exact Shape.idle
  | free p =>
      obtain ⟨hinv, hwf⟩ := h.take hidle hold hlegal
      refine Good.cacheFree hinv hwf ?_ hold ?_
      · rw [State.take_cpus, State.setCpu_cpus, Function.update_self]
      · rw [State.take_cpus, State.setCpu_cpus, Function.update_self]
        exact hidle
  | flushFreeList amount =>
      exact h.enter hidle rfl (fun _ _ => Shape.flush (Under.top _ _)) (Or.inl hold)
  | claimRemoteFreeList => exact h.enter hidle rfl (fun _ _ => Shape.claim) (Or.inl hold)

/-- An idle CPU takes a lock or gives it back.
Source: `sys/slab_allocator.cpp` `SlabAllocatorNode::Alloc`
Kind: L -/
theorem Good.setLock (h : Good root s) (hidle : (s.cpus k).stack = []) {nid : ℕ} {holder : Option ℕ}
    (hlock : ∀ k' ≠ k, s.locks nid ≠ some k') :
    Good root { s with locks := Function.update s.locks nid holder } := by
  refine ⟨?_, ?_⟩
  · refine h.inv.of_lists (fun b => ⟨rfl, rfl, rfl⟩) rfl (fun c => rfl) (fun k => rfl)
      (h.inv.objects.congr fun p => ?_)
    rcases p with _ | _ | c | k' | c | b <;> exact List.Perm.refl _
  · refine h.wf.of_step (k := k) (fun _ _ => rfl) (fun _ => Or.inl rfl) (fun _ hc => hc)
      (fun _ hc => Or.inl hc) (fun nid' k' hk hheld => ?_) (h.wf.shape k) (Or.inl hidle)
    have hne : nid' ≠ nid := by
      rintro rfl
      exact hlock k' hk hheld
    exact (Function.update_of_ne hne _ _).trans hheld

/-- **A step keeps the invariants.**
Source: `sys/slab_allocator.cpp` `SlabCache`
Kind: P -/
theorem Good.cacheStep (h : Good root s) (hlegal : CacheLegal root s a)
    (hstep : cacheStep root topo s a = some s') : Good root s' := by
  cases a with
  | system a => exact h.step hlegal hstep
  | lock k nid =>
      cases hstep
      refine h.setLock hlegal.1 fun k' _ => ?_
      rw [hlegal.2]
      exact nofun
  | unlock k nid =>
      cases hstep
      refine h.setLock hlegal.1 fun k' hk => ?_
      rw [hlegal.2]
      exact fun heq => hk (Option.some.inj heq).symm
  | call k c op =>
      cases hstep
      exact h.startCache hlegal.1 hlegal.2.1 hlegal.2.2

/-! ## Every step is one of the changes -/

/-- Source: `sys/slab_allocator.cpp` `SlabCache::AddSlab`. Kind: L -/
theorem addSlab_used {b' : ℕ} (hb : b' ≠ b) :
    ((addSlab root c b s).data b').used = (s.data b').used := by
  rw [addSlab_data]
  exact if_neg hb

/-- A call begins: no slab changes, but for one that is added.
Source: `sys/slab_allocator.cpp` `SlabAllocator`, `SlabCache`
Kind: L -/
theorem still_start (hidle : (s.cpus k).stack = []) (op : Op) : Still s (start root k topo s op) := by
  have henter : ∀ v : SlabAllocator, releasing v.stack = [] → Still s (s.setCpu k v) := by
    intro v hv
    exact Still.setCpu (by rw [hv, hidle]; rfl)
  have htake : ∀ p, Still s ((s.setCpu k { s.cpus k with target := .cpu k }).take p) := by
    intro p
    have hturn : Still s (s.setCpu k { s.cpus k with target := .cpu k }) := Still.setCpu rfl
    exact hturn.trans ⟨fun _ => rfl, rfl, fun _ => rfl⟩
  cases op with
  | alloc nid =>
      rw [start]
      split <;> exact henter _ rfl
  | free p =>
      rw [start]
      simp only
      split
      · exact (htake p).trans Still.cacheFree
      · exact (htake p).trans Still.freeRemote
  | freeRemote p => exact (htake p).trans Still.freeRemote
  | flushFreeList amount => exact henter _ rfl
  | flushRemoteList => exact henter _ rfl
  | claimRemoteFreeList => exact henter _ rfl

/-- At `retry:` in `Alloc` at most one object of one slab is taken.
Source: `sys/slab_allocator.cpp` `SlabCache::Alloc`
Kind: L -/
theorem allocPartial_change {second : Bool} (hstack : releasing (s.cpus k).stack = [])
    (hstep : allocPartial root k second c [] s = some s') :
    Still s s' ∨ ∃ b, (∀ b', (s'.data b').used =
        if b' = b then (s.data b).used + 1 else (s.data b').used) ∧
      s'.blocks = s.blocks ∧ ∀ k, releasing (s'.cpus k).stack = releasing (s.cpus k).stack := by
  rcases allocPartial_cases hstep with rfl | ⟨b, pages, o, d, t, -, ht, hused, -, rfl⟩
  · exact Or.inl (Still.setCpu hstack.symm)
  · refine Or.inr ⟨b, ?_⟩
    obtain ⟨htstill, htdata⟩ : Still s t ∧ t.data = s.data := by
      rcases ht with rfl | rfl
      · exact ⟨Still.refl, rfl⟩
      · exact ⟨Still.setCache _, rfl⟩
    have hfinish : Still ((t.setData b d).give o) (finish k ((t.setData b d).give o)) :=
      Still.finish ((htstill.releasing k).trans hstack)
    refine ⟨fun b' => ?_, hfinish.blocks.trans htstill.blocks,
      fun k' => (hfinish.releasing k').trans (htstill.releasing k')⟩
    rw [hfinish.used, State.give_data, State.setData_data, htdata]
    by_cases hne : b' = b
    · rw [hne, Function.update_self, if_pos rfl, hused]
    · rw [Function.update_of_ne hne, if_neg hne]

/-- The stack changes, and none of the frames that release a slab. Source: none: infrastructure. Kind: L -/
theorem still_setStack (frames : List Frame) (hrel : releasing frames = releasing (s.cpus k).stack) :
    Still s (s.setStack k frames) := Still.setCpu hrel

/-- A turn of `FlushFreeList` with the object that it pops.
Source: `sys/slab_allocator.cpp` `SlabCache::FlushFreeList`
Kind: L -/
theorem change_flush {page : Option ℕ} {frames : List Frame} {freed amount : ℕ} {list : List ℕ}
    (h : Inv root [] s) (hstack : (s.cpus k).stack = .flush freed amount :: frames)
    (hlist : (s.caches (s.cpus k).target).objectList = o :: list)
    (hrec : received s (.system (.run k page)) = none) (hpass : passed root s (.system (.run k page)) = none) :
    Change root s (.system (.run k page)) (flushObject root k (s.cpus k).target o
      ((s.setStack k (.flush (freed + 1) amount :: frames)).setCache (s.cpus k).target
        { s.caches (s.cpus k).target with objectList := list })) := by
  have hrel : releasing (.flush (freed + 1) amount :: frames) = releasing (s.cpus k).stack := by
    rw [hstack]
    rfl
  have hpopped : Still s ((s.setStack k (.flush (freed + 1) amount :: frames)).setCache (s.cpus k).target
      { s.caches (s.cpus k).target with objectList := list }) :=
    (still_setStack _ hrel).trans (Still.setCache _)
  have hpop : Inv root [o] ((s.setStack k (.flush (freed + 1) amount :: frames)).setCache (s.cpus k).target
      { s.caches (s.cpus k).target with objectList := list }) :=
    (h.setStack hrel).pop hlist
  generalize (s.setStack k (.flush (freed + 1) amount :: frames)).setCache (s.cpus k).target
    { s.caches (s.cpus k).target with objectList := list } = u at hpopped hpop ⊢
  rcases flushObject_change (k := k) (c := (s.cpus k).target) hpop with
    hturn | ⟨b, hb, hpos, hused, hblocks, hrel, hother⟩
  · exact Change.still hrec hpass (hpopped.trans hturn)
  · rw [hpopped.blocks] at hb hblocks
    rw [hpopped.used] at hpos hrel
    simp only [hpopped.used] at hused
    rw [hpopped.releasing] at hrel
    refine Change.put k b hrec hpass ⟨page, freed, amount, frames, rfl, hstack⟩ hb hpos hused hblocks hrel
      fun k' hk' => ?_
    rw [hother k' hk', hpopped.releasing]

/-- The release of a slab. Source: `sys/slab_allocator.cpp` `SlabCache::FlushFreeList`. Kind: L -/
theorem change_release {page : Option ℕ} {frames : List Frame}
    (hstack : (s.cpus k).stack = .release b :: frames)
    (hrec : received s (.system (.run k page)) = none) :
    Change root s (.system (.run k page)) (release b (s.setStack k frames)) := by
  refine Change.passed k b hrec ?_ (fun b' => ?_) rfl ?_ fun k' hk' => ?_
  · rw [passed, hstack]
  · show (Function.update s.data b { s.data b with list := [] } b').used = _
    by_cases hne : b' = b
    · rw [hne, Function.update_self]
    · rw [Function.update_of_ne hne]
  · rw [release_stack, hstack]
    rfl
  · show releasing ((s.setStack k frames).cpus k').stack = _
    rw [State.setStack_cpus, Function.update_of_ne hk']

/-- A CPU runs on.
Source: `sys/slab_allocator.cpp` `SlabCache::Alloc`, `SlabCache::FlushFreeList`
Kind: L -/
theorem change_run {page : Option ℕ} (hstep : step root topo s (.run k page) = some s')
    (h : Good root s) : Change root s (.system (.run k page)) s' := by
  obtain ⟨frame, frames, hstack, hran⟩ := ran_of_step hstep
  have hstill : (∀ b, frame ≠ .release b) → frame ≠ .nullptr false → Still s s' →
      Change root s (.system (.run k page)) s' := by
    intro hrelease hnull hstill
    refine Change.still ?_ ?_ hstill
    · rw [received, hstack]
      split
      · rename_i hcons
        exact absurd (List.cons.inj hcons).1 hnull
      · rfl
    · rw [passed, hstack]
      split
      · rename_i hcons
        exact absurd (List.cons.inj hcons).1 (hrelease _)
      · rfl
  cases hran with
  | lock nid htarget hfree =>
      obtain rfl := h.frames_eq_nil hstack (Or.inl rfl)
      refine hstill (by simp) (by simp) ((still_setStack [.alloc false] (by rw [hstack]; rfl)).trans ?_)
      exact ⟨fun _ => rfl, rfl, fun _ => rfl⟩
  | spin => exact hstill (by simp) (by simp) Still.refl
  | pop second o list hlist =>
      obtain rfl := h.frames_eq_nil hstack (Or.inr (Or.inl ⟨second, rfl⟩))
      have hgive : Still s ((s.setCache (s.cpus k).target
          { s.caches (s.cpus k).target with objectList := list }).give o) :=
        ⟨fun _ => rfl, rfl, fun _ => rfl⟩
      refine hstill (by simp) (by simp) (hgive.trans (Still.finish ?_))
      show releasing (s.cpus k).stack = []
      rw [hstack]
      rfl
  | retry => exact hstill (by simp) (by simp) (still_setStack _ (by rw [hstack]; rfl))
  | partialPage second s' hpartial =>
      obtain rfl := h.frames_eq_nil hstack (Or.inr (Or.inl ⟨second, rfl⟩))
      rcases allocPartial_change (by rw [hstack]; rfl) hpartial with hsame | ⟨b, hused, hblocks, hrel⟩
      · exact hstill (by simp) (by simp) hsame
      · refine Change.taken b ?_ ?_ hused hblocks hrel
        · rw [received, hstack]
        · rw [passed, hstack]
  | noPage hpage =>
      obtain rfl := h.frames_eq_nil hstack (Or.inr (Or.inr ⟨false, rfl⟩))
      refine Change.still ?_ ?_ (Still.finish (by rw [hstack]; rfl))
      · rw [received, hstack, hpage]
      · rw [passed, hstack]
  | addSlab b hpage =>
      refine Change.added b ?_ ?_ (fun b' hb' => addSlab_used hb') rfl
        (still_setStack (.alloc true :: frames) (by rw [hstack]; rfl)).releasing
      · rw [received, hstack, hpage]
      · rw [passed, hstack]
  | claim =>
      exact hstill (by simp) (by simp)
        ((still_setStack _ (by rw [hstack]; rfl)).trans (Still.setCache _))
  | drain => exact hstill (by simp) (by simp) (still_setStack _ (by rw [hstack]; rfl))
  | drained => exact hstill (by simp) (by simp) (still_setStack _ (by rw [hstack]; rfl))
  | flush freed amount o list hfreed hlist =>
      refine change_flush h.inv hstack hlist ?_ ?_
      · rw [received, hstack]
      · rw [passed, hstack]
  | flushed => exact hstill (by simp) (by simp) (still_setStack _ (by rw [hstack]; rfl))
  | release b =>
      refine change_release hstack ?_
      rw [received, hstack]
  | flushRemote =>
      exact hstill (by simp) (by simp)
        ((still_setStack _ (by rw [hstack]; rfl)).trans Still.flushRemoteList)

/-- **Every step is one of the changes.**
Source: `sys/slab_allocator.cpp` `SlabCache`
Kind: P -/
theorem change_step (h : Good root s) (hlegal : CacheLegal root s a)
    (hstep : cacheStep root topo s a = some s') : Change root s a s' := by
  cases a with
  | system a =>
      cases a with
      | call k op =>
          cases hstep
          exact Change.still rfl rfl (still_start hlegal.1 op)
      | run k page => exact change_run (show step root topo s (.run k page) = some s' from hstep) h
  | lock k nid =>
      cases hstep
      exact Change.still rfl rfl ⟨fun _ => rfl, rfl, fun _ => rfl⟩
  | unlock k nid =>
      cases hstep
      exact Change.still rfl rfl ⟨fun _ => rfl, rfl, fun _ => rfl⟩
  | call k c op =>
      cases hstep
      have hidle := hlegal.1
      have henter : ∀ v : SlabAllocator, releasing v.stack = [] → Still s (s.setCpu k v) := by
        intro v hv
        exact Still.setCpu (by rw [hv, hidle]; rfl)
      cases op with
      | alloc => exact Change.still rfl rfl (henter _ rfl)
      | addSlab b =>
          exact Change.added b rfl rfl (fun b' hb' => addSlab_used hb') rfl fun _ => rfl
      | free p =>
          have hturn : Still s ((s.setCpu k { s.cpus k with target := c }).take p) :=
            (henter { s.cpus k with target := c } (congrArg releasing hidle)).trans
              ⟨fun _ => rfl, rfl, fun _ => rfl⟩
          exact Change.still rfl rfl (hturn.trans Still.cacheFree)
      | flushFreeList amount => exact Change.still rfl rfl (henter _ rfl)
      | claimRemoteFreeList => exact Change.still rfl rfl (henter _ rfl)

/-! ## Reading the books -/

/-- A slab on its way back is what the CPU passes next.
Source: `sys/slab_allocator.cpp` `SlabCache::FlushFreeList`
Kind: L -/
theorem Good.stack_of_mem_releasing (h : Good root s) (hb : b ∈ releasing (s.cpus k).stack) :
    ∃ frames, (s.cpus k).stack = .release b :: frames := by
  have hshape := h.wf.shape k
  rw [ShapeOf] at hshape
  generalize (s.cpus k).stack = stack at hb hshape
  cases hshape with
  | release pfn hunder =>
      simp only [releasing, hunder.releasing_eq, List.mem_singleton] at hb
      exact ⟨_, by rw [hb]⟩
  | flush hunder => simp [releasing, hunder.releasing_eq] at hb
  | flushRemoteIn hunder => simp [releasing, hunder.releasing_eq] at hb
  | _ => cases hb

/-- The books of a reachable state.
Source: `sys/slab_allocator.cpp` `SlabCache`
Kind: L -/
theorem Good.bookkept (h : Good root s) : Bookkept root s where
  count := h.inv.count
  mem_partialPageList c b hown := by
    obtain ⟨hb, hcache, hnrel⟩ := hown
    refine ⟨fun hmem => (h.inv.of_mem_partialPages hmem).2.1, fun hlt => ?_⟩
    obtain ⟨p, hp⟩ := (h.inv.slabs.cover b).mp ⟨hb, hlt⟩
    cases p with
    | partialPages c' =>
        have hhome := h.inv.home c' b hp
        rw [hcache] at hhome
        rw [hhome]
        exact hp
    | releasing k => exact absurd hp (hnrel k)
  partialPageList c := by
    refine ⟨h.inv.slabs.nodup (.partialPages c), fun b hb => ?_⟩
    obtain ⟨hblock, -, hcache⟩ := h.inv.of_mem_partialPages hb
    exact ⟨hblock, hcache, fun k hk => (h.inv.of_mem_releasing hk).2.2 c hb⟩
  releasing k b hb := by
    obtain ⟨hblock, hused, hpart⟩ := h.inv.of_mem_releasing hb
    refine ⟨h.stack_of_mem_releasing hb, hused, hpart, fun o ho => ?_⟩
    have hlist : o ∈ (s.data b).list := (h.inv.list_perm hblock hused).mem_iff.mpr ho
    refine ⟨hlist, fun p hp => ?_⟩
    exact Option.some.inj (h.inv.objects.unique (some p) (some (.page b)) o hp hlist)

/-- What the page allocator hands over is a block that the root does not have.
Source: `sys/slab_allocator.cpp` `SlabAllocator::Alloc`
Kind: L -/
theorem received_spec (hlegal : CacheLegal root s a) (hrec : received s a = some b) :
    IsBlock root.order b ∧ b ∉ s.blocks := by
  have hfresh : PageLegal root s (some b) → IsBlock root.order b ∧ b ∉ s.blocks := by
    rintro ⟨hblock, hapart, -⟩
    refine ⟨hblock, fun hb => ?_⟩
    have := Nat.two_pow_pos root.order
    have := hapart b hb
    omega
  cases a with
  | system a =>
      cases a with
      | call k op => cases hrec
      | run k page =>
          rw [received] at hrec
          split at hrec
          · subst hrec
            exact hfresh hlegal.2
          · cases hrec
  | lock k nid => cases hrec
  | unlock k nid => cases hrec
  | call k c op =>
      cases op with
      | addSlab pfn =>
          cases hrec
          exact hfresh hlegal.2.2
      | alloc => cases hrec
      | free p => cases hrec
      | flushFreeList amount => cases hrec
      | claimRemoteFreeList => cases hrec

/-- What is passed back is a slab on its way back, with the order of the root.
Source: `sys/slab_allocator.cpp` `SlabCache::FlushFreeList`
Kind: L -/
theorem passed_spec {order : ℕ} (hpass : passed root s a = some (b, order)) :
    order = root.order ∧ ∃ k, b ∈ releasing (s.cpus k).stack := by
  unfold passed at hpass
  split at hpass
  · rename_i k page
    split at hpass
    · rename_i pfn frames hstack
      cases hpass
      refine ⟨rfl, k, ?_⟩
      rw [hstack]
      exact List.mem_cons_self
    · cases hpass
  · cases hpass

/-- The blocks after a change. Source: `sys/slab_allocator.cpp` `SlabCache`. Kind: L -/
theorem Change.mem_blocks (hchange : Change root s a s') (h : Inv root [] s) (b : ℕ) :
    b ∈ s'.blocks ↔ received s a = some b ∨ b ∈ s.blocks ∧ Slab.passed root s a ≠ some (b, root.order) := by
  have hsame : received s a = none → Slab.passed root s a = none → s'.blocks = s.blocks →
      (b ∈ s'.blocks ↔ received s a = some b ∨ b ∈ s.blocks ∧ Slab.passed root s a ≠ some (b, root.order)) := by
    intro hrec hpass hblocks
    rw [hrec, hpass, hblocks]
    exact ⟨fun hb => Or.inr ⟨hb, nofun⟩, fun hb => (hb.resolve_left nofun).1⟩
  cases hchange with
  | still hrec hpass hstill => exact hsame hrec hpass hstill.blocks
  | taken _ hrec hpass _ hblocks => exact hsame hrec hpass hblocks
  | put _ _ hrec hpass _ _ _ _ hblocks => exact hsame hrec hpass hblocks
  | added b₀ hrec hpass _ hblocks =>
      rw [hrec, hpass, hblocks, List.mem_cons, Option.some.injEq]
      exact or_congr ⟨Eq.symm, Eq.symm⟩ ⟨fun hb => ⟨hb, nofun⟩, fun hb => hb.1⟩
  | passed k b₀ hrec hpass _ hblocks =>
      rw [hrec, hpass, hblocks, h.nodup.mem_erase_iff]
      constructor
      · rintro ⟨hne, hb⟩
        exact Or.inr ⟨hb, fun heq => hne (Prod.mk.inj (Option.some.inj heq)).1.symm⟩
      · rintro (hnone | ⟨hb, hne⟩)
        · cases hnone
        · exact ⟨fun heq => hne (by rw [heq]), hb⟩

/-- A slab is on its way back from the change that brings its counter to zero.
Source: `sys/slab_allocator.cpp` `SlabCache::FlushFreeList`
Kind: L -/
theorem Change.begins (hchange : Change root s a s') (h : Inv root [] s) (hlegal : CacheLegal root s a)
    (k b : ℕ) : b ∈ releasing (s'.cpus k).stack ∧ b ∉ releasing (s.cpus k).stack ↔
      InFlush k s a ∧ b ∈ s.blocks ∧ 0 < (s.data b).used ∧ (s'.data b).used = 0 := by
  have hnot : ∀ used' : ℕ, used' = (s.data b).used → ¬ (0 < (s.data b).used ∧ used' = 0) := by
    intro used' heq
    omega
  cases hchange with
  | still hrec hpass hstill =>
      rw [hstill.releasing]
      exact ⟨fun hk => absurd hk.1 hk.2, fun hk => absurd hk.2.2 (hnot _ (hstill.used b))⟩
  | taken b₀ hrec hpass hused hblocks hrel =>
      rw [hrel]
      refine ⟨fun hk => absurd hk.1 hk.2, fun hk => ?_⟩
      have hb := hused b
      split at hb
      · omega
      · exact absurd hk.2.2 (hnot _ hb)
  | put k₀ b₀ hrec hpass hflush hb₀ hpos hused hblocks hrel hother =>
      by_cases hk : k = k₀
      · subst hk
        rw [hrel]
        constructor
        · rintro ⟨hmem, hnmem⟩
          split at hmem
          · rename_i hone
            obtain rfl := (List.mem_cons.mp hmem).resolve_right hnmem
            refine ⟨hflush, hb₀, hpos, ?_⟩
            rw [hused, if_pos rfl, hone]
          · exact absurd hmem hnmem
        · rintro ⟨-, hb, hpos', hzero⟩
          have hnrel : b ∉ releasing (s.cpus k).stack := by
            intro hk
            have := (h.of_mem_releasing hk).2.1
            omega
          have hb' := hused b
          split at hb'
          · rename_i heq
            subst heq
            rw [if_pos (by omega)]
            exact ⟨List.mem_cons_self, hnrel⟩
          · exact absurd ⟨hpos', hzero⟩ (hnot _ hb')
      · rw [hother k hk]
        refine ⟨fun hk' => absurd hk'.1 hk'.2, fun hk' => absurd ?_ hk⟩
        -- one CPU runs in a step
        obtain ⟨⟨page, _, _, _, ha, _⟩, -⟩ := hk'
        obtain ⟨page₀, _, _, _, ha₀, _⟩ := hflush
        rw [ha] at ha₀
        exact (Step.run.inj (CacheStep.system.inj ha₀)).1
  | added b₀ hrec hpass hused hblocks hrel =>
      rw [hrel]
      refine ⟨fun hk => absurd hk.1 hk.2, fun hk => ?_⟩
      have hne : b ≠ b₀ := fun heq => (received_spec hlegal hrec).2 (heq ▸ hk.2.1)
      exact absurd hk.2.2 (hnot _ (hused b hne))
  | passed k₀ b₀ hrec hpass hused hblocks hrel hother =>
      refine ⟨fun hk => ?_, fun hk => absurd hk.2.2 (hnot _ (hused b))⟩
      by_cases hk₀ : k = k₀
      · subst hk₀
        rw [hrel] at hk
        exact absurd (List.mem_cons_of_mem b₀ hk.1) hk.2
      · rw [hother k hk₀] at hk
        exact absurd hk.1 hk.2

/-- It stays there until it is passed. Source: `sys/slab_allocator.cpp` `SlabCache::FlushFreeList`. Kind: L -/
theorem Change.ends (hchange : Change root s a s') (k : ℕ) {b : ℕ} (hb : b ∈ releasing (s.cpus k).stack) :
    b ∈ releasing (s'.cpus k).stack ∨ Slab.passed root s a = some (b, root.order) := by
  cases hchange with
  | still hrec hpass hstill => exact Or.inl (hstill.releasing k ▸ hb)
  | taken b₀ hrec hpass hused hblocks hrel => exact Or.inl (hrel k ▸ hb)
  | put k₀ b₀ hrec hpass hflush hb₀ hpos hused hblocks hrel hother =>
      by_cases hk : k = k₀
      · subst hk
        rw [hrel]
        split
        · exact Or.inl (List.mem_cons_of_mem b₀ hb)
        · exact Or.inl hb
      · exact Or.inl (hother k hk ▸ hb)
  | added b₀ hrec hpass hused hblocks hrel => exact Or.inl (hrel k ▸ hb)
  | passed k₀ b₀ hrec hpass hused hblocks hrel hother =>
      by_cases hk : k = k₀
      · subst hk
        rw [hrel] at hb
        rcases List.mem_cons.mp hb with rfl | hb
        · exact Or.inr hpass
        · exact Or.inl hb
      · exact Or.inl (hother k hk ▸ hb)

/-- The books over one change.
Source: `sys/slab_allocator.cpp` `SlabCache`
Kind: P -/
theorem Change.accounts (hchange : Change root s a s') (h : Inv root [] s)
    (hlegal : CacheLegal root s a) : Accounts root s a s' where
  blocks b := hchange.mem_blocks h b
  handed b hrec := received_spec hlegal hrec
  back b order hpass := by
    obtain ⟨horder, k, hk⟩ := passed_spec hpass
    exact ⟨horder, (h.of_mem_releasing hk).1, k, hk⟩
  begins k b := hchange.begins h hlegal k b
  ends k b hb := hchange.ends k hb

/-- The assertions of `SlabCache::Alloc` hold.
Source: `sys/slab_allocator.cpp` `SlabCache::Alloc`
Kind: L -/
theorem Good.alloc_isSome (h : Good root s) (halloc : AtAlloc s a) :
    (Slab.cacheStep root topo s a).isSome := by
  obtain ⟨k, page, second, frames, rfl, hstack⟩ := halloc
  have hframes : frames = [] := by
    cases h.shape hstack
    rfl
  subst hframes
  obtain ⟨t, ht, -⟩ : ∃ t, allocPartial root k second (s.cpus k).target [] s = some t ∧ Inv root [] t :=
    h.inv.allocPartial (by rw [hstack]; rfl) (show releasing [] = [] from rfl)
  rw [Slab.cacheStep, Slab.step, hstack]
  simp only [runFrame]
  split
  · rfl
  split
  · rfl
  · rw [ht]
    rfl

/-- **The books of the slab caches.** Whatever functions of whatever caches are called, between the
calls and steps of the allocators: in every reachable state the counters and the partial lists are
right, and a slab on its way back has all of its objects; the assertions of `Alloc` hold; and a slab
is taken off the list and passed to the page allocator, as it was received, when a turn of
`FlushFreeList` has brought its counter to zero and only then.
Source: `sys/slab_allocator.cpp` `SlabCache`
Kind: C -/
theorem slabBookkeeping (root : SlabAllocatorRoot) (topo : Topology) (boot : ℕ → SlabData)
    (as : List CacheStep) (s : State) (hrun : (cacheSystem root topo).Run (State.init boot) as s) :
    Bookkept root s ∧ ∀ a, CacheLegal root s a → (AtAlloc s a → (cacheStep root topo s a).isSome) ∧
      ∀ s', cacheStep root topo s a = some s' → Accounts root s a s' := by
  have hgood : Good root s :=
    hrun.invariant (Good.init boot) fun _ _ _ hs hlegal hstep => hs.cacheStep hlegal hstep
  refine ⟨hgood.bookkept, fun a hlegal => ⟨hgood.alloc_isSome, fun s' hstep => ?_⟩⟩
  exact (change_step hgood hlegal hstep).accounts hgood.inv hlegal

/-! ## A run with a slab that comes and goes -/

instance (s : State) (op : CacheOp) : Decidable (CacheOpLegal root s op) := by
  cases op <;> unfold CacheOpLegal <;> infer_instance

instance (s : State) (k : ℕ) : ∀ c, Decidable (Holds s k c)
  | .cpu i => decidable_of_iff (i = k)
      ⟨fun h => Or.inl (by rw [h]), fun h => h.elim CacheId.cpu.inj fun ⟨_, h, _⟩ => absurd h nofun⟩
  | .node nid => decidable_of_iff (s.locks nid = some k)
      ⟨fun h => Or.inr ⟨nid, rfl, h⟩, fun h => h.elim (absurd · nofun)
        fun ⟨_, hnode, h⟩ => CacheId.node.inj hnode ▸ h⟩

instance (s : State) : ∀ a : CacheStep, Decidable ((cacheSystem root topo).legal s a)
  | .system a => inferInstanceAs (Decidable (Legal root s a))
  | .lock _ _ => inferInstanceAs (Decidable (_ ∧ _))
  | .unlock _ _ => inferInstanceAs (Decidable (_ ∧ _))
  | .call _ _ _ => inferInstanceAs (Decidable (_ ∧ _ ∧ _))

/-- Objects of 2 KB: two in a slab of one page.
Source: `sys/slab_allocator.cpp` `SlabAllocatorRoot::SlabAllocatorRoot`
Kind: D -/
def rootOf2K : SlabAllocatorRoot where
  align := 8
  size := 2048
  order := 0
  freeBatch := 128
  hiwater := 512
  size_pos := by decide
  order_eq := by decide +kernel
  freeBatch_eq := by decide +kernel
  hiwater_eq := rfl

/-- CPU 1 adds a slab to node 0's cache under the lock; CPU 0 allocates both objects of a slab of its
own, frees them and flushes its list.
Source: none: infrastructure
Kind: D -/
def comesAndGoes : List CacheStep :=
  [.lock 1 0, .call 1 (.node 0) (.addSlab 65), .unlock 1 0,
    .system (.call 0 (.alloc 0)), .system (.run 0 none), .system (.run 0 (some 64)),
    .system (.run 0 none), .call 0 (.cpu 0) .alloc, .system (.run 0 none),
    .call 0 (.cpu 0) (.free 262144), .system (.call 0 (.free 264192)),
    .call 0 (.cpu 0) (.flushFreeList 5), .system (.run 0 none), .system (.run 0 none)]

/-- The slab has no used object any more and is passed back; the node's slab stays.
Source: `sys/slab_allocator.cpp` `SlabCache::FlushFreeList`
Kind: P -/
theorem slabBookkeeping_comesAndGoes :
    ∃ s s', (cacheSystem rootOf2K spread).Run (State.init blank) comesAndGoes s ∧
      cacheStep rootOf2K spread s (.system (.run 0 none)) = some s' ∧
      passed rootOf2K s (.system (.run 0 none)) = some (64, 0) ∧ s'.blocks = [65] ∧
      Bookkept rootOf2K s ∧ Accounts rootOf2K s (.system (.run 0 none)) s' := by
  have hadmits : (cacheSystem rootOf2K spread).Admits (State.init blank)
      (comesAndGoes ++ [.system (.run 0 none)]) := by decide +kernel
  have hgone : ((cacheSystem rootOf2K spread).exec (State.init blank) comesAndGoes).map (fun s =>
      (passed rootOf2K s (.system (.run 0 none)),
        (cacheStep rootOf2K spread s (.system (.run 0 none))).map State.blocks)) =
      some (some (64, 0), some [65]) := by decide +kernel
  obtain ⟨s, s', hexec, hrun, hlegal, hstep⟩ := hadmits.last
  have hstep : cacheStep rootOf2K spread s (.system (.run 0 none)) = some s' := hstep
  rw [hexec, Option.map_some, hstep, Option.map_some, Option.some.injEq, Prod.mk.injEq,
    Option.some.injEq] at hgone
  obtain ⟨hbooks, hall⟩ := slabBookkeeping rootOf2K spread blank comesAndGoes s hrun
  exact ⟨s, s', hrun, hstep, hgone.1, hgone.2, hbooks, (hall (.system (.run 0 none)) hlegal).2 s' hstep⟩

end Slab

end EbbRT
