import EbbRT.Mem.SlabInv
import EbbRT.Mem.SlabSteps

/-!
# Runs of the slab allocator

Which frames can be on a CPU's stack (`Shape`), and that no two CPUs work on one cache (`Owns`):
a CPU works on its own cache, or on a node's while it holds the node's lock. What a function leaves
alone is said once (`Quiet`). With that every step keeps both the invariant of the places and the
shape of the stacks, and `slab_always` reads the conservation of the objects off every run.
-/

namespace EbbRT

namespace Slab

open EbbRT.Lib

/-! ## The stacks -/

/-- What may be under `FlushFreeList(amount)` after `freed` turns, on a cache with `len` objects in
its `object_list_`: nothing, or the loop of `SlabCache::Alloc` over `hiwater`.
Source: `sys/slab_allocator.cpp` `SlabCache::Alloc`, `SlabCache::Free`
Kind: D -/
inductive Under (root : SlabAllocatorRoot) (len : ℕ) (check : Bool) : ℕ → ℕ → List Frame → Prop
  | top (freed amount : ℕ) : Under root len check freed amount []
  | alloc (freed : ℕ) (second : Bool) (hcheck : check = true) (hfreed : freed ≤ root.freeBatch)
      (hlen : root.hiwater < len + freed) :
      Under root len check freed root.freeBatch [.drain, .alloc second]

/-- The stacks of a CPU that works on a cache with `len` objects in its `object_list_` and the
given `remote_check`.
Source: `sys/slab_allocator.cpp` `SlabCache::Alloc`, `SlabCache::FlushFreeList`
Kind: D -/
inductive Shape (root : SlabAllocatorRoot) (len : ℕ) (check : Bool) : List Frame → Prop
  | idle : Shape root len check []
  | lock : Shape root len check [.lock]
  | alloc (second : Bool) : Shape root len check [.alloc second]
  | nullptr (second : Bool) : Shape root len check [.nullptr second]
  | claim : Shape root len check [.claim]
  | claimIn (second : Bool) (hcheck : check = true) (hlen : len = 0) :
      Shape root len check [.claim, .drain, .alloc second]
  | drain (second : Bool) (hcheck : check = true) : Shape root len check [.drain, .alloc second]
  | flush {freed amount : ℕ} {frames : List Frame} (h : Under root len check freed amount frames) :
      Shape root len check (.flush freed amount :: frames)
  | release (pfn : ℕ) {freed amount : ℕ} {frames : List Frame}
      (h : Under root len check freed amount frames) :
      Shape root len check (.release pfn :: .flush freed amount :: frames)
  | flushRemote : Shape root len check [.flushRemote]
  | flushRemoteIn {freed amount : ℕ} {frames : List Frame}
      (h : Under root len check freed amount frames) :
      Shape root len check (.flushRemote :: .flush freed amount :: frames)

/-- The CPU is idle, or the cache it works on is its own, or a node's whose lock it holds or waits
for.
Source: `sys/slab_allocator.cpp` `SlabAllocatorNode::Alloc`
Kind: D -/
def Owns (s : State) (k : ℕ) : Prop :=
  (s.cpus k).stack = [] ∨ (s.cpus k).target = .cpu k ∨
    ∃ nid, (s.cpus k).target = .node nid ∧ ((s.cpus k).stack = [.lock] ∨ s.locks nid = some k)

/-- Only this CPU may touch the cache's own lists.
Source: `sys/slab_allocator.cpp` `SlabAllocatorNode::Alloc`
Kind: D -/
def Holds (s : State) (k : ℕ) (c : CacheId) : Prop :=
  c = .cpu k ∨ ∃ nid, c = .node nid ∧ s.locks nid = some k

/-- The stack of a CPU has a shape that fits the cache it works on.
Source: `sys/slab_allocator.cpp` `SlabCache::Alloc`
Kind: D -/
def ShapeOf (root : SlabAllocatorRoot) (s : State) (k : ℕ) : Prop :=
  Shape root (s.caches (s.cpus k).target).objectList.length
    (s.caches (s.cpus k).target).remoteCheck (s.cpus k).stack

/-- What holds of the stacks, the locks and the marks between the steps.
Source: `sys/slab_allocator.cpp` `SlabAllocator`, `SlabAllocatorNode`
Kind: D -/
structure Wf (root : SlabAllocatorRoot) (s : State) : Prop where
  shape : ∀ k, ShapeOf root s k
  owns : ∀ k, Owns s k
  batch : ∀ c, (s.caches c).remoteCheck = true → 0 < root.freeBatch

variable {root : SlabAllocatorRoot} {s s' s'' : State} {k o b : ℕ} {c : CacheId}

/-- Before the first call. Source: `sys/slab_allocator.cpp` `SlabCache::SlabCache`. Kind: L -/
theorem Wf.init (boot : ℕ → SlabData) : Wf root (State.init boot) where
  shape _ := Shape.idle
  owns _ := Or.inl rfl
  batch _ h := absurd h (by simp [State.init])

/-- A mark that is set later does not hurt.
Source: `sys/slab_allocator.cpp` `SlabAllocator::FlushRemoteList`
Kind: L -/
theorem Under.mark {len freed amount : ℕ} {check check' : Bool} {frames : List Frame}
    (h : Under root len check freed amount frames) (hmark : check = true → check' = true) :
    Under root len check' freed amount frames := by
  cases h with
  | top => exact Under.top _ _
  | alloc second hcheck hfreed hlen => exact Under.alloc _ second (hmark hcheck) hfreed hlen

/-- A mark that is set later does not hurt.
Source: `sys/slab_allocator.cpp` `SlabAllocator::FlushRemoteList`
Kind: L -/
theorem Shape.mark {len : ℕ} {check check' : Bool} {frames : List Frame}
    (h : Shape root len check frames) (hmark : check = true → check' = true) :
    Shape root len check' frames := by
  cases h with
  | idle => exact Shape.idle
  | lock => exact Shape.lock
  | alloc second => exact Shape.alloc second
  | nullptr second => exact Shape.nullptr second
  | claim => exact Shape.claim
  | claimIn second hcheck hlen => exact Shape.claimIn second (hmark hcheck) hlen
  | drain second hcheck => exact Shape.drain second (hmark hcheck)
  | flush h => exact Shape.flush (h.mark hmark)
  | release pfn h => exact Shape.release pfn (h.mark hmark)
  | flushRemote => exact Shape.flushRemote
  | flushRemoteIn h => exact Shape.flushRemoteIn (h.mark hmark)

/-- No frame under the innermost one releases a slab.
Source: `sys/slab_allocator.cpp` `SlabCache::FlushFreeList`
Kind: L -/
theorem Under.releasing_eq {len freed amount : ℕ} {check : Bool} {frames : List Frame}
    (h : Under root len check freed amount frames) : releasing frames = [] := by
  cases h <;> rfl

/-- **One CPU steps**: the others keep their frames, the lists of a cache that the CPU does not hold
keep their length, marks stay, locks of others stay.
Source: `sys/slab_allocator.cpp` `SlabAllocator`, `SlabAllocatorNode`
Kind: P -/
theorem Wf.of_step (h : Wf root s) (hcpus : ∀ k', k' ≠ k → s'.cpus k' = s.cpus k')
    (hlists : ∀ c, (s'.caches c).objectList.length = (s.caches c).objectList.length ∨ Holds s k c)
    (hmark : ∀ c, (s.caches c).remoteCheck = true → (s'.caches c).remoteCheck = true)
    (hbatch : ∀ c, (s'.caches c).remoteCheck = true →
      (s.caches c).remoteCheck = true ∨ 0 < root.freeBatch)
    (hlocks : ∀ nid k', k' ≠ k → s.locks nid = some k' → s'.locks nid = some k')
    (hshape : ShapeOf root s' k) (howns : Owns s' k) : Wf root s' where
  shape k' := by
    by_cases hk : k' = k
    · exact hk ▸ hshape
    · have hshape' := h.shape k'
      rw [ShapeOf] at hshape' ⊢
      rw [hcpus k' hk]
      rcases hlists (s.cpus k').target with hlen | hheld
      · rw [hlen]
        exact hshape'.mark (hmark _)
      · -- the CPU holds the cache that the other one works on: the other one is idle or waits
        rcases h.owns k' with hidle | hown | ⟨nid, hown, hwait | hlock⟩
        · rw [hidle]
          exact Shape.idle
        · rw [hown] at hheld
          rcases hheld with hcpu | ⟨nid, hnode, _⟩
          · exact absurd (CacheId.cpu.inj hcpu) hk
          · exact absurd hnode nofun
        · rw [hwait]
          exact Shape.lock
        · rw [hown] at hheld
          rcases hheld with hcpu | ⟨nid', hnode, hlock'⟩
          · exact absurd hcpu nofun
          · rw [← CacheId.node.inj hnode, hlock] at hlock'
            exact absurd (Option.some.inj hlock') hk
  owns k' := by
    by_cases hk : k' = k
    · exact hk ▸ howns
    · have howns' := h.owns k'
      rw [Owns] at howns' ⊢
      rw [hcpus k' hk]
      exact howns'.imp_right fun h' => h'.imp_right fun ⟨nid, htarget, h''⟩ =>
        ⟨nid, htarget, h''.imp_right (hlocks nid k' hk)⟩
  batch c hc := (hbatch c hc).elim (h.batch c) id

/-! ## What the functions leave alone -/

/-- Only the running CPU's own frames change, and of the caches neither an `object_list_` nor a mark
that is set.
Source: `sys/slab_allocator.cpp` `SlabAllocator::FreeRemote`
Kind: D -/
structure Quiet (root : SlabAllocatorRoot) (k : ℕ) (s s' : State) : Prop where
  cpus : ∀ k', k' ≠ k → s'.cpus k' = s.cpus k'
  target : (s'.cpus k).target = (s.cpus k).target
  locks : s'.locks = s.locks
  objectList : ∀ c, (s'.caches c).objectList = (s.caches c).objectList
  mark : ∀ c, (s.caches c).remoteCheck = true → (s'.caches c).remoteCheck = true
  batch : ∀ c, (s'.caches c).remoteCheck = true →
    (s.caches c).remoteCheck = true ∨ 0 < root.freeBatch

namespace Quiet

/-- Source: none: infrastructure. Kind: L -/
theorem refl : Quiet root k s s where
  cpus _ _ := rfl
  target := rfl
  locks := rfl
  objectList _ := rfl
  mark _ h := h
  batch _ h := Or.inl h

/-- Source: none: infrastructure. Kind: L -/
theorem trans (h : Quiet root k s s') (h' : Quiet root k s' s'') : Quiet root k s s'' where
  cpus k' hk := (h'.cpus k' hk).trans (h.cpus k' hk)
  target := h'.target.trans h.target
  locks := h'.locks.trans h.locks
  objectList c := (h'.objectList c).trans (h.objectList c)
  mark c hc := h'.mark c (h.mark c hc)
  batch c hc := (h'.batch c hc).elim (h.batch c) Or.inr

/-- Writing the CPU. Source: none: infrastructure. Kind: L -/
theorem setCpu {v : SlabAllocator} (hv : v.target = (s.cpus k).target) :
    Quiet root k s (s.setCpu k v) where
  cpus _ hk := Function.update_of_ne hk _ _
  target := by rw [State.setCpu_cpus, Function.update_self, hv]
  locks := rfl
  objectList _ := rfl
  mark _ h := h
  batch _ h := Or.inl h

/-- Writing a cache, its `object_list_` aside. Source: none: infrastructure. Kind: L -/
theorem setCache {v : SlabCache} (hlist : v.objectList = (s.caches c).objectList)
    (hmark : (s.caches c).remoteCheck = true → v.remoteCheck = true)
    (hbatch : v.remoteCheck = true → (s.caches c).remoteCheck = true ∨ 0 < root.freeBatch) :
    Quiet root k s (s.setCache c v) where
  cpus _ _ := rfl
  target := rfl
  locks := rfl
  objectList c' := by
    rw [State.setCache_caches]
    by_cases hc : c' = c
    · subst hc
      rw [Function.update_self, hlist]
    · rw [Function.update_of_ne hc]
  mark c' := by
    rw [State.setCache_caches]
    by_cases hc : c' = c
    · subst hc
      rw [Function.update_self]
      exact hmark
    · rw [Function.update_of_ne hc]
      exact id
  batch c' := by
    rw [State.setCache_caches]
    by_cases hc : c' = c
    · subst hc
      rw [Function.update_self]
      exact hbatch
    · rw [Function.update_of_ne hc]
      exact Or.inl

/-- Writing a partial list. Source: none: infrastructure. Kind: L -/
theorem setPartial (pages : List ℕ) :
    Quiet root k s (s.setCache c { s.caches c with partialPageList := pages }) := by
  refine setCache ?_ ?_ ?_
  · rfl
  · exact id
  · exact Or.inl

/-- Neither the CPUs nor the caches nor the locks change.
Source: none: infrastructure
Kind: L -/
theorem of_caches (hcpus : s'.cpus = s.cpus) (hcaches : s'.caches = s.caches)
    (hlocks : s'.locks = s.locks) : Quiet root k s s' where
  cpus _ _ := by rw [hcpus]
  target := by rw [hcpus]
  locks := hlocks
  objectList _ := by rw [hcaches]
  mark c h := by rwa [hcaches]
  batch c h := Or.inl (by rwa [hcaches] at h)

/-- The frames change after a cache, or before it.
Source: none: infrastructure
Kind: L -/
theorem setStack_setCache (frames : List Frame) (v : SlabCache) :
    Quiet root k (s.setCache c v) ((s.setStack k frames).setCache c v) where
  cpus _ hk := Function.update_of_ne hk _ _
  target := by
    simp only [State.setCache_cpus, State.setStack_cpus, Function.update_self]
  locks := rfl
  objectList _ := rfl
  mark _ h := h
  batch _ h := Or.inl h

/-- Source: `sys/slab_allocator.cpp` `SlabCache::AddSlab`
Kind: L -/
theorem addSlab : Quiet root k s (addSlab root c b s) := by
  have hdata : Quiet root k s { s with
      data := (root.objects b).foldl (addObject c b)
        (Function.update s.data b { s.data b with list := [], used := 0 }) } := of_caches rfl rfl rfl
  exact hdata.trans (setPartial _)

/-- Calling one more function. Source: none: infrastructure. Kind: L -/
theorem push (frame : Frame) : Quiet root k s (s.push k frame) := by
  refine setCpu ?_
  rfl

/-- Source: `sys/slab_allocator.cpp` `SlabAllocator::FlushRemoteList`
Kind: L -/
theorem flushRemoteList : Quiet root k s (flushRemoteList root k s) := by
  rw [Slab.flushRemoteList]
  split
  · exact refl
  · refine Quiet.trans (setCache ?_ ?_ ?_) (setCpu rfl)
    · rfl
    · intro h
      rw [SlabCache.receive_remoteCheck, h, ite_self]
    · intro h
      rw [SlabCache.receive_remoteCheck] at h
      split at h
      · rename_i hcross
        exact Or.inr (Nat.zero_lt_of_lt hcross.1)
      · exact Or.inl h

/-- Source: `sys/slab_allocator.cpp` `SlabAllocator::FreeRemote`
Kind: L -/
theorem turnTo : Quiet root k s (turnTo root k c s) := by
  rw [Slab.turnTo]
  split
  · exact flushRemoteList.trans (setCpu rfl)
  · exact refl

/-- Source: `sys/slab_allocator.cpp` `SlabAllocator::FreeRemote`
Kind: L -/
theorem freeRemote : Quiet root k s (freeRemote root k o s) := by
  rw [Slab.freeRemote]
  simp only
  split
  · refine turnTo.trans (Quiet.trans (setCpu ?_) (push _))
    rfl
  · refine turnTo.trans (setCpu ?_)
    rfl

/-- Source: `sys/slab_allocator.cpp` `SlabCache::FlushFreeList`
Kind: L -/
theorem flushObject : Quiet root k s (flushObject root k c o s) := by
  have hdata : ∀ (t : State) (pfn : ℕ) (d : SlabData), Quiet root k t (t.setData pfn d) := by
    intro t pfn d
    exact of_caches rfl rfl rfl
  rw [Slab.flushObject]
  simp only
  split
  · exact freeRemote
  split
  · split
    · exact (hdata s _ _).trans (Quiet.trans (setPartial _) (push _))
    · exact (hdata s _ _).trans (push _)
  split
  · exact (hdata s _ _).trans (setPartial _)
  · exact hdata s _ _

end Quiet

/-! ## The stacks after a function -/

/-- Source: `sys/slab_allocator.cpp` `SlabAllocator::FlushRemoteList`
Kind: L -/
theorem flushRemoteList_stack : ((flushRemoteList root k s).cpus k).stack = (s.cpus k).stack := by
  rw [flushRemoteList]
  split
  · rfl
  · rw [State.setCpu_cpus, Function.update_self]

/-- Source: `sys/slab_allocator.cpp` `SlabCache::FlushFreeList`
Kind: L -/
theorem release_stack (b : ℕ) (s : State) (frames : List Frame) :
    ((release b (s.setStack k frames)).cpus k).stack = frames := by
  show ((s.setStack k frames).cpus k).stack = frames
  rw [State.setStack_cpus, Function.update_self]

/-- Source: `sys/slab_allocator.cpp` `SlabAllocator::FreeRemote`
Kind: L -/
theorem turnTo_stack : ((turnTo root k c s).cpus k).stack = (s.cpus k).stack := by
  rw [turnTo]
  split
  · simp only [State.setCpu_cpus, Function.update_self]
    exact flushRemoteList_stack
  · rfl

/-- Source: none: infrastructure. Kind: L -/
theorem push_stack (frame : Frame) : ((s.push k frame).cpus k).stack = frame :: (s.cpus k).stack := by
  rw [State.push_cpus, Function.update_self]

/-- At most the last flush is left of `FreeRemote`.
Source: `sys/slab_allocator.cpp` `SlabAllocator::FreeRemote`
Kind: L -/
theorem freeRemote_stack (root : SlabAllocatorRoot) (k o : ℕ) (s : State) :
    ((freeRemote root k o s).cpus k).stack = (s.cpus k).stack ∨
    ((freeRemote root k o s).cpus k).stack = .flushRemote :: (s.cpus k).stack := by
  rw [freeRemote]
  simp only
  split
  · rw [push_stack, State.setCpu_cpus, Function.update_self, turnTo_stack]
    exact Or.inr rfl
  · rw [State.setCpu_cpus, Function.update_self, turnTo_stack]
    exact Or.inl rfl

/-- At most one function is left of a turn of `FlushFreeList`.
Source: `sys/slab_allocator.cpp` `SlabCache::FlushFreeList`
Kind: L -/
theorem flushObject_stack (root : SlabAllocatorRoot) (k o : ℕ) (c : CacheId) (s : State) :
    ((flushObject root k c o s).cpus k).stack = (s.cpus k).stack ∨
    ((flushObject root k c o s).cpus k).stack = .flushRemote :: (s.cpus k).stack ∨
    ∃ pfn, ((flushObject root k c o s).cpus k).stack = .release pfn :: (s.cpus k).stack := by
  rw [flushObject]
  simp only
  split
  · exact (freeRemote_stack root k o s).imp_right Or.inl
  split
  · refine Or.inr (Or.inr ⟨addrToSlabPfn o root.order, ?_⟩)
    split <;> exact push_stack _
  split <;> exact Or.inl rfl

/-! ## A step keeps the shapes -/

/-- A CPU that is past the lock holds the cache it works on.
Source: `sys/slab_allocator.cpp` `SlabAllocatorNode::Alloc`
Kind: L -/
theorem Owns.holds (h : Owns s k) (hne : (s.cpus k).stack ≠ []) (hlock : (s.cpus k).stack ≠ [.lock]) :
    Holds s k (s.cpus k).target := by
  rcases h with h | h | ⟨nid, h, h' | h'⟩
  · exact absurd h hne
  · exact Or.inl h
  · exact absurd h' hlock
  · exact Or.inr ⟨nid, h, h'⟩

/-- Source: `sys/slab_allocator.cpp` `SlabAllocatorNode::Alloc`
Kind: L -/
theorem Holds.owns (h : Holds s k (s.cpus k).target) : Owns s k := by
  rcases h with h | ⟨nid, h, h'⟩
  · exact Or.inr (Or.inl h)
  · exact Or.inr (Or.inr ⟨nid, h, Or.inr h'⟩)

/-- The CPU writes the cache that it holds, then runs functions that leave everything else alone.
Source: `sys/slab_allocator.cpp` `SlabCache::Alloc`, `SlabCache::FlushFreeList`
Kind: L -/
theorem Wf.of_hold (h : Wf root s) {v : SlabCache} (hold : Holds s k (s.cpus k).target)
    (hq : Quiet root k (s.setCache (s.cpus k).target v) s')
    (hv : v.remoteCheck = (s.caches (s.cpus k).target).remoteCheck)
    (hshape : Shape root v.objectList.length v.remoteCheck (s'.cpus k).stack) : Wf root s' := by
  have hself : (s.setCache (s.cpus k).target v).caches (s.cpus k).target = v :=
    Function.update_self _ _ _
  have hother : ∀ c, c ≠ (s.cpus k).target →
      (s.setCache (s.cpus k).target v).caches c = s.caches c := fun c hc => Function.update_of_ne hc _ _
  have hcheck : ∀ c, ((s.setCache (s.cpus k).target v).caches c).remoteCheck =
      (s.caches c).remoteCheck := by
    intro c
    by_cases hc : c = (s.cpus k).target
    · rw [hc, hself, hv]
    · rw [hother c hc]
  refine h.of_step (k := k) hq.cpus (fun c => ?_) (fun c hc => ?_) (fun c hc => ?_) ?_ ?_ ?_
  · by_cases hc : c = (s.cpus k).target
    · exact Or.inr (hc ▸ hold)
    · rw [hq.objectList c, hother c hc]
      exact Or.inl rfl
  · exact hq.mark c ((hcheck c).trans hc)
  · rw [← hcheck c]
    exact hq.batch c hc
  · intro nid k' _ hlock
    rw [hq.locks]
    exact hlock
  · rw [ShapeOf, hq.target, hq.objectList]
    show Shape root ((s.setCache (s.cpus k).target v).caches (s.cpus k).target).objectList.length _ _
    rw [hself]
    refine hshape.mark fun hc => ?_
    have := hq.mark (s.cpus k).target (by rw [hself]; exact hc)
    exact this
  · refine Holds.owns ?_
    rw [hq.target]
    exact hold.imp_right fun ⟨nid, htarget, hlock⟩ => ⟨nid, htarget, by rw [hq.locks]; exact hlock⟩

/-- The CPU runs functions that leave everything else alone.
Source: `sys/slab_allocator.cpp` `SlabCache::FlushFreeList`
Kind: L -/
theorem Wf.of_quiet (h : Wf root s) (hold : Holds s k (s.cpus k).target) (hq : Quiet root k s s')
    (hshape : Shape root (s.caches (s.cpus k).target).objectList.length
      (s.caches (s.cpus k).target).remoteCheck (s'.cpus k).stack) : Wf root s' := by
  refine h.of_hold hold (v := s.caches (s.cpus k).target) ?_ rfl hshape
  rwa [State.setCache, Function.update_eq_self]

/-- What is left when a call returns: no frames, and of the locks all that another CPU holds.
Source: `sys/slab_allocator.cpp` `SlabAllocatorNode::Alloc`
Kind: L -/
theorem finish_spec (hold : Holds s k (s.cpus k).target) :
    (finish k s).caches = s.caches ∧ (finish k s).cpus = (s.setStack k []).cpus ∧
      ∀ nid k', k' ≠ k → s.locks nid = some k' → (finish k s).locks nid = some k' := by
  rcases hold with hcpu | ⟨nid, hnode, hheld⟩
  · have heq : finish k s = s.setStack k [] := by simp only [finish, hcpu]
    rw [heq]
    exact ⟨rfl, rfl, fun _ _ _ hlock => hlock⟩
  · have heq : finish k s = { s.setStack k [] with locks := Function.update s.locks nid none } := by
      simp only [finish, hnode]
      rfl
    rw [heq]
    refine ⟨rfl, rfl, fun nid' k' hk hlock => ?_⟩
    have hne : nid' ≠ nid := by
      rintro rfl
      rw [hheld] at hlock
      exact hk (Option.some.inj hlock).symm
    exact (Function.update_of_ne hne _ _).trans hlock

/-- A call returns to the client.
Source: `sys/slab_allocator.cpp` `SlabAllocatorNode::Alloc`
Kind: L -/
theorem Wf.finish (h : Wf root s) (hold : Holds s k (s.cpus k).target) : Wf root (finish k s) := by
  obtain ⟨hcaches, hcpus, hlocks⟩ := finish_spec hold
  have hidle : ((Slab.finish k s).cpus k).stack = [] := by
    rw [hcpus, State.setStack_cpus, Function.update_self]
  refine h.of_step (k := k) (fun k' hk => ?_) (fun c => Or.inl (by rw [hcaches]))
    (fun c hc => by rw [hcaches]; exact hc) (fun c hc => Or.inl (by rw [← hcaches]; exact hc))
    hlocks ?_ (Or.inl hidle)
  · rw [hcpus, State.setStack_cpus, Function.update_of_ne hk]
  · rw [ShapeOf, hidle]
    exact Shape.idle

/-- The invariant of the places and the shape of the stacks.
Source: `sys/slab_allocator.cpp` `SlabAllocator`
Kind: D -/
structure Good (root : SlabAllocatorRoot) (s : State) : Prop where
  inv : Inv root [] s
  wf : Wf root s

/-- Before the first call. Source: `sys/slab_allocator.cpp` `SlabCache::SlabCache`. Kind: L -/
theorem Good.init (boot : ℕ → SlabData) : Good root (State.init boot) := ⟨Inv.init boot, Wf.init boot⟩

/-- The CPU's stack is known, and it is past the lock.
Source: none: infrastructure
Kind: L -/
theorem Wf.holds (h : Wf root s) {frame : Frame} {frames : List Frame}
    (hstack : (s.cpus k).stack = frame :: frames) (hframe : frame ≠ .lock) :
    Holds s k (s.cpus k).target := by
  refine (h.owns k).holds (by rw [hstack]; exact List.cons_ne_nil _ _) ?_
  rw [hstack]
  exact fun heq => hframe (List.cons.inj heq).1

/-- `SlabCache::Alloc` in the partial pages: null, or it returns with no `object_list_` changed.
Source: `sys/slab_allocator.cpp` `SlabCache::Alloc`
Kind: L -/
theorem quiet_allocPartial {second : Bool} {frames : List Frame}
    (hstep : allocPartial root k second c frames s = some s') :
    s' = s.setStack k (.nullptr second :: frames) ∨
      ∃ t, Quiet root k s t ∧ (t.cpus k).stack = (s.cpus k).stack ∧ s' = finish k t := by
  rcases allocPartial_cases hstep with hnull | ⟨b, pages, o, d, t, -, rfl | rfl, -, -, rfl⟩
  · exact Or.inl hnull
  · refine Or.inr ⟨_, ?_, ?_, rfl⟩
    · exact Quiet.of_caches rfl rfl rfl
    · rfl
  · refine Or.inr ⟨_, Quiet.trans (Quiet.setPartial (c := c) pages) ?_, ?_, rfl⟩
    · exact Quiet.of_caches rfl rfl rfl
    · rfl

/-- `SlabCache::Alloc` in the partial pages keeps the shapes.
Source: `sys/slab_allocator.cpp` `SlabCache::Alloc`
Kind: L -/
theorem Wf.allocPartial (h : Wf root s) {second : Bool} (hstack : (s.cpus k).stack = [.alloc second])
    (hstep : allocPartial root k second (s.cpus k).target [] s = some s') : Wf root s' := by
  have hold := h.holds hstack nofun
  rcases quiet_allocPartial hstep with rfl | ⟨t, hq, htstack, rfl⟩
  · refine h.of_quiet hold (Quiet.setCpu ?_) ?_
    · rfl
    · rw [State.setStack_cpus, Function.update_self]
      exact Shape.nullptr second
  · rw [hstack] at htstack
    have hwf : Wf root t := by
      refine h.of_quiet hold hq ?_
      rw [htstack]
      exact Shape.alloc second
    exact hwf.finish (hwf.holds htstack nofun)

namespace Good

variable {frames : List Frame} {page : Option ℕ}

/-- The shape of a known stack. Source: none: infrastructure. Kind: L -/
theorem shape (h : Good root s) (hstack : (s.cpus k).stack = frames) :
    Shape root (s.caches (s.cpus k).target).objectList.length
      (s.caches (s.cpus k).target).remoteCheck frames := by
  have := h.wf.shape k
  rwa [ShapeOf, hstack] at this

/-- A frame ends and what is under it has a shape.
Source: none: infrastructure
Kind: L -/
theorem setStack (h : Good root s) {frames' : List Frame} (hold : Holds s k (s.cpus k).target)
    (hrel : releasing frames' = releasing (s.cpus k).stack)
    (hshape : Shape root (s.caches (s.cpus k).target).objectList.length
      (s.caches (s.cpus k).target).remoteCheck frames') : Good root (s.setStack k frames') where
  inv := h.inv.setStack hrel
  wf := by
    refine h.wf.of_quiet hold (Quiet.setCpu ?_) ?_
    · rfl
    · rwa [State.setStack_cpus, Function.update_self]

/-- The lock is taken. Source: `sys/slab_allocator.cpp` `SlabAllocatorNode::Alloc`. Kind: L -/
theorem run_lock (h : Good root s) (hstack : (s.cpus k).stack = [.lock]) {nid : ℕ}
    (htarget : (s.cpus k).target = .node nid) (hfree : s.locks nid = none) :
    Good root { s.setStack k [.alloc false] with locks := Function.update s.locks nid (some k) } := by
  have hinv : Inv root [] (s.setStack k [.alloc false]) := h.inv.setStack (by rw [hstack]; rfl)
  refine ⟨?_, ?_⟩
  · refine hinv.of_lists (fun b => ⟨rfl, rfl, rfl⟩) rfl (fun c => rfl) (fun k => rfl)
      (hinv.objects.congr fun p => ?_)
    rcases p with _ | _ | c | k' | c | b <;> exact List.Perm.refl _
  · refine h.wf.of_step (k := k) (fun k' hk => Function.update_of_ne hk _ _) (fun c => Or.inl rfl)
      (fun c hc => hc) (fun c hc => Or.inl hc) (fun nid' k' hk hlock => ?_) ?_ ?_
    · have hne : nid' ≠ nid := by
        rintro rfl
        rw [hfree] at hlock
        cases hlock
      exact (Function.update_of_ne hne _ _).trans hlock
    · rw [ShapeOf]
      simp only [State.setStack_cpus, Function.update_self]
      exact Shape.alloc false
    · refine Or.inr (Or.inr ⟨nid, ?_, Or.inr (Function.update_self _ _ _)⟩)
      simp only [State.setStack_cpus, Function.update_self]
      exact htarget

/-- `Alloc` takes an object off `object_list_`.
Source: `sys/slab_allocator.cpp` `SlabCache::Alloc`
Kind: L -/
theorem run_pop (h : Good root s) {second : Bool} {list : List ℕ}
    (hstack : (s.cpus k).stack = [.alloc second])
    (hlist : (s.caches (s.cpus k).target).objectList = o :: list) :
    Good root (finish k ((s.setCache (s.cpus k).target
      { s.caches (s.cpus k).target with objectList := list }).give o)) := by
  have hold := h.wf.holds hstack nofun
  generalize hv : ({ s.caches (s.cpus k).target with objectList := list } : SlabCache) = v
  have hpop : Inv root [o] (s.setCache (s.cpus k).target v) := hv ▸ h.inv.pop hlist
  have hwf : Wf root ((s.setCache (s.cpus k).target v).give o) := by
    refine h.wf.of_hold hold (v := v) ?_ (by rw [← hv]) ?_
    · exact Quiet.of_caches rfl rfl rfl
    · rw [State.give_cpus, State.setCache_cpus, hstack]
      exact Shape.alloc second
  refine ⟨Inv.finish (hpop.setHeld (List.Perm.refl _)) ?_, hwf.finish hold⟩
  show releasing (s.cpus k).stack = []
  rw [hstack]
  rfl

/-- Source: `sys/slab_allocator.cpp` `SlabCache::AddSlab`. Kind: L -/
theorem run_addSlab (h : Good root s) (hpage : PageLegal root s (some b))
    (hstack : (s.cpus k).stack = [.nullptr false]) :
    Good root (addSlab root (s.cpus k).target b
      { s.setStack k [.alloc true] with blocks := b :: s.blocks }) := by
  have hold := h.wf.holds hstack nofun
  have hinv : Inv root [] (s.setStack k [.alloc true]) := h.inv.setStack (by rw [hstack]; rfl)
  refine ⟨hinv.addSlab hpage, ?_⟩
  have hstack' : Quiet root k s (s.setStack k [.alloc true]) := Quiet.setCpu rfl
  have hblocks : Quiet root k (s.setStack k [.alloc true])
      { s.setStack k [.alloc true] with blocks := b :: s.blocks } := Quiet.of_caches rfl rfl rfl
  refine h.wf.of_quiet hold (hstack'.trans (hblocks.trans Quiet.addSlab)) ?_
  rw [addSlab]
  simp only [State.setCache_cpus, State.setStack_cpus, Function.update_self]
  exact Shape.alloc true

/-- Source: `sys/slab_allocator.cpp` `SlabCache::ClaimRemoteFreeList`. Kind: L -/
theorem run_claim (h : Good root s) (hstack : (s.cpus k).stack = .claim :: frames) :
    Good root (claimRemoteFreeList (s.cpus k).target (s.setStack k frames)) := by
  have hold := h.wf.holds hstack nofun
  have hrel : releasing frames = releasing (s.cpus k).stack := by rw [hstack]; rfl
  refine ⟨(h.inv.setStack hrel).claimRemoteFreeList, ?_⟩
  refine h.wf.of_hold hold (Quiet.setStack_setCache frames _) rfl ?_
  rw [claimRemoteFreeList, State.setCache_cpus, State.setStack_cpus, Function.update_self]
  cases h.shape hstack with
  | claim => exact Shape.idle
  | claimIn second hcheck hlen => exact Shape.drain second hcheck

/-- The flush that is under way. Source: `sys/slab_allocator.cpp` `SlabCache::FlushFreeList`. Kind: L -/
theorem under (h : Good root s) {freed amount : ℕ}
    (hstack : (s.cpus k).stack = .flush freed amount :: frames) :
    Under root (s.caches (s.cpus k).target).objectList.length
      (s.caches (s.cpus k).target).remoteCheck freed amount frames := by
  cases h.shape hstack
  assumption

/-- `FlushFreeList` returns. Source: `sys/slab_allocator.cpp` `SlabCache::FlushFreeList`. Kind: L -/
theorem run_flushed (h : Good root s) {freed amount : ℕ}
    (hstack : (s.cpus k).stack = .flush freed amount :: frames) : Good root (s.setStack k frames) := by
  refine h.setStack (h.wf.holds hstack nofun) (by rw [hstack]; rfl) ?_
  cases h.under hstack with
  | top => exact Shape.idle
  | alloc second hcheck hfreed hlen => exact Shape.drain second hcheck

/-- A turn of `FlushFreeList`. Source: `sys/slab_allocator.cpp` `SlabCache::FlushFreeList`. Kind: L -/
theorem run_flush (h : Good root s) {freed amount : ℕ} {list : List ℕ}
    (hstack : (s.cpus k).stack = .flush freed amount :: frames) (hfreed : freed < amount)
    (hlist : (s.caches (s.cpus k).target).objectList = o :: list) :
    Good root (flushObject root k (s.cpus k).target o
      ((s.setStack k (.flush (freed + 1) amount :: frames)).setCache (s.cpus k).target
        { s.caches (s.cpus k).target with objectList := list })) := by
  have hold := h.wf.holds hstack nofun
  have hunder := h.under hstack
  obtain ⟨t, ht⟩ : ∃ t, t = (s.setStack k (.flush (freed + 1) amount :: frames)).setCache
      (s.cpus k).target { s.caches (s.cpus k).target with objectList := list } := ⟨_, rfl⟩
  rw [← ht]
  have hstackt : (t.cpus k).stack = .flush (freed + 1) amount :: frames := by
    rw [ht, State.setCache_cpus, State.setStack_cpus, Function.update_self]
  have hpop : Inv root [o] t := by
    have hinv : Inv root [] (s.setStack k (.flush (freed + 1) amount :: frames)) :=
      h.inv.setStack (by rw [hstack]; rfl)
    rw [ht]
    exact hinv.pop hlist
  have hq : Quiet root k (s.setCache (s.cpus k).target
      { s.caches (s.cpus k).target with objectList := list }) t := ht ▸ Quiet.setStack_setCache _ _
  -- one object fewer, one turn more
  have hunder' : Under root list.length (s.caches (s.cpus k).target).remoteCheck (freed + 1) amount
      frames := by
    rw [hlist, List.length_cons] at hunder
    cases hunder with
    | top => exact Under.top _ _
    | alloc second hcheck hle hlen => exact Under.alloc _ second hcheck (by omega) (by omega)
  refine ⟨hpop.flushObject, h.wf.of_hold hold (hq.trans Quiet.flushObject) rfl ?_⟩
  rcases flushObject_stack root k o (s.cpus k).target t with
    h' | h' | ⟨pfn, h'⟩
  · rw [h', hstackt]
    exact Shape.flush hunder'
  · rw [h', hstackt]
    exact Shape.flushRemoteIn hunder'
  · rw [h', hstackt]
    exact Shape.release pfn hunder'

/-- Source: `sys/slab_allocator.cpp` `SlabCache::FlushFreeList`
Kind: L -/
theorem run_release (h : Good root s) (hstack : (s.cpus k).stack = .release b :: frames) :
    Good root (release b (s.setStack k frames)) := by
  have hold := h.wf.holds hstack nofun
  have hstack' : Quiet root k s (s.setStack k frames) := Quiet.setCpu rfl
  refine ⟨h.inv.release hstack, h.wf.of_quiet hold (hstack'.trans ?_) ?_⟩
  · exact Quiet.of_caches rfl rfl rfl
  · show Shape root _ _ ((s.setStack k frames).cpus k).stack
    rw [State.setStack_cpus, Function.update_self]
    cases h.shape hstack with
    | release _ hunder => exact Shape.flush hunder

/-- Source: `sys/slab_allocator.cpp` `SlabAllocator::FlushRemoteList`
Kind: L -/
theorem run_flushRemote (h : Good root s) (hstack : (s.cpus k).stack = .flushRemote :: frames) :
    Good root (flushRemoteList root k (s.setStack k frames)) := by
  have hold := h.wf.holds hstack nofun
  have hinv : Inv root [] (s.setStack k frames) := h.inv.setStack (by rw [hstack]; rfl)
  have hstack' : Quiet root k s (s.setStack k frames) := Quiet.setCpu rfl
  refine ⟨hinv.flushRemoteList, h.wf.of_quiet hold (hstack'.trans Quiet.flushRemoteList) ?_⟩
  rw [flushRemoteList_stack, State.setStack_cpus, Function.update_self]
  cases h.shape hstack with
  | flushRemote => exact Shape.idle
  | flushRemoteIn hunder => exact Shape.flush hunder

/-- What is under a frame that is not inside `FlushFreeList`.
Source: `sys/slab_allocator.cpp` `SlabAllocator::Alloc`
Kind: L -/
theorem frames_eq_nil (h : Good root s) {frame : Frame} (hstack : (s.cpus k).stack = frame :: frames)
    (hframe : frame = .lock ∨ (∃ second, frame = .alloc second) ∨ ∃ second, frame = .nullptr second) :
    frames = [] := by
  rcases hframe with rfl | ⟨second, rfl⟩ | ⟨second, rfl⟩ <;> cases h.shape hstack <;> rfl

/-- **A step of a CPU keeps the invariants.**
Source: `sys/slab_allocator.cpp` `SlabCache::Alloc`, `SlabCache::FlushFreeList`
Kind: P -/
theorem run (h : Good root s) {frame : Frame} (hpage : PageLegal root s page)
    (hstack : (s.cpus k).stack = frame :: frames) (hran : Ran root k page s frames frame s') :
    Good root s' := by
  cases hran with
  | lock nid htarget hfree =>
      obtain rfl := h.frames_eq_nil hstack (Or.inl rfl)
      exact h.run_lock hstack htarget hfree
  | spin => exact h
  | pop second o list hlist =>
      obtain rfl := h.frames_eq_nil hstack (Or.inr (Or.inl ⟨second, rfl⟩))
      exact h.run_pop hstack hlist
  | retry second hnil hcheck =>
      obtain rfl := h.frames_eq_nil hstack (Or.inr (Or.inl ⟨second, rfl⟩))
      refine h.setStack (h.wf.holds hstack nofun) (by rw [hstack]; rfl) ?_
      exact Shape.claimIn second hcheck (by rw [hnil]; rfl)
  | partialPage second s' hstep =>
      obtain rfl := h.frames_eq_nil hstack (Or.inr (Or.inl ⟨second, rfl⟩))
      obtain ⟨t, ht, hinv⟩ := h.inv.allocPartial (k := k) (c := (s.cpus k).target)
        (by rw [hstack]; rfl) (show releasing [] = [] from rfl)
      rw [hstep] at ht
      cases ht
      exact ⟨hinv, h.wf.allocPartial hstack hstep⟩
  | noPage =>
      obtain rfl := h.frames_eq_nil hstack (Or.inr (Or.inr ⟨false, rfl⟩))
      exact ⟨h.inv.finish (by rw [hstack]; rfl), h.wf.finish (h.wf.holds hstack nofun)⟩
  | addSlab b heq =>
      obtain rfl := h.frames_eq_nil hstack (Or.inr (Or.inr ⟨false, rfl⟩))
      exact h.run_addSlab (heq ▸ hpage) hstack
  | claim => exact h.run_claim hstack
  | drain hlen =>
      have hold := h.wf.holds hstack nofun
      cases h.shape hstack with
      | drain second hcheck =>
          refine h.setStack hold (by rw [hstack]; rfl) (Shape.flush ?_)
          exact Under.alloc 0 second hcheck (Nat.zero_le _) hlen
  | drained =>
      have hold := h.wf.holds hstack nofun
      cases h.shape hstack with
      | drain second hcheck =>
          exact h.setStack hold (by rw [hstack]; rfl) (Shape.alloc second)
  | flush freed amount o list hfreed hlist => exact h.run_flush hstack hfreed hlist
  | flushed => exact h.run_flushed hstack
  | release pfn => exact h.run_release hstack
  | flushRemote => exact h.run_flushRemote hstack

/-- An idle CPU gets frames that need nothing of the cache.
Source: `sys/slab_allocator.cpp` `SlabAllocator::Alloc`, `SlabAllocator::Free`
Kind: L -/
theorem enter (h : Good root s) {target : CacheId} (hidle : (s.cpus k).stack = [])
    (hrel : releasing frames = []) (hshape : ∀ len check, Shape root len check frames)
    (howns : Holds s k target ∨ ∃ nid, target = .node nid ∧ frames = [.lock]) :
    Good root (s.setCpu k { s.cpus k with target := target, stack := frames }) where
  inv := h.inv.setCpu rfl (by rw [hidle]; exact hrel)
  wf := by
    have hself : (s.setCpu k { s.cpus k with target := target, stack := frames }).cpus k =
        { s.cpus k with target := target, stack := frames } := Function.update_self _ _ _
    refine h.wf.of_step (k := k) (fun k' hk => Function.update_of_ne hk _ _) (fun c => Or.inl rfl)
      (fun c hc => hc) (fun c hc => Or.inl hc) (fun nid k' _ hlock => hlock) ?_ ?_
    · rw [ShapeOf, hself]
      exact hshape _ _
    · rw [Owns, hself]
      rcases howns with (hcpu | ⟨nid, htarget, hlock⟩) | ⟨nid, htarget, hframes⟩
      · exact Or.inr (Or.inl hcpu)
      · exact Or.inr (Or.inr ⟨nid, htarget, Or.inr hlock⟩)
      · exact Or.inr (Or.inr ⟨nid, htarget, Or.inl hframes⟩)

/-- The client passes an object to a CPU, which turns to a cache that it holds.
Source: `sys/slab_allocator.cpp` `SlabAllocator::Free`
Kind: L -/
theorem take (h : Good root s) (hidle : (s.cpus k).stack = []) (hold : Holds s k c) (ho : o ∈ s.held) :
    Inv root [o] ((s.setCpu k { s.cpus k with target := c }).take o) ∧
      Wf root ((s.setCpu k { s.cpus k with target := c }).take o) := by
  have henter := h.enter hidle rfl (fun _ _ => Shape.idle) (Or.inl hold)
  have heq : ({ s.cpus k with target := c, stack := [] } : SlabAllocator) =
      { s.cpus k with target := c } := by simp only [hidle]
  rw [heq] at henter
  refine ⟨henter.inv.setHeld (List.perm_cons_erase ho).symm, henter.wf.of_quiet (k := k) ?_ ?_ ?_⟩
  · rw [State.setCpu_cpus, Function.update_self]
    exact hold
  · exact Quiet.of_caches rfl rfl rfl
  · rw [State.take_cpus, State.setCpu_cpus, Function.update_self]
    show Shape root _ _ (s.cpus k).stack
    rw [hidle]
    exact Shape.idle

/-- Source: `sys/slab_allocator.cpp` `SlabAllocator::FreeRemote`
Kind: L -/
theorem freeRemote (hinv : Inv root [o] s) (hwf : Wf root s) (htarget : (s.cpus k).target = .cpu k)
    (hidle : (s.cpus k).stack = []) : Good root (freeRemote root k o s) := by
  refine ⟨hinv.freeRemote, hwf.of_quiet (Or.inl htarget) Quiet.freeRemote ?_⟩
  rcases freeRemote_stack root k o s with h' | h'
  · rw [h', hidle]
    exact Shape.idle
  · rw [h', hidle]
    exact Shape.flushRemote

/-- Source: `sys/slab_allocator.cpp` `SlabCache::Free`
Kind: L -/
theorem cacheFree (hinv : Inv root [o] s) (hwf : Wf root s) (htarget : (s.cpus k).target = c)
    (hold : Holds s k c) (hidle : (s.cpus k).stack = []) : Good root (cacheFree root k c o s) := by
  refine ⟨hinv.cacheFree, ?_⟩
  subst htarget
  obtain ⟨v, hv⟩ : ∃ v : SlabCache, v = { s.caches (s.cpus k).target with
    objectList := o :: (s.caches (s.cpus k).target).objectList } := ⟨_, rfl⟩
  have hcheck : v.remoteCheck = (s.caches (s.cpus k).target).remoteCheck := by rw [hv]
  rw [Slab.cacheFree]
  simp only
  rw [← hv]
  split
  · refine hwf.of_hold (v := v) hold (Quiet.push _) hcheck ?_
    rw [push_stack, State.setCache_cpus, hidle]
    exact Shape.flush (Under.top _ _)
  · refine hwf.of_hold (v := v) hold Quiet.refl hcheck ?_
    rw [State.setCache_cpus, hidle]
    exact Shape.idle

/-- A call begins.
Source: `sys/slab_allocator.cpp` `SlabAllocator::Alloc`, `SlabAllocator::Free`
Kind: L -/
theorem start (h : Good root s) {topo : Topology} {op : Op} (hidle : (s.cpus k).stack = [])
    (hlegal : OpLegal s op) : Good root (start root k topo s op) := by
  have htaken : ∀ p, (((s.setCpu k { s.cpus k with target := .cpu k }).take p).cpus k).target =
      .cpu k ∧ (((s.setCpu k { s.cpus k with target := .cpu k }).take p).cpus k).stack = [] := by
    intro p
    rw [State.take_cpus, State.setCpu_cpus, Function.update_self]
    exact ⟨rfl, hidle⟩
  have hown : Holds s k (.cpu k) := Or.inl rfl
  cases op with
  | alloc nid =>
      rw [Slab.start]
      split
      · exact h.enter hidle rfl (fun _ _ => Shape.alloc false) (Or.inl hown)
      · exact h.enter hidle rfl (fun _ _ => Shape.lock) (Or.inr ⟨nid, rfl, rfl⟩)
  | free p =>
      obtain ⟨hinv, hwf⟩ := h.take hidle hown hlegal
      rw [Slab.start]
      simp only
      split
      · exact cacheFree hinv hwf (htaken p).1 (Or.inl rfl) (htaken p).2
      · exact freeRemote hinv hwf (htaken p).1 (htaken p).2
  | freeRemote p =>
      obtain ⟨hinv, hwf⟩ := h.take hidle hown hlegal
      exact freeRemote hinv hwf (htaken p).1 (htaken p).2
  | flushFreeList amount =>
      exact h.enter hidle rfl (fun _ _ => Shape.flush (Under.top _ _)) (Or.inl hown)
  | flushRemoteList => exact h.enter hidle rfl (fun _ _ => Shape.flushRemote) (Or.inl hown)
  | claimRemoteFreeList => exact h.enter hidle rfl (fun _ _ => Shape.claim) (Or.inl hown)

/-- **A step keeps the invariants.**
Source: `sys/slab_allocator.cpp` `SlabAllocator`
Kind: P -/
theorem step (h : Good root s) {topo : Topology} {a : Step} (hlegal : Legal root s a)
    (hstep : step root topo s a = some s') : Good root s' := by
  cases a with
  | call k op =>
      cases hstep
      exact h.start hlegal.1 hlegal.2
  | run k page =>
      obtain ⟨frame, frames, hstack, hran⟩ := ran_of_step hstep
      exact h.run hlegal.2 hstack hran

/-- The invariants hold in every reachable state.
Source: `sys/slab_allocator.cpp` `SlabAllocator`
Kind: P -/
theorem of_run {topo : Topology} {boot : ℕ → SlabData} {as : List Step}
    (h : (slabSystem root topo).Run (State.init boot) as s) : Good root s :=
  h.invariant (Good.init boot) fun _ _ _ hs hlegal hstep => hs.step hlegal hstep

end Good

/-! ## The objects are conserved -/

/-- The object of slab `b` is in exactly one place, there once, and on no other slab's list.
Source: `sys/slab_allocator.hpp` `SlabCache`, `SlabAllocator`
Kind: D -/
def InOnePlace (s : State) (b o : ℕ) : Prop :=
  ∃ p, (s.contents p).count o = 1 ∧ (∀ q, o ∈ s.contents q → q = p) ∧ ∀ b', p = .page b' → b' = b

/-- A step leaves every object of every live slab in exactly one place; an object that it gives to a
client was not held; a slab whose pages it gives back had all of its objects on its own list.
Source: `sys/slab_allocator.hpp` `SlabCache`, `SlabAllocator`
Kind: D -/
def Conserves (root : SlabAllocatorRoot) (s s' : State) : Prop :=
  (∀ b ∈ s'.blocks, ∀ o ∈ root.objects b, InOnePlace s' b o) ∧
    (∀ o, s'.held = o :: s.held → o ∉ s.held) ∧
    ∀ b ∈ s.blocks, b ∉ s'.blocks → ∀ o ∈ root.objects b, o ∈ (s.data b).list

/-- The invariant puts every object in one place.
Source: `sys/slab_allocator.hpp` `SlabCache`, `SlabAllocator`
Kind: L -/
theorem Inv.inOnePlace (h : Inv root [] s) (hb : b ∈ s.blocks) (ho : o ∈ root.objects b) :
    InOnePlace s b o := by
  obtain ⟨p, hp, hnd, hunique⟩ := h.objects.existsUnique ⟨b, hb, ho⟩
  cases p with
  | none => cases hp
  | some p =>
      refine ⟨p, List.count_eq_one_of_mem hnd hp, fun q hq => ?_, fun b' hpage => ?_⟩
      · exact Option.some.inj (hunique (some q) hq)
      · rw [hpage] at hp
        rw [← h.own b' o hp]
        exact root.addrToSlabPfn_of_mem (h.block b hb) ho

/-- **Slab object conservation, once the allocators are there.** Whatever the CPUs and nodes, the order of
their steps and the blocks that the page allocator returns: every step of every run conserves the objects.
Source: `sys/slab_allocator.cpp` `SlabAllocator`
Kind: P
Fidelity: every node's allocator is there from the start; `Mem.SlabNodes` has the steps that create it, and
carries the result over to the runs in which no CPU loses the race for one. -/
theorem slab_always (root : SlabAllocatorRoot) (topo : Topology) (boot : ℕ → SlabData) :
    (slabSystem root topo).Always (State.init boot) fun s _ s' => Conserves root s s' := by
  intro as s a s' hrun hlegal hstep
  have hgood := Good.of_run hrun
  have hgood' := hgood.step hlegal hstep
  refine ⟨fun b hb o ho => hgood'.inv.inOnePlace hb ho, fun o ho => ?_, fun b hb hb' o ho => ?_⟩
  · have hnd : s'.held.Nodup := hgood'.inv.objects.nodup (some .held)
    rw [ho] at hnd
    exact (List.nodup_cons.mp hnd).1
  · obtain ⟨k, frames, hstack⟩ := step_blocks hstep hb hb'
    have hrel : b ∈ releasing (s.cpus k).stack := hstack ▸ List.mem_cons_self
    exact (hgood.inv.list_perm hb (hgood.inv.of_mem_releasing hrel).2.1).mem_iff.mpr ho

/-! ## A run with remote frees -/

/-- Objects of 256 KB: one in a slab, and `free_batch` is one.
Source: `sys/slab_allocator.cpp` `SlabAllocatorRoot::SlabAllocatorRoot`
Kind: D -/
def rootOf256K : SlabAllocatorRoot where
  align := 8
  size := 262144
  order := 6
  freeBatch := 1
  hiwater := 4
  size_pos := by decide
  order_eq := by decide +kernel
  freeBatch_eq := by decide +kernel
  hiwater_eq := rfl

example : (SlabAllocatorRoot.construct 262144 0).map (fun root =>
    (root.align, root.size, root.order, root.freeBatch, root.hiwater)) =
      some (8, 262144, 6, 1, 4) := by decide +kernel

/-- Every CPU on a node of its own, all memory on node 0.
Source: none: infrastructure
Kind: D -/
def spread : Topology := ⟨id, fun _ => 0⟩

/-- Page structures before the first call. Source: none: infrastructure. Kind: D -/
def blank : ℕ → SlabData := fun _ => ⟨[], .cpu 0, 0⟩

/-- CPU 0 allocates two objects and CPU 1 frees them, the second with a flush to CPU 0's cache.
Source: none: infrastructure
Kind: D -/
def remoteFrees : List Step :=
  [.call 0 (.alloc 0), .run 0 none, .run 0 (some 64), .run 0 none,
    .call 0 (.alloc 0), .run 0 none, .run 0 (some 128), .run 0 none,
    .call 1 (.free 262144), .call 1 (.free 524288), .run 1 none]

end Slab

end EbbRT
