import EbbRT.Lib.Reaches
import EbbRT.Mem.SlabRuns

/-!
# Termination of slab allocation

`SlabCache::Alloc` retries while `remote_check` is set, and nothing ever resets the mark. A turn
that claims something ends the loop: `rank` falls at every step, through the claim, the loop over
`hiwater` and every turn of `FlushFreeList`. A turn that claims nothing comes back to the state it
started from. So `slabAlloc_exactlyWhen`: with an empty `object_list_` and the mark set, `Alloc`
returns if and only if there is something to claim.
-/

namespace EbbRT

namespace Slab

open EbbRT.Lib

/-- Only this CPU takes steps.
Source: `sys/slab_allocator.cpp` `SlabCache::Alloc`
Kind: D -/
def solo (root : SlabAllocatorRoot) (topo : Topology) (k : ℕ) (s : State) : Option State :=
  step root topo s (.run k none)

/-- The CPU is inside `SlabCache::Alloc`.
Source: `sys/slab_allocator.cpp` `SlabCache::Alloc`
Kind: D -/
def InAlloc (k : ℕ) (s : State) : Prop := ∃ second, Frame.alloc second ∈ (s.cpus k).stack

/-- `SlabCache::Alloc` has returned: an object, with which the caller returned too, or null.
Source: `sys/slab_allocator.cpp` `SlabCache::Alloc`
Kind: D -/
def Returned (k : ℕ) (s : State) : Prop :=
  (s.cpus k).stack = [] ∨ ∃ second, (s.cpus k).stack = [.nullptr second]

/-- With no step of another CPU, `SlabCache::Alloc` returns after finitely many steps.
Source: `sys/slab_allocator.cpp` `SlabCache::Alloc`
Kind: D -/
def AllocTerminates (root : SlabAllocatorRoot) (topo : Topology) (k : ℕ) (s : State) : Prop :=
  Reaches (solo root topo k) (Returned k) s

/-- There is an object to take, or the mark is not set, or there is something to claim.
Source: `sys/slab_allocator.cpp` `SlabCache::Alloc`
Kind: D -/
def CanAlloc (k : ℕ) (s : State) : Prop :=
  (s.caches (s.cpus k).target).objectList ≠ [] ∨ (s.caches (s.cpus k).target).remoteCheck = false ∨
    (s.caches (s.cpus k).target).remote ≠ []

instance (k : ℕ) (s : State) : Decidable (CanAlloc k s) := inferInstanceAs (Decidable (_ ∨ _ ∨ _))

/-- The weight of a stack while there are objects in `object_list_`.
Source: `sys/slab_allocator.cpp` `SlabCache::Alloc`
Kind: D -/
def weight : List Frame → ℕ
  | .alloc _ :: _ => 1
  | .drain :: _ => 2
  | .flush 0 _ :: _ => 1
  | .flush _ _ :: _ => 3
  | _ => 4

/-- The weight of a stack while `object_list_` is empty.
Source: `sys/slab_allocator.cpp` `SlabCache::Alloc`
Kind: D -/
def retryWeight : List Frame → ℕ
  | .drain :: _ => 3
  | .alloc _ :: _ => 2
  | _ => 1

/-- What falls at every step of `SlabCache::Alloc`.
Source: `sys/slab_allocator.cpp` `SlabCache::Alloc`
Kind: D -/
def rank (k : ℕ) (s : State) : ℕ :=
  let cache := s.caches (s.cpus k).target
  if cache.objectList.length = 0 then 4 * cache.remote.length + 10 + retryWeight (s.cpus k).stack
  else 4 * cache.objectList.length + weight (s.cpus k).stack

variable {root : SlabAllocatorRoot} {topo : Topology} {s t : State} {k : ℕ} {second : Bool}

/-! ## The stacks inside `Alloc` -/

/-- The functions that a turn of `FlushFreeList` may have called.
Source: `sys/slab_allocator.cpp` `SlabCache::FlushFreeList`
Kind: D -/
inductive Called : List Frame → Prop
  | none : Called []
  | release (pfn : ℕ) : Called [.release pfn]
  | flushRemote : Called [.flushRemote]

/-- The stacks of a CPU inside `SlabCache::Alloc`: at `retry:`, before the claim, in the loop over
`hiwater`, and in `FlushFreeList`. While `FlushFreeList` runs, `object_list_` is long.
Source: `sys/slab_allocator.cpp` `SlabCache::Alloc`
Kind: D -/
inductive AllocShape (root : SlabAllocatorRoot) (k : ℕ) (s : State) (second : Bool) : Prop
  | retry (hstack : (s.cpus k).stack = [.alloc second])
  | claim (hstack : (s.cpus k).stack = [.claim, .drain, .alloc second])
      (hcheck : (s.caches (s.cpus k).target).remoteCheck = true)
      (hnil : (s.caches (s.cpus k).target).objectList = [])
  | drain (hstack : (s.cpus k).stack = [.drain, .alloc second])
      (hcheck : (s.caches (s.cpus k).target).remoteCheck = true)
  | flush (called : List Frame) (hcalled : Called called) (freed : ℕ)
      (hstack : (s.cpus k).stack =
        called ++ [.flush freed root.freeBatch, .drain, .alloc second])
      (hcheck : (s.caches (s.cpus k).target).remoteCheck = true) (hfreed : freed ≤ root.freeBatch)
      (hlen : root.hiwater < (s.caches (s.cpus k).target).objectList.length + freed)

/-- In a reachable state there are no other stacks with an `alloc` frame.
Source: `sys/slab_allocator.cpp` `SlabCache::Alloc`
Kind: L -/
theorem Good.allocShape (h : Good root s) (halloc : InAlloc k s) :
    ∃ second, AllocShape root k s second := by
  obtain ⟨second, hmem⟩ := halloc
  have hshape := h.wf.shape k
  rw [ShapeOf] at hshape
  refine ⟨second, ?_⟩
  generalize hstack : (s.cpus k).stack = stack at hshape hmem
  have hunder : ∀ {freed amount : ℕ} {frames : List Frame} (called : List Frame), Called called →
      (s.cpus k).stack = called ++ .flush freed amount :: frames →
      Under root (s.caches (s.cpus k).target).objectList.length
        (s.caches (s.cpus k).target).remoteCheck freed amount frames →
      Frame.alloc second ∈ frames → AllocShape root k s second := by
    intro freed amount frames called hcalled hstack hunder hmem
    cases hunder with
    | top => cases hmem
    | alloc second' hcheck hfreed hlen =>
        obtain rfl : second = second' := by simpa using hmem
        exact AllocShape.flush called hcalled freed hstack hcheck hfreed hlen
  cases hshape with
  | idle => cases hmem
  | lock => simp at hmem
  | alloc second' =>
      obtain rfl : second = second' := by simpa using hmem
      exact AllocShape.retry hstack
  | nullptr => simp at hmem
  | claim => simp at hmem
  | claimIn second' hcheck hlen =>
      obtain rfl : second = second' := by simpa using hmem
      exact AllocShape.claim hstack hcheck (List.eq_nil_of_length_eq_zero hlen)
  | drain second' hcheck =>
      obtain rfl : second = second' := by simpa using hmem
      exact AllocShape.drain hstack hcheck
  | flush h' => exact hunder [] Called.none hstack h' (by simpa using hmem)
  | release pfn h' => exact hunder _ (Called.release pfn) hstack h' (by simpa using hmem)
  | flushRemote => simp at hmem
  | flushRemoteIn h' => exact hunder _ Called.flushRemote hstack h' (by simpa using hmem)

/-! ## One step of the CPU -/

/-- Source: none: infrastructure. Kind: L -/
theorem solo_eq {frame : Frame} {frames : List Frame} (hstack : (s.cpus k).stack = frame :: frames) :
    solo root topo k s = runFrame root k none s frames frame := by
  simp only [solo, step, hstack]

/-- A step of the CPU alone keeps the invariants.
Source: none: infrastructure
Kind: L -/
theorem Good.solo (h : Good root s) (hstep : solo root topo k s = some t) : Good root t := by
  refine h.step (a := .run k none) ⟨fun hidle => ?_, trivial⟩ hstep
  simp only [Slab.solo, Slab.step, hidle] at hstep
  cases hstep

/-- What `FlushFreeList` leaves: its frames, and an `object_list_` that no function but itself
shortens.
Source: `sys/slab_allocator.cpp` `SlabCache::FlushFreeList`
Kind: D -/
structure Effect (k : ℕ) (s t : State) (frames : List Frame) (list : List ℕ) : Prop where
  target : (t.cpus k).target = (s.cpus k).target
  stack : (t.cpus k).stack = frames
  objectList : (t.caches (t.cpus k).target).objectList = list

/-- The frames change and the caches do not.
Source: none: infrastructure
Kind: L -/
theorem effect_setStack (frames : List Frame) :
    Effect k s (s.setStack k frames) frames (s.caches (s.cpus k).target).objectList := by
  have hself : (s.setStack k frames).cpus k = { s.cpus k with stack := frames } :=
    Function.update_self _ _ _
  refine ⟨by rw [hself], by rw [hself], ?_⟩
  rw [hself]
  rfl

/-- A call returns. Source: none: infrastructure. Kind: L -/
theorem finish_returned (s : State) : Returned k (finish k s) := by
  refine Or.inl ?_
  rw [finish]
  split <;> simp only [State.setStack_cpus, Function.update_self]

/-- At `retry:` with an empty list and no mark, `Alloc` returns.
Source: `sys/slab_allocator.cpp` `SlabCache::Alloc`
Kind: L -/
theorem Good.allocPartial (h : Good root s) (hstack : (s.cpus k).stack = [.alloc second]) :
    ∃ t, allocPartial root k second (s.cpus k).target [] s = some t ∧ Returned k t := by
  obtain ⟨t, ht, -⟩ := h.inv.allocPartial (k := k) (c := (s.cpus k).target)
    (by rw [hstack]; rfl) (show releasing [] = [] from rfl)
  refine ⟨t, ht, ?_⟩
  rcases quiet_allocPartial ht with rfl | ⟨u, -, -, rfl⟩
  · exact Or.inr ⟨second, (effect_setStack _).stack⟩
  · exact finish_returned _

/-- A turn of `FlushFreeList` takes one object.
Source: `sys/slab_allocator.cpp` `SlabCache::FlushFreeList`
Kind: L -/
theorem effect_flush (topo : Topology) {freed amount o : ℕ} {list : List ℕ} {frames : List Frame}
    (hstack : (s.cpus k).stack = .flush freed amount :: frames)
    (hlist : (s.caches (s.cpus k).target).objectList = o :: list) (hfreed : freed < amount) :
    ∃ t called, solo root topo k s = some t ∧ Called called ∧
      Effect k s t (called ++ .flush (freed + 1) amount :: frames) list := by
  obtain ⟨u, hu⟩ : ∃ u, u = (s.setStack k (.flush (freed + 1) amount :: frames)).setCache
      (s.cpus k).target { s.caches (s.cpus k).target with objectList := list } := ⟨_, rfl⟩
  have hcpu : u.cpus k = { s.cpus k with stack := .flush (freed + 1) amount :: frames } := by
    rw [hu, State.setCache_cpus, State.setStack_cpus, Function.update_self]
  have hulist : (u.caches (s.cpus k).target).objectList = list := by
    rw [hu, State.setCache_caches, Function.update_self]
  have hstep : solo root topo k s = some (flushObject root k (s.cpus k).target o u) := by
    rw [solo_eq hstack, runFrame, hu]
    simp only [hlist, hfreed, if_true]
  have hq : Quiet root k u (flushObject root k (s.cpus k).target o u) := Quiet.flushObject
  have htarget : ((flushObject root k (s.cpus k).target o u).cpus k).target = (s.cpus k).target := by
    rw [hq.target, hcpu]
  have hobj : ((flushObject root k (s.cpus k).target o u).caches
      ((flushObject root k (s.cpus k).target o u).cpus k).target).objectList = list := by
    rw [htarget, hq.objectList, hulist]
  rcases flushObject_stack root k o (s.cpus k).target u with
    h' | h' | ⟨pfn, h'⟩
  · exact ⟨_, [], hstep, Called.none, htarget, by rw [h', hcpu]; rfl, hobj⟩
  · exact ⟨_, _, hstep, Called.flushRemote, htarget, by rw [h', hcpu]; rfl, hobj⟩
  · exact ⟨_, _, hstep, Called.release pfn, htarget, by rw [h', hcpu]; rfl, hobj⟩

/-- A function that `FlushFreeList` called returns.
Source: `sys/slab_allocator.cpp` `SlabCache::FlushFreeList`
Kind: L -/
theorem effect_called (root : SlabAllocatorRoot) (topo : Topology) {called frames : List Frame}
    (hcalled : Called called) (hne : called ≠ [])
    (hstack : (s.cpus k).stack = called ++ frames) :
    ∃ t, solo root topo k s = some t ∧
      Effect k s t frames (s.caches (s.cpus k).target).objectList := by
  cases hcalled with
  | none => exact absurd rfl hne
  | release pfn =>
      refine ⟨release pfn (s.setStack k frames), by rw [solo_eq hstack]; rfl, ?_⟩
      obtain ⟨h1, h2, h3⟩ := effect_setStack (k := k) (s := s) frames
      exact ⟨h1, h2, h3⟩
  | flushRemote =>
      refine ⟨flushRemoteList root k (s.setStack k frames), by rw [solo_eq hstack]; rfl, ?_⟩
      obtain ⟨h1, h2, h3⟩ := effect_setStack (k := k) (s := s) frames
      have hq : Quiet root k (s.setStack k frames) (flushRemoteList root k (s.setStack k frames)) :=
        Quiet.flushRemoteList
      refine ⟨hq.target.trans h1, flushRemoteList_stack.trans h2, ?_⟩
      rw [hq.objectList, hq.target, h3]

/-! ## The rank falls -/

/-- While there are objects, the rank counts them.
Source: `sys/slab_allocator.cpp` `SlabCache::Alloc`
Kind: L -/
theorem rank_of_pos (h : (s.caches (s.cpus k).target).objectList ≠ []) :
    rank k s = 4 * (s.caches (s.cpus k).target).objectList.length + weight (s.cpus k).stack := by
  rw [rank]
  exact if_neg fun hlen => h (List.eq_nil_of_length_eq_zero hlen)

/-- With an empty list, the rank counts what can be claimed.
Source: `sys/slab_allocator.cpp` `SlabCache::Alloc`
Kind: L -/
theorem rank_of_nil (h : (s.caches (s.cpus k).target).objectList = []) :
    rank k s =
      4 * (s.caches (s.cpus k).target).remote.length + 10 + retryWeight (s.cpus k).stack := by
  rw [rank]
  exact if_pos (by rw [h]; rfl)

/-- In `FlushFreeList` under `Alloc` there are objects left, more than it still takes.
Source: `sys/slab_allocator.cpp` `SlabCache::Alloc`
Kind: L -/
theorem Good.length_pos (h : Good root s) {len freed : ℕ} {c : CacheId}
    (hcheck : (s.caches c).remoteCheck = true) (hfreed : freed ≤ root.freeBatch)
    (hlen : root.hiwater < len + freed) : 0 < root.freeBatch ∧ 1 < len := by
  have := h.wf.batch c hcheck
  have := root.hiwater_eq
  omega

/-- The CPU is still inside `Alloc`, which can still return, and the rank has fallen.
Source: `sys/slab_allocator.cpp` `SlabCache::Alloc`
Kind: D -/
def Falls (k : ℕ) (s t : State) : Prop := (InAlloc k t ∧ CanAlloc k t) ∧ rank k t < rank k s

/-- A step that only changes the frames: one weight decides.
Source: `sys/slab_allocator.cpp` `SlabCache::Alloc`
Kind: L -/
theorem falls_setStack {frames : List Frame} (hcan : CanAlloc k s)
    (hin : ∃ second, .alloc second ∈ frames)
    (hweight : (s.caches (s.cpus k).target).objectList ≠ [] →
      weight frames < weight (s.cpus k).stack)
    (hretry : (s.caches (s.cpus k).target).objectList = [] →
      retryWeight frames < retryWeight (s.cpus k).stack) : Falls k s (s.setStack k frames) := by
  obtain ⟨htarget, hframes, hobj⟩ := effect_setStack (k := k) (s := s) frames
  refine ⟨⟨by rwa [InAlloc, hframes], ?_⟩, ?_⟩
  · rw [CanAlloc, htarget]
    exact hcan
  · by_cases hnil : (s.caches (s.cpus k).target).objectList = []
    · rw [rank_of_nil hnil, rank_of_nil (hobj.trans hnil), htarget, hframes]
      exact Nat.add_lt_add_left (hretry hnil) _
    · rw [rank_of_pos hnil, rank_of_pos (by rwa [hobj]), hobj, hframes]
      exact Nat.add_lt_add_left (hweight hnil) _

/-- A step that leaves objects.
Source: `sys/slab_allocator.cpp` `SlabCache::Alloc`
Kind: L -/
theorem Effect.falls {frames : List Frame} {list : List ℕ} (h : Effect k s t frames list)
    (hin : ∃ second, .alloc second ∈ frames) (hne : list ≠ [])
    (hrank : 4 * list.length + weight frames < rank k s) : Falls k s t := by
  have hne' : (t.caches (t.cpus k).target).objectList ≠ [] := by rwa [h.objectList]
  refine ⟨⟨by rwa [InAlloc, h.stack], Or.inl hne'⟩, ?_⟩
  rwa [rank_of_pos hne', h.objectList, h.stack]

/-- At `retry:`.
Source: `sys/slab_allocator.cpp` `SlabCache::Alloc`
Kind: L -/
theorem Good.falls_retry (h : Good root s) (topo : Topology) (hcan : CanAlloc k s)
    (hstack : (s.cpus k).stack = [.alloc second]) :
    ∃ t, Slab.solo root topo k s = some t ∧ (Returned k t ∨ Falls k s t) := by
  rw [solo_eq hstack, runFrame]
  simp only
  cases hlist : (s.caches (s.cpus k).target).objectList with
  | cons o list => exact ⟨_, rfl, Or.inl (finish_returned _)⟩
  | nil =>
      simp only
      by_cases hcheck : (s.caches (s.cpus k).target).remoteCheck = true
      · rw [if_pos hcheck]
        refine ⟨_, rfl, Or.inr (falls_setStack hcan ⟨second, by simp⟩ ?_ fun _ => ?_)⟩
        · exact fun hne => absurd hlist hne
        · rw [hstack]
          exact Nat.lt_succ_self _
      · rw [if_neg hcheck]
        obtain ⟨t, ht, hret⟩ := h.allocPartial hstack
        exact ⟨t, ht, Or.inl hret⟩

/-- `ClaimRemoteFreeList` with an empty list takes all there is.
Source: `sys/slab_allocator.cpp` `SlabCache::Remote::ClaimRemoteFreeList`
Kind: L -/
theorem effect_claim (root : SlabAllocatorRoot) (topo : Topology) {frames : List Frame}
    (hstack : (s.cpus k).stack = .claim :: frames)
    (hnil : (s.caches (s.cpus k).target).objectList = []) :
    ∃ t, solo root topo k s = some t ∧
      Effect k s t frames (s.caches (s.cpus k).target).remote := by
  obtain ⟨t, ht⟩ : ∃ t, t = claimRemoteFreeList (s.cpus k).target (s.setStack k frames) := ⟨_, rfl⟩
  have hcpu : t.cpus k = { s.cpus k with stack := frames } := by
    rw [ht]
    exact Function.update_self _ _ _
  refine ⟨t, by rw [solo_eq hstack, runFrame, ht], by rw [hcpu], by rw [hcpu], ?_⟩
  rw [hcpu, ht, claimRemoteFreeList, State.setCache_caches, Function.update_self]
  show spliceAfterEnd (s.caches (s.cpus k).target).objectList _ = _
  rw [hnil]
  rfl

/-- At the claim, when there is something to claim.
Source: `sys/slab_allocator.cpp` `SlabCache::Alloc`
Kind: L -/
theorem falls_claim (root : SlabAllocatorRoot) (topo : Topology)
    (hstack : (s.cpus k).stack = [.claim, .drain, .alloc second])
    (hnil : (s.caches (s.cpus k).target).objectList = [])
    (hremote : (s.caches (s.cpus k).target).remote ≠ []) :
    ∃ t, solo root topo k s = some t ∧ Falls k s t := by
  obtain ⟨t, ht, heffect⟩ := effect_claim root topo hstack hnil
  refine ⟨t, ht, heffect.falls ⟨second, by simp⟩ hremote ?_⟩
  rw [rank_of_nil hnil, hstack]
  simp only [weight, retryWeight]
  omega

/-- In the loop over `hiwater`.
Source: `sys/slab_allocator.cpp` `SlabCache::Alloc`
Kind: L -/
theorem falls_drain (root : SlabAllocatorRoot) (topo : Topology) (hcan : CanAlloc k s)
    (hstack : (s.cpus k).stack = [.drain, .alloc second]) :
    ∃ t, solo root topo k s = some t ∧ Falls k s t := by
  rw [solo_eq hstack, runFrame]
  split
  · rename_i hlen
    refine ⟨_, rfl, falls_setStack hcan ⟨second, by simp⟩ (fun _ => ?_) fun hnil => ?_⟩
    · rw [hstack]
      exact Nat.lt_succ_self _
    · rw [hnil] at hlen
      exact absurd hlen (Nat.not_lt_zero _)
  · refine ⟨_, rfl, falls_setStack hcan ⟨second, by simp⟩ (fun _ => ?_) fun _ => ?_⟩
    · rw [hstack]
      exact Nat.lt_succ_self _
    · rw [hstack]
      exact Nat.lt_succ_self _

/-- In `FlushFreeList`, at the head of its loop.
Source: `sys/slab_allocator.cpp` `SlabCache::FlushFreeList`
Kind: L -/
theorem falls_flush (root : SlabAllocatorRoot) (topo : Topology) {freed : ℕ} (hcan : CanAlloc k s)
    (hstack : (s.cpus k).stack = [.flush freed root.freeBatch, .drain, .alloc second])
    (hbatch : 0 < root.freeBatch) (hpos : 1 < (s.caches (s.cpus k).target).objectList.length) :
    ∃ t, solo root topo k s = some t ∧ Falls k s t := by
  have hne : (s.caches (s.cpus k).target).objectList ≠ [] := List.ne_nil_of_length_pos (by omega)
  obtain ⟨o, list, hlist⟩ := List.exists_cons_of_ne_nil hne
  by_cases hlt : freed < root.freeBatch
  · obtain ⟨t, called, ht, hcalled, heffect⟩ := effect_flush topo hstack hlist hlt
    rw [hlist, List.length_cons] at hpos
    refine ⟨t, ht, heffect.falls ⟨second, by simp⟩
      (List.ne_nil_of_length_pos (by omega)) ?_⟩
    have hweight : weight (called ++
        [.flush (freed + 1) root.freeBatch, .drain, .alloc second]) ≤ 4 := by
      cases hcalled <;> simp [weight]
    have hweight' : 0 < weight [.flush freed root.freeBatch, .drain, .alloc second] := by
      cases freed <;> simp [weight]
    rw [rank_of_pos hne, hlist, hstack, List.length_cons]
    omega
  · have ht : solo root topo k s = some (s.setStack k [.drain, .alloc second]) := by
      rw [solo_eq hstack, runFrame]
      simp only [hlist, hlt, if_false]
    refine ⟨_, ht, falls_setStack hcan ⟨second, by simp⟩ (fun _ => ?_)
      fun hnil => absurd hnil hne⟩
    obtain ⟨freed, rfl⟩ := Nat.exists_eq_succ_of_ne_zero (show freed ≠ 0 by omega)
    rw [hstack]
    exact Nat.lt_succ_self _

/-- In a function that `FlushFreeList` called.
Source: `sys/slab_allocator.cpp` `SlabCache::FlushFreeList`
Kind: L -/
theorem falls_called (root : SlabAllocatorRoot) (topo : Topology) {called : List Frame} {freed : ℕ}
    (hcalled : Called called) (hnone : called ≠ [])
    (hstack : (s.cpus k).stack = called ++ [.flush freed root.freeBatch, .drain, .alloc second])
    (hne : (s.caches (s.cpus k).target).objectList ≠ []) :
    ∃ t, solo root topo k s = some t ∧ Falls k s t := by
  obtain ⟨t, ht, heffect⟩ := effect_called root topo hcalled hnone hstack
  refine ⟨t, ht, heffect.falls ⟨second, by simp⟩ hne ?_⟩
  have hweight : weight [.flush freed root.freeBatch, .drain, .alloc second] ≤ 3 := by
    cases freed <;> simp [weight]
  have hweight' : weight (called ++ [.flush freed root.freeBatch, .drain, .alloc second]) = 4 := by
    cases hcalled
    · exact absurd rfl hnone
    · rfl
    · rfl
  rw [rank_of_pos hne, hstack]
  omega

/-- **One step of `Alloc`**: it returns, or it can still return and the rank has fallen.
Source: `sys/slab_allocator.cpp` `SlabCache::Alloc`
Kind: P -/
theorem Good.rank_step (h : Good root s) (topo : Topology) (halloc : InAlloc k s) (hcan : CanAlloc k s) :
    ∃ t, Slab.solo root topo k s = some t ∧ (Returned k t ∨ Falls k s t) := by
  obtain ⟨second, hshape⟩ := h.allocShape halloc
  cases hshape with
  | retry hstack => exact h.falls_retry topo hcan hstack
  | claim hstack hcheck hnil =>
      have hremote : (s.caches (s.cpus k).target).remote ≠ [] := by
        rcases hcan with h' | h' | h'
        · exact absurd hnil h'
        · rw [hcheck] at h'
          cases h'
        · exact h'
      obtain ⟨t, ht, hfalls⟩ := falls_claim root topo hstack hnil hremote
      exact ⟨t, ht, Or.inr hfalls⟩
  | drain hstack hcheck =>
      obtain ⟨t, ht, hfalls⟩ := falls_drain root topo hcan hstack
      exact ⟨t, ht, Or.inr hfalls⟩
  | flush called hcalled freed hstack hcheck hfreed hlen =>
      obtain ⟨hbatch, hpos⟩ := h.length_pos hcheck hfreed hlen
      by_cases hnone : called = []
      · subst hnone
        obtain ⟨t, ht, hfalls⟩ := falls_flush root topo hcan hstack hbatch hpos
        exact ⟨t, ht, Or.inr hfalls⟩
      · obtain ⟨t, ht, hfalls⟩ := falls_called root topo hcalled hnone hstack
          (List.ne_nil_of_length_pos (by omega))
        exact ⟨t, ht, Or.inr hfalls⟩

/-! ## The trap -/

/-- **Nothing to take, the mark set, nothing to claim**: a step of `Alloc` leaves it so.
Source: `sys/slab_allocator.cpp` `SlabCache::Alloc`
Kind: P -/
theorem Good.trap_step (h : Good root s) (halloc : InAlloc k s) (hcan : ¬ CanAlloc k s)
    (hstep : Slab.solo root topo k s = some t) : InAlloc k t ∧ ¬ CanAlloc k t := by
  obtain ⟨second, hshape⟩ := h.allocShape halloc
  obtain ⟨hnil, hcheck, hremote⟩ : (s.caches (s.cpus k).target).objectList = [] ∧
      (s.caches (s.cpus k).target).remoteCheck = true ∧
      (s.caches (s.cpus k).target).remote = [] := by
    rw [CanAlloc] at hcan
    push Not at hcan
    exact ⟨hcan.1, by simpa using hcan.2.1, hcan.2.2⟩
  have hkeep : ∀ frames, t = s.setStack k frames → Frame.alloc second ∈ frames →
      InAlloc k t ∧ ¬ CanAlloc k t := by
    intro frames ht hmem
    obtain ⟨htarget, hframes, -⟩ := effect_setStack (k := k) (s := s) frames
    subst ht
    refine ⟨⟨second, by rwa [hframes]⟩, ?_⟩
    rw [CanAlloc, htarget]
    exact hcan
  cases hshape with
  | retry hstack =>
      rw [solo_eq hstack, runFrame] at hstep
      simp only [hnil, hcheck, if_true] at hstep
      exact hkeep _ (Option.some.inj hstep).symm (by simp)
  | claim hstack =>
      rw [solo_eq hstack, runFrame] at hstep
      have ht := (Option.some.inj hstep).symm
      have hcpu : t.cpus k = { s.cpus k with stack := [.drain, .alloc second] } := by
        rw [ht]
        exact Function.update_self _ _ _
      refine ⟨⟨second, by rw [hcpu]; simp⟩, ?_⟩
      have hcache : t.caches (s.cpus k).target = { s.caches (s.cpus k).target with
          objectList := [], remote := [] } := by
        rw [ht, claimRemoteFreeList, State.setCache_caches, Function.update_self,
          State.setStack_caches, hnil, hremote]
        rfl
      rw [CanAlloc, hcpu]
      simp only [hcache, hcheck, ne_eq, not_true_eq_false, Bool.true_eq_false, or_self,
        not_false_eq_true]
  | drain hstack =>
      rw [solo_eq hstack, runFrame, hnil] at hstep
      simp only [List.length_nil, gt_iff_lt, Nat.not_lt_zero, if_false] at hstep
      exact hkeep _ (Option.some.inj hstep).symm (by simp)
  | flush called hcalled freed hstack _ hfreed hlen =>
      have := h.length_pos hcheck hfreed hlen
      rw [hnil] at this
      exact absurd this.2 (by simp)

/-- Inside `Alloc` it has not returned.
Source: `sys/slab_allocator.cpp` `SlabCache::Alloc`
Kind: L -/
theorem not_returned (halloc : InAlloc k s) : ¬ Returned k s := by
  obtain ⟨second, hmem⟩ := halloc
  rintro (h | ⟨second', h⟩) <;> rw [h] at hmem <;> simp at hmem

/-- Where `Alloc` can return, it does.
Source: `sys/slab_allocator.cpp` `SlabCache::Alloc`
Kind: L -/
theorem Good.allocTerminates (h : Good root s) (topo : Topology) (halloc : InAlloc k s)
    (hcan : CanAlloc k s) : AllocTerminates root topo k s := by
  refine Reaches.of_rank (I := fun t => Good root t ∧ InAlloc k t ∧ CanAlloc k t) (rank k) ?_
    ⟨h, halloc, hcan⟩
  rintro u ⟨hu, hualloc, hucan⟩
  obtain ⟨t, ht, hret | ⟨hin, hlt⟩⟩ := hu.rank_step topo hualloc hucan
  · exact ⟨t, ht, Or.inl hret⟩
  · exact ⟨t, ht, Or.inr ⟨⟨hu.solo ht, hin⟩, hlt⟩⟩

/-- Where it cannot, it goes round for ever.
Source: `sys/slab_allocator.cpp` `SlabCache::Alloc`
Kind: L -/
theorem Good.not_allocTerminates (h : Good root s) (topo : Topology) (halloc : InAlloc k s)
    (hcan : ¬ CanAlloc k s) : ¬ AllocTerminates root topo k s := by
  refine not_reaches (I := fun t => Good root t ∧ InAlloc k t ∧ ¬ CanAlloc k t) ?_ ⟨h, halloc, hcan⟩
  rintro u ⟨hu, hualloc, hucan⟩
  exact ⟨not_returned hualloc, fun t ht => ⟨hu.solo ht, hu.trap_step hualloc hucan ht⟩⟩

/-- **Termination of slab allocation, exactly.** In every reachable state with a CPU anywhere inside
`SlabCache::Alloc`: if no other CPU takes a step from then on, `Alloc` returns if and only if
`object_list_` is not empty, or `remote_check` is not set, or `remote_.list` is not empty.
Source: `sys/slab_allocator.cpp` `SlabCache::Alloc`
Kind: C
Fidelity: the allocators of all nodes are there, as in `slabSystem` -/
theorem slabAlloc_exactlyWhen (root : SlabAllocatorRoot) (topo : Topology) (boot : ℕ → SlabData)
    (as : List Step) (s : State) (k : ℕ) (hrun : (slabSystem root topo).Run (State.init boot) as s)
    (halloc : InAlloc k s) : AllocTerminates root topo k s ↔ CanAlloc k s := by
  have hgood := Good.of_run hrun
  refine ⟨fun hterm => ?_, hgood.allocTerminates topo halloc⟩
  by_contra hcan
  exact hgood.not_allocTerminates topo halloc hcan hterm

/-- CPU 0 allocates once more after the frees, and is about to claim what CPU 1 freed.
Source: none: infrastructure
Kind: D -/
def toRetry : List Step := remoteFrees ++ [.call 0 (.alloc 0), .run 0 none]

/-- On the way back to `retry:`, with two objects in `remote_.list`: the call returns.
Source: `sys/slab_allocator.cpp` `SlabCache::Alloc`
Kind: C -/
theorem slabAlloc_exactlyWhen_retry :
    ∃ s, (slabSystem rootOf256K spread).Run (State.init blank) toRetry s ∧
      (s.cpus 0).stack = [.claim, .drain, .alloc false] ∧
      (s.caches (.cpu 0)).remote = [524288, 262144] ∧ AllocTerminates rootOf256K spread 0 s := by
  have hadmits : (slabSystem rootOf256K spread).Admits (State.init blank) toRetry := by decide +kernel
  have hend : ((slabSystem rootOf256K spread).exec (State.init blank) toRetry).map
      (fun s => ((s.cpus 0).stack, (s.cpus 0).target, (s.caches (.cpu 0)).remote)) =
        some ([.claim, .drain, .alloc false], .cpu 0, [524288, 262144]) := by decide +kernel
  obtain ⟨s, hexec, hrun⟩ := System.Run.of_admits hadmits
  rw [hexec, Option.map_some, Option.some_inj, Prod.mk.injEq, Prod.mk.injEq] at hend
  obtain ⟨hstack, htarget, hremote⟩ := hend
  have halloc : InAlloc 0 s := by
    refine ⟨false, ?_⟩
    rw [hstack]
    simp
  have hcan : CanAlloc 0 s := by
    refine Or.inr (Or.inr ?_)
    rw [htarget, hremote]
    simp
  exact ⟨s, hrun, hstack, hremote,
    (slabAlloc_exactlyWhen rootOf256K spread blank toRetry s 0 hrun halloc).mpr hcan⟩

/-- CPU 0 takes back the two objects that CPU 1 freed, and allocates once more.
Source: none: infrastructure
Kind: D -/
def thirdAlloc : List Step :=
  remoteFrees ++
    [.call 0 (.alloc 0), .run 0 none, .run 0 none, .run 0 none, .run 0 none,
      .call 0 (.alloc 0), .run 0 none, .call 0 (.alloc 0)]

/-- **Not always**: after a claim has emptied `remote_.list`, the mark is still set, and the next
`Alloc` with an empty `object_list_` goes round for ever.
Source: `sys/slab_allocator.cpp` `SlabCache::Alloc`
Kind: C -/
theorem slabAlloc_not_always :
    ¬ ∀ (root : SlabAllocatorRoot) (topo : Topology) (boot : ℕ → SlabData) (as : List Step)
      (s : State) (k : ℕ), (slabSystem root topo).Run (State.init boot) as s → InAlloc k s →
        AllocTerminates root topo k s := by
  intro hall
  have hadmits : (slabSystem rootOf256K spread).Admits (State.init blank) thirdAlloc := by
    decide +kernel
  have hstuck : (((slabSystem rootOf256K spread).exec (State.init blank) thirdAlloc).all fun s =>
      decide (¬ CanAlloc 0 s ∧ (s.cpus 0).stack = [.alloc false])) = true := by decide +kernel
  obtain ⟨s, hexec, hrun⟩ := System.Run.of_admits hadmits
  rw [hexec, Option.all_some, decide_eq_true_eq] at hstuck
  have halloc : InAlloc 0 s := ⟨false, by rw [hstuck.2]; exact List.mem_singleton.mpr rfl⟩
  exact (Good.of_run hrun).not_allocTerminates spread halloc hstuck.1
    (hall rootOf256K spread blank thirdAlloc s 0 hrun halloc)

end Slab

end EbbRT
