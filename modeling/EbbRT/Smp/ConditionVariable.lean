import EbbRT.Lib.Linked
import EbbRT.Lib.System

/-!
# The waiters of a condition variable

`wait` puts a node that lies on the caller's stack on the list and waits for the node's semaphore;
`broadcast` signals every node of the list. Nothing takes a node off the list again.
`waiters_exactlyWhen`: while no wait has returned, the list is that of the waits in progress and a
broadcast signals all that were queued when it took the lock; the first return of a wait leaves a
dead node on the list.

Assertions are off, as in the optimised build; with assertions the destructor of the node's hook
aborts instead of leaving it linked.
-/

namespace EbbRT

namespace ConditionVariable

open EbbRT.Lib

/-! ## The code -/

/-- Where a call of `wait` is: at the acquisition of the list's lock, at `push_front`, at the release
of `other` and of the list's lock, at the load and the compare-exchange of `trywait`, at the
acquisition of `other`, and at the end, where the node is destroyed.
Source: `sys/condition_variable.hpp` `condition_variable::wait`, `sys/semaphore.hpp` `semaphore::trywait`
Kind: D -/
inductive WaitPc
  | lock
  | pushFront
  | unlockOther
  | unlock
  | load
  | compareExchange (val : BitVec 32)
  | lockOther
  | ret
  deriving DecidableEq, Repr

/-- Where a call of `broadcast` is: at the acquisition of the lock, at the loop's test and the signal
at the iterator `it`, at the step to the next node, and at the release.
Source: `sys/condition_variable.hpp` `condition_variable::broadcast`
Kind: D -/
inductive BroadcastPc
  | lock
  | signal (it : ℕ)
  | next (it : ℕ)
  | unlock
  deriving DecidableEq, Repr

/-- What a thread does. A wait knows `other` and the address of its node; a broadcast records the
nodes that were queued when it took the lock, and those it has signalled.
Source: none: infrastructure
Kind: D -/
inductive Pc
  | idle
  | wait (pc : WaitPc) (other node : ℕ)
  | broadcast (pc : BroadcastPc) (targets done : List ℕ)
  deriving DecidableEq, Repr

/-- The lock and the list's first node, the nodes' hooks and semaphores by their address (`0` is the
end of the list), the locks that callers pass as `other`, and the threads. `signalled` records which
nodes were signalled since they were created.
Source: `sys/condition_variable.hpp` `condition_variable`, `cv_node`
Kind: D -/
structure State (m : ℕ) where
  lock : Bool
  head : ℕ
  next : ℕ → ℕ
  count : ℕ → BitVec 32
  other : ℕ → Bool
  pc : Fin m → Pc
  signalled : ℕ → Bool

variable {m : ℕ}

/-- Source: `sys/condition_variable.hpp` `condition_variable`
Kind: D -/
def State.init (m : ℕ) : State m :=
  ⟨false, 0, fun _ => 0, fun _ => 0, fun _ => false, fun _ => .idle, fun _ => false⟩

/-- The node of a wait, from the call to the end.
Source: none: infrastructure
Kind: D -/
def Pc.node? : Pc → Option ℕ
  | .wait _ _ node => some node
  | _ => none

/-- The node of a wait that has put it on the list.
Source: none: infrastructure
Kind: D -/
def Pc.queued? : Pc → Option ℕ
  | .wait .lock _ _ | .wait .pushFront _ _ => none
  | .wait _ _ node => some node
  | _ => none

/-- Source: none: infrastructure
Kind: D -/
def State.queued (s : State m) : List ℕ := (List.finRange m).filterMap fun i => (s.pc i).queued?

/-- Source: none: infrastructure
Kind: D -/
def State.goto (s : State m) (i : Fin m) (pc : Pc) : State m :=
  { s with pc := Function.update s.pc i pc }

/-- `cv_node node;` makes an unlinked node with an empty semaphore.
Source: `sys/condition_variable.hpp` `cv_node::cv_node`, `condition_variable::wait`
Kind: D -/
def State.callWait (s : State m) (i : Fin m) (other node : ℕ) : State m :=
  { s.goto i (.wait .lock other node) with
    next := Function.update s.next node 0
    count := Function.update s.count node 0
    signalled := Function.update s.signalled node false }

/-- The next step of a wait. A compare-exchange may fail although it finds what it expects.
Source: `sys/condition_variable.hpp` `condition_variable::wait`, `sys/semaphore.hpp` `semaphore::trywait`
Kind: D -/
def State.runWait (s : State m) (i : Fin m) (other node : ℕ) (spurious : Bool) :
    WaitPc → State m
  | .lock => if s.lock then s else { s.goto i (.wait .pushFront other node) with lock := true }
  | .pushFront =>
      { s.goto i (.wait .unlockOther other node) with
        next := Function.update s.next node s.head, head := node }
  | .unlockOther =>
      { s.goto i (.wait .unlock other node) with other := Function.update s.other other false }
  | .unlock => { s.goto i (.wait .load other node) with lock := false }
  | .load =>
      if 1 ≤ s.count node then s.goto i (.wait (.compareExchange (s.count node)) other node) else s
  | .compareExchange val =>
      if s.count node = val ∧ spurious = false then
        { s.goto i (.wait .lockOther other node) with
          count := Function.update s.count node (val - 1) }
      else s.goto i (.wait .load other node)
  | .lockOther =>
      if s.other other then s
      else { s.goto i (.wait .ret other node) with other := Function.update s.other other true }
  | .ret => s.goto i .idle

/-- The next step of a broadcast.
Source: `sys/condition_variable.hpp` `condition_variable::broadcast`, `sys/semaphore.hpp` `semaphore::signal`
Kind: D -/
def State.runBroadcast (s : State m) (i : Fin m) (targets done : List ℕ) :
    BroadcastPc → State m
  | .lock =>
      if s.lock then s
      else { s.goto i (.broadcast (.signal s.head) s.queued []) with lock := true }
  | .signal it =>
      if it = 0 then s.goto i (.broadcast .unlock targets done)
      else
        { s.goto i (.broadcast (.next it) targets (it :: done)) with
          count := Function.update s.count it (s.count it + 1)
          signalled := Function.update s.signalled it true }
  | .next it => s.goto i (.broadcast (.signal (s.next it)) targets done)
  | .unlock => { s.goto i .idle with lock := false }

/-! ## The system -/

/-- A thread calls `wait` with a node of its own or `broadcast`, or makes its next step; and somebody
takes or releases a lock that waits are called with.
Source: none: infrastructure
Kind: D -/
inductive Op (m : ℕ)
  | wait (i : Fin m) (other node : ℕ)
  | broadcast (i : Fin m)
  | run (i : Fin m) (spurious : Bool)
  | user (other : ℕ)
  deriving DecidableEq, Repr

/-- `other` is held at a call of `wait`, and the node is not that of another wait.
Source: none: infrastructure
Kind: D -/
def Legal (s : State m) : Op m → Prop
  | .wait i other node =>
      s.pc i = .idle ∧ s.other other = true ∧ node ≠ 0 ∧ ∀ j, (s.pc j).node? ≠ some node
  | .broadcast i => s.pc i = .idle
  | .run i _ => s.pc i ≠ .idle
  | .user _ => True

/-- Source: none: infrastructure
Kind: D
Fidelity: as in the optimised build, without assertions -/
def step (s : State m) : Op m → Option (State m)
  | .wait i other node => some (s.callWait i other node)
  | .broadcast i => some (s.goto i (.broadcast .lock [] []))
  | .run i spurious =>
      match s.pc i with
      | .idle => none
      | .wait pc other node => some (s.runWait i other node spurious pc)
      | .broadcast pc targets done => some (s.runBroadcast i targets done pc)
  | .user other => some { s with other := Function.update s.other other (!s.other other) }

/-- `m` threads that wait and broadcast any number of times.
Source: `sys/condition_variable.hpp` `condition_variable`
Kind: D -/
def system (m : ℕ) : System (State m) (Op m) := ⟨Legal, step⟩

instance (s : State m) : ∀ op : Op m, Decidable ((system m).legal s op)
  | .wait i other node =>
      inferInstanceAs (Decidable (s.pc i = .idle ∧ s.other other = true ∧ node ≠ 0 ∧
        ∀ j, (s.pc j).node? ≠ some node))
  | .broadcast i => inferInstanceAs (Decidable (s.pc i = .idle))
  | .run i _ => inferInstanceAs (Decidable (s.pc i ≠ .idle))
  | .user _ => inferInstanceAs (Decidable True)

/-- A wait that has released `other`.
Source: none: infrastructure
Kind: D -/
def Pc.Sleeps : Pc → ℕ → Prop
  | .wait .lock _ _, _ | .wait .pushFront _ _, _ | .wait .unlockOther _ _, _ => False
  | .wait _ _ node, a => node = a
  | _, _ => False

/-- The node that a broadcast is about to touch.
Source: none: infrastructure
Kind: D -/
def Pc.Touches : Pc → ℕ → Prop
  | .broadcast (.signal it) _ _, a => it = a ∧ it ≠ 0
  | .broadcast (.next it) _ _, a => it = a
  | _, _ => False

/-- The node of a wait is on the list from the release of `other` to its signal, all nodes on the list
and all those that a broadcast touches are of waits that have not returned, and a broadcast that is
through the list has signalled all that were queued when it took the lock.
Source: none: infrastructure
Kind: D -/
structure Safe (s : State m) : Prop where
  listed : ∃ l, Linked s.next 0 s.head l ∧
    (∀ i a, (s.pc i).Sleeps a → s.signalled a = false → a ∈ l) ∧
    ∀ a ∈ l, ∃ i, (s.pc i).node? = some a
  touches : ∀ i a, (s.pc i).Touches a → ∃ j, (s.pc j).node? = some a
  wakes : ∀ i targets done, s.pc i = .broadcast .unlock targets done → ∀ a ∈ targets, a ∈ done

/-- No wait returns.
Source: `sys/condition_variable.hpp` `condition_variable::wait`
Kind: D -/
def NoReturn (s : State m) : Op m → Prop
  | .run i _ => ∀ other node, s.pc i ≠ .wait .ret other node
  | _ => True

instance (s : State m) : ∀ op : Op m, Decidable (NoReturn s op)
  | .run i _ =>
      match h : s.pc i with
      | .wait .ret other node => isFalse fun hno => hno other node h
      | .wait .lock _ _ | .wait .pushFront _ _ | .wait .unlockOther _ _ | .wait .unlock _ _
      | .wait .load _ _ | .wait (.compareExchange _) _ _ | .wait .lockOther _ _
      | .idle | .broadcast _ _ _ => isTrue (by simp [NoReturn, h])
  | .wait _ _ _ | .broadcast _ | .user _ => isTrue trivial

/-! ## The invariant -/

/-- Source: none: infrastructure
Kind: D -/
def Pc.Holds : Pc → Prop
  | .wait .pushFront _ _ | .wait .unlockOther _ _ | .wait .unlock _ _ => True
  | .broadcast .lock _ _ => False
  | .broadcast _ _ _ => True
  | _ => False

/-- What is known of a broadcast when `l` is the list: the nodes before the iterator are signalled.
Source: none: infrastructure
Kind: D -/
def Pc.Fits (next : ℕ → ℕ) (l : List ℕ) : Pc → Prop
  | .broadcast (.signal it) targets done =>
      (∀ a ∈ targets, a ∈ l) ∧
        ∃ pre rest, l = pre ++ rest ∧ Linked next 0 it rest ∧ ∀ a ∈ pre, a ∈ done
  | .broadcast (.next it) targets done =>
      (∀ a ∈ targets, a ∈ l) ∧
        ∃ pre rest, l = pre ++ it :: rest ∧ Linked next 0 (next it) rest ∧ it ∈ done ∧
          ∀ a ∈ pre, a ∈ done
  | .broadcast .unlock targets done => (∀ a ∈ targets, a ∈ l) ∧ ∀ a ∈ l, a ∈ done
  | _ => True

/-- `l` is the list, and consists of the nodes of the waits that have put them there.
Source: none: infrastructure
Kind: D -/
structure Inv (s : State m) (l : List ℕ) : Prop where
  linked : Linked s.next 0 s.head l
  queued : ∀ a, a ∈ l ↔ ∃ i, (s.pc i).queued? = some a
  distinct : ∀ i j a, (s.pc i).node? = some a → (s.pc j).node? = some a → i = j
  nonnull : ∀ i a, (s.pc i).node? = some a → a ≠ 0
  holder : ∀ i, (s.pc i).Holds → s.lock = true
  exclusive : ∀ i j, (s.pc i).Holds → (s.pc j).Holds → i = j
  fits : ∀ i, (s.pc i).Fits s.next l

variable {s s' : State m} {i j : Fin m} {l : List ℕ} {pc : Pc} {a : ℕ}

/-- Source: none: infrastructure
Kind: L -/
theorem mem_queued : a ∈ s.queued ↔ ∃ i, (s.pc i).queued? = some a := by
  simp [State.queued]

/-- A node on the list belongs to its wait. Source: none: infrastructure. Kind: L -/
theorem Pc.node?_of_queued? (h : pc.queued? = some a) : pc.node? = some a := by
  unfold Pc.queued? at h
  split at h
  · simp at h
  · simp at h
  · exact h
  · simp at h

/-- Who sleeps has its node on the list. Source: none: infrastructure. Kind: L -/
theorem Pc.Sleeps.queued? (h : pc.Sleeps a) : pc.queued? = some a := by
  match pc, h with
  | .wait .unlock _ _, h | .wait .load _ _, h | .wait (.compareExchange _) _ _, h
  | .wait .lockOther _ _, h | .wait .ret _ _, h => exact congrArg some h

/-- Thread `i` goes to `pc` with the node it has, and the list does not change.
Source: none: infrastructure
Kind: D -/
structure Moves (s s' : State m) (i : Fin m) (pc : Pc) : Prop where
  goes : s'.pc = Function.update s.pc i pc
  next : s'.next = s.next
  head : s'.head = s.head
  node : pc.node? = (s.pc i).node?
  queued : pc.queued? = (s.pc i).queued?

/-- What a thread's place determines is as before, if it is so at the thread that moves.
Source: none: infrastructure
Kind: L -/
theorem Moves.same {α : Type*} {f : Pc → α} (h : Moves s s' i pc) (hf : f pc = f (s.pc i))
    (j : Fin m) : f (s'.pc j) = f (s.pc j) := by
  rw [h.goes]
  by_cases hj : j = i
  · subst hj
    rw [Function.update_self, hf]
  · rw [Function.update_of_ne hj]

/-- A thread moves on without the list.
Source: none: infrastructure
Kind: L -/
theorem Inv.move (h : Inv s l) (hm : Moves s s' i pc)
    (hothers : ∀ j ≠ i, (s.pc j).Holds → s'.lock = true ∧ ¬ pc.Holds)
    (hself : pc.Holds → s'.lock = true) (hfits : pc.Fits s.next l) : Inv s' l := by
  have hn := hm.same hm.node
  have hq := hm.same hm.queued
  refine ⟨?_, fun a => ?_, fun j k a => ?_, fun j a => ?_, fun j hj => ?_, fun j k hj hk => ?_,
    fun j => ?_⟩
  · rw [hm.next, hm.head]
    exact h.linked
  · simp only [hq]
    exact h.queued a
  · rw [hn, hn]
    exact h.distinct j k a
  · rw [hn]
    exact h.nonnull j a
  · rw [hm.goes] at hj
    by_cases hji : j = i
    · subst hji
      rw [Function.update_self] at hj
      exact hself hj
    · rw [Function.update_of_ne hji] at hj
      exact (hothers j hji hj).1
  · rw [hm.goes] at hj hk
    by_cases hji : j = i
    · by_cases hki : k = i
      · rw [hji, hki]
      · rw [hji, Function.update_self] at hj
        rw [Function.update_of_ne hki] at hk
        exact absurd hj (hothers k hki hk).2
    · rw [Function.update_of_ne hji] at hj
      by_cases hki : k = i
      · rw [hki, Function.update_self] at hk
        exact absurd hk (hothers j hji hj).2
      · rw [Function.update_of_ne hki] at hk
        exact h.exclusive j k hj hk
  · rw [hm.goes, hm.next]
    by_cases hji : j = i
    · subst hji
      rw [Function.update_self]
      exact hfits
    · rw [Function.update_of_ne hji]
      exact h.fits j

/-- The lock stays where it is. Source: none: infrastructure. Kind: L -/
theorem Inv.stay (h : Inv s l) (hm : Moves s s' i pc) (hlock : s'.lock = s.lock)
    (hholds : pc.Holds ↔ (s.pc i).Holds) (hfits : pc.Fits s.next l) : Inv s' l := by
  apply h.move hm _ _ hfits
  · intro j hj hjh
    rw [hlock]
    exact ⟨h.holder j hjh, fun hpc => hj (h.exclusive j i hjh (hholds.mp hpc))⟩
  · intro hpc
    rw [hlock]
    exact h.holder i (hholds.mp hpc)

/-- A thread takes the lock. Source: `sys/spinlock.hpp` `spinlock::lock`. Kind: L -/
theorem Inv.acquire (h : Inv s l) (hm : Moves s s' i pc) (hfree : s.lock = false)
    (hlock : s'.lock = true) (hfits : pc.Fits s.next l) : Inv s' l := by
  apply h.move hm _ (fun _ => hlock) hfits
  intro j _ hjh
  rw [h.holder j hjh] at hfree
  exact Bool.noConfusion hfree

/-- A thread releases the lock. Source: `sys/spinlock.hpp` `spinlock::unlock`. Kind: L -/
theorem Inv.release (h : Inv s l) (hm : Moves s s' i pc) (hheld : (s.pc i).Holds)
    (hholds : ¬ pc.Holds) (hfits : pc.Fits s.next l) : Inv s' l := by
  apply h.move hm _ (fun hpc => absurd hpc hholds) hfits
  intro j hj hjh
  exact absurd (h.exclusive j i hjh hheld) hj

/-- Of a thread that does not hold the lock nothing is known. Source: none: infrastructure. Kind: L -/
theorem Pc.fits_of_not_holds {next : ℕ → ℕ} (h : ¬ pc.Holds) : pc.Fits next l := by
  match pc, h with
  | .idle, _ | .wait _ _ _, _ | .broadcast .lock _ _, _ => exact trivial
  | .broadcast (.signal _) _ _, h | .broadcast (.next _) _ _, h | .broadcast .unlock _ _, h =>
      exact absurd trivial h

/-- What is known of a broadcast depends on the links of the list.
Source: none: infrastructure
Kind: L -/
theorem Pc.Fits.congr {next next' : ℕ → ℕ} (h : pc.Fits next l)
    (hnext : ∀ x ∈ l, next' x = next x) : pc.Fits next' l := by
  match pc, h with
  | .idle, _ | .wait _ _ _, _ | .broadcast .lock _ _, _ => exact trivial
  | .broadcast .unlock _ _, h => exact h
  | .broadcast (.signal _) _ _, ⟨htargets, pre, rest, hl, hlinked, hpre⟩ =>
      refine ⟨htargets, pre, rest, hl, hlinked.congr fun x hx => hnext x ?_, hpre⟩
      simp [hl, hx]
  | .broadcast (.next it) _ _, ⟨htargets, pre, rest, hl, hlinked, hit, hpre⟩ =>
      refine ⟨htargets, pre, rest, hl, ?_, hit, hpre⟩
      rw [hnext it (by simp [hl])]
      exact hlinked.congr fun x hx => hnext x (by simp [hl, hx])

/-- A call of `wait`, whose node is not on the list.
Source: `sys/condition_variable.hpp` `condition_variable::wait`
Kind: L -/
theorem Inv.callWait {other node : ℕ} (h : Inv s l) (hidle : s.pc i = .idle) (hnull : node ≠ 0)
    (hfresh : ∀ j, (s.pc j).node? ≠ some node) : Inv (s.callWait i other node) l := by
  have hout : node ∉ l := by
    intro hmem
    obtain ⟨j, hj⟩ := (h.queued node).mp hmem
    exact hfresh j (Pc.node?_of_queued? hj)
  have hsame : ∀ x ∈ l, Function.update s.next node 0 x = s.next x := by
    intro x hx
    apply Function.update_of_ne
    rintro rfl
    exact hout hx
  have hpc : ∀ j, (s.callWait i other node).pc j = if j = i then .wait .lock other node else s.pc j :=
    fun j => Function.update_apply s.pc i _ j
  refine ⟨h.linked.congr hsame, fun a => ?_, fun j k a hj hk => ?_, fun j a hj => ?_, fun j hj => ?_,
    fun j k hj hk => ?_, fun j => ?_⟩
  · rw [h.queued a]
    apply exists_congr
    intro j
    rw [hpc]
    split
    · rename_i hji
      rw [hji, hidle]
      simp [Pc.queued?]
    · rfl
  · rw [hpc] at hj hk
    split at hj
    · rename_i hji
      split at hk
      · rename_i hki
        rw [hji, hki]
      · rw [← hj] at hk
        exact absurd hk (hfresh k)
    · split at hk
      · rw [← hk] at hj
        exact absurd hj (hfresh j)
      · exact h.distinct j k a hj hk
  · rw [hpc] at hj
    split at hj
    · obtain rfl := Option.some.inj hj
      exact hnull
    · exact h.nonnull j a hj
  · rw [hpc] at hj
    split at hj
    · exact hj.elim
    · exact h.holder j hj
  · rw [hpc] at hj hk
    split at hj
    · exact hj.elim
    · split at hk
      · exact hk.elim
      · exact h.exclusive j k hj hk
  · rw [hpc]
    split
    · exact trivial
    · exact (h.fits j).congr hsame

/-- A wait puts its node in front of the list.
Source: `sys/condition_variable.hpp` `condition_variable::wait`
Kind: L -/
theorem Inv.pushFront {other node : ℕ} (h : Inv s l)
    (hat : s.pc i = .wait .pushFront other node) :
    Inv { s.goto i (.wait .unlockOther other node) with
      next := Function.update s.next node s.head, head := node } (node :: l) := by
  have hnode : (s.pc i).node? = some node := by
    rw [hat]
    rfl
  have hout : node ∉ l := by
    intro hmem
    obtain ⟨j, hj⟩ := (h.queued node).mp hmem
    obtain rfl := h.distinct j i node (Pc.node?_of_queued? hj) hnode
    simp [hat, Pc.queued?] at hj
  have hholds : (s.pc i).Holds := by
    rw [hat]
    exact trivial
  have hpc : ∀ j, Function.update s.pc i (.wait .unlockOther other node) j =
      if j = i then .wait .unlockOther other node else s.pc j :=
    fun j => Function.update_apply s.pc i _ j
  have hsame : ∀ {α : Type} (f : Pc → α), f (.wait .unlockOther other node) = f (s.pc i) →
      ∀ j, f (Function.update s.pc i (.wait .unlockOther other node) j) = f (s.pc j) := by
    intro α f hf j
    rw [hpc]
    split
    · rename_i hji
      rw [hji, hf]
    · rfl
  have hn := hsame Pc.node? (by rw [hat]; rfl)
  have hh := hsame Pc.Holds (by rw [hat]; rfl)
  refine ⟨h.linked.push (h.nonnull i node hnode) hout, fun a => ?_, fun j k a hj hk => ?_,
    fun j a hj => ?_, fun j hj => ?_, fun j k hj hk => ?_, fun j => ?_⟩
  · rw [List.mem_cons, h.queued a]
    constructor
    · rintro (rfl | ⟨j, hj⟩)
      · exact ⟨i, by simp [State.goto, Pc.queued?]⟩
      · refine ⟨j, ?_⟩
        simp only [State.goto, hpc]
        split
        · rename_i hji
          rw [hji, hat] at hj
          simp [Pc.queued?] at hj
        · exact hj
    · rintro ⟨j, hj⟩
      simp only [State.goto, hpc] at hj
      split at hj
      · exact Or.inl (Option.some.inj hj).symm
      · exact Or.inr ⟨j, hj⟩
  · rw [State.goto, hn] at hj hk
    exact h.distinct j k a hj hk
  · rw [State.goto, hn] at hj
    exact h.nonnull j a hj
  · rw [State.goto, hh] at hj
    exact h.holder j hj
  · rw [State.goto, hh] at hj hk
    exact h.exclusive j k hj hk
  · simp only [State.goto, hpc]
    split
    · exact trivial
    · rename_i hji
      exact Pc.fits_of_not_holds fun hjh => hji (h.exclusive j i hjh hholds)

/-- The steps of a wait before its return.
Source: `sys/condition_variable.hpp` `condition_variable::wait`
Kind: L -/
theorem Inv.runWait {other node : ℕ} {spurious : Bool} {pc : WaitPc} (h : Inv s l)
    (hat : s.pc i = .wait pc other node) (hret : pc ≠ .ret) :
    ∃ l', Inv (s.runWait i other node spurious pc) l' := by
  have hstay : ∀ (pc' : WaitPc) {s' : State m},
      s'.pc = Function.update s.pc i (.wait pc' other node) → s'.next = s.next →
      s'.head = s.head → Pc.queued? (.wait pc' other node) = Pc.queued? (.wait pc other node) →
      Moves s s' i (.wait pc' other node) := by
    intro pc' s' hpc hnext hhead hqueued
    refine ⟨hpc, hnext, hhead, ?_, ?_⟩
    · rw [hat]
      rfl
    · rw [hat, hqueued]
  cases pc with
  | lock =>
      simp only [State.runWait]
      split
      · exact ⟨l, h⟩
      · rename_i hfree
        exact ⟨l, h.acquire (hstay .pushFront rfl rfl rfl rfl) (by simpa using hfree) rfl trivial⟩
  | pushFront => exact ⟨_, h.pushFront hat⟩
  | unlockOther =>
      refine ⟨l, h.stay (hstay .unlock rfl rfl rfl rfl) rfl ?_ trivial⟩
      rw [hat]
      exact Iff.rfl
  | unlock =>
      refine ⟨l, h.release (hstay .load rfl rfl rfl rfl) ?_ id trivial⟩
      rw [hat]
      exact trivial
  | load =>
      simp only [State.runWait]
      split
      · refine ⟨l, h.stay (hstay (.compareExchange _) rfl rfl rfl rfl) rfl ?_ trivial⟩
        rw [hat]
        exact Iff.rfl
      · exact ⟨l, h⟩
  | compareExchange val =>
      simp only [State.runWait]
      split
      · refine ⟨l, h.stay (hstay .lockOther rfl rfl rfl rfl) rfl ?_ trivial⟩
        rw [hat]
        exact Iff.rfl
      · refine ⟨l, h.stay (hstay .load rfl rfl rfl rfl) rfl ?_ trivial⟩
        rw [hat]
        exact Iff.rfl
  | lockOther =>
      simp only [State.runWait]
      split
      · exact ⟨l, h⟩
      · refine ⟨l, h.stay (hstay .ret rfl rfl rfl rfl) rfl ?_ trivial⟩
        rw [hat]
        exact Iff.rfl
  | ret => exact absurd rfl hret

/-- The steps of a broadcast. Source: `sys/condition_variable.hpp` `condition_variable::broadcast`. Kind: L -/
theorem Inv.runBroadcast {targets done : List ℕ} {pc : BroadcastPc} (h : Inv s l)
    (hat : s.pc i = .broadcast pc targets done) : Inv (s.runBroadcast i targets done pc) l := by
  have hmoves : ∀ {pc' : Pc} {s' : State m}, s'.pc = Function.update s.pc i pc' →
      s'.next = s.next → s'.head = s.head → pc'.node? = none → pc'.queued? = none →
      Moves s s' i pc' := by
    intro pc' s' hpc hnext hhead hnode hqueued
    refine ⟨hpc, hnext, hhead, ?_, ?_⟩
    · rw [hat, hnode]
      rfl
    · rw [hat, hqueued]
      rfl
  have hfits := h.fits i
  rw [hat] at hfits
  cases pc with
  | lock =>
      simp only [State.runBroadcast]
      split
      · exact h
      · rename_i hfree
        refine h.acquire (hmoves rfl rfl rfl rfl rfl) (by simpa using hfree) rfl ?_
        refine ⟨fun a ha => (h.queued a).mpr (mem_queued.mp ha), [], l, rfl, h.linked, ?_⟩
        simp
  | signal it =>
      obtain ⟨htargets, pre, rest, hl, hlinked, hpre⟩ := hfits
      simp only [State.runBroadcast]
      split
      · rename_i hnull
        subst hnull
        refine h.stay (hmoves rfl rfl rfl rfl rfl) rfl ?_ ⟨htargets, ?_⟩
        · rw [hat]
          exact Iff.rfl
        · -- nothing is left after the iterator
          rw [hl, hlinked.unique linked_nil, List.append_nil]
          exact hpre
      · rename_i hnull
        have hne : rest ≠ [] := by
          rintro rfl
          exact hnull hlinked
        obtain ⟨rest', rfl, hlinked'⟩ := hlinked.pop hne
        refine h.stay (hmoves rfl rfl rfl rfl rfl) rfl ?_
          ⟨htargets, pre, rest', hl, hlinked', by simp, fun a ha => by simp [hpre a ha]⟩
        rw [hat]
        exact Iff.rfl
  | next it =>
      obtain ⟨htargets, pre, rest, hl, hlinked, hit, hpre⟩ := hfits
      refine h.stay (hmoves rfl rfl rfl rfl rfl) rfl ?_ ⟨htargets, pre ++ [it], rest, ?_, hlinked, ?_⟩
      · rw [hat]
        exact Iff.rfl
      · simp [hl]
      · intro a ha
        rcases List.mem_append.mp ha with ha | ha
        · exact hpre a ha
        · obtain rfl := List.mem_singleton.mp ha
          exact hit
  | unlock =>
      refine h.release (hmoves rfl rfl rfl rfl rfl) ?_ id trivial
      rw [hat]
      exact trivial

/-- Every step but a return keeps the invariant. Source: none: infrastructure. Kind: P -/
theorem Inv.step {op : Op m} (h : Inv s l) (hlegal : Legal s op) (hno : NoReturn s op)
    (hstep : ConditionVariable.step s op = some s') : ∃ l', Inv s' l' := by
  cases op with
  | wait i other node =>
      obtain rfl := Option.some.inj hstep
      obtain ⟨hidle, -, hnull, hfresh⟩ := hlegal
      exact ⟨l, h.callWait hidle hnull hfresh⟩
  | broadcast i =>
      obtain rfl := Option.some.inj hstep
      have hidle : s.pc i = .idle := hlegal
      have hmoves : Moves s (s.goto i (.broadcast .lock [] [])) i (.broadcast .lock [] []) := by
        refine ⟨rfl, rfl, rfl, ?_, ?_⟩
        · rw [hidle]
          rfl
        · rw [hidle]
          rfl
      refine ⟨l, h.stay hmoves rfl ?_ trivial⟩
      rw [hidle]
      exact Iff.rfl
  | run i spurious =>
      simp only [ConditionVariable.step] at hstep
      split at hstep
      · simp at hstep
      · rename_i pc other node hat
        obtain rfl := Option.some.inj hstep
        apply h.runWait hat
        rintro rfl
        exact hno other node hat
      · rename_i pc targets done hat
        obtain rfl := Option.some.inj hstep
        exact ⟨l, h.runBroadcast hat⟩
  | user other =>
      obtain rfl := Option.some.inj hstep
      exact ⟨l, h.linked, h.queued, h.distinct, h.nonnull, h.holder, h.exclusive, h.fits⟩

/-- The invariant holds at the start. Source: none: infrastructure. Kind: L -/
theorem inv_init (m : ℕ) : Inv (State.init m) [] where
  linked := linked_nil
  queued a := by simp [State.init, Pc.queued?]
  distinct i j a hi := by simp [State.init, Pc.node?] at hi
  nonnull i a hi := by simp [State.init, Pc.node?] at hi
  holder i hi := hi.elim
  exclusive i j hi := hi.elim
  fits i := trivial

/-- The invariant says what it is for. Source: none: infrastructure. Kind: L -/
theorem Inv.safe (h : Inv s l) : Safe s where
  listed := by
    refine ⟨l, h.linked, fun i a hi _ => (h.queued a).mpr ⟨i, hi.queued?⟩, fun a ha => ?_⟩
    obtain ⟨i, hi⟩ := (h.queued a).mp ha
    exact ⟨i, Pc.node?_of_queued? hi⟩
  touches i a hi := by
    have hfits := h.fits i
    have hmem : a ∈ l := by
      generalize s.pc i = pc at hi hfits
      match pc, hi, hfits with
      | .broadcast (.signal _) _ _, ⟨heq, hnull⟩, ⟨_, pre, rest, hl, hlinked, _⟩ =>
          have hne : rest ≠ [] := by
            rintro rfl
            exact hnull hlinked
          obtain ⟨rest', rfl, -⟩ := hlinked.pop hne
          simp [hl, heq]
      | .broadcast (.next _) _ _, heq, ⟨_, pre, rest, hl, _⟩ =>
          have heq : _ = a := heq
          simp [hl, heq]
    obtain ⟨j, hj⟩ := (h.queued a).mp hmem
    exact ⟨j, Pc.node?_of_queued? hj⟩
  wakes i targets done hi a ha := by
    have hfits := h.fits i
    rw [hi] at hfits
    exact hfits.2 a (hfits.1 a ha)

/-- A return leaves the node on the list.
Source: `sys/condition_variable.hpp` `condition_variable::wait`
Kind: L -/
theorem Inv.not_safe_of_ret {other node : ℕ} (h : Inv s l) (hat : s.pc i = .wait .ret other node) :
    ¬ Safe (s.goto i .idle) := by
  intro hsafe
  obtain ⟨l', hlinked, -, hlive⟩ := hsafe.listed
  obtain rfl : l' = l := hlinked.unique h.linked
  have hmem : node ∈ l' := (h.queued node).mpr ⟨i, by rw [hat]; rfl⟩
  obtain ⟨j, hj⟩ := hlive node hmem
  simp only [State.goto] at hj
  by_cases hji : j = i
  · subst hji
    simp [Pc.node?] at hj
  · rw [Function.update_of_ne hji] at hj
    exact hji (h.distinct j i node hj (by rw [hat]; rfl))

/-! ## The waiters -/

/-- **The waiter list is right until a wait returns.** After any run in which no wait has returned,
the next step keeps the waiters' nodes on the list until they are signalled, the list and the
broadcasts to nodes of waits that have not returned, and the broadcasts' promise to signal all that
were queued before, if and only if it is not the return of a wait.
Source: `sys/condition_variable.hpp` `condition_variable`
Kind: C
Fidelity: weaker than the code promises: up to the first return of a wait; assertions are off -/
theorem waiters_exactlyWhen (m : ℕ) :
    Safe (State.init m) ∧
      (system m).ExactlyWhen (State.init m) (fun _ _ s' => Safe s') NoReturn := by
  refine ⟨(inv_init m).safe, ?_⟩
  intro ops s op s' hrun hlegal hstep
  have hinv : ∃ l, Inv s l := by
    apply hrun.invariant (I := fun s => ∃ l, Inv s l)
    · exact ⟨[], inv_init m⟩
    · rintro s op s' ⟨l, h⟩ hlegal hstep
      exact h.step hlegal.1 hlegal.2 hstep
  obtain ⟨l, h⟩ := hinv
  constructor
  · intro hsafe
    cases op with
    | run i spurious =>
        intro other node hat
        simp only [system, ConditionVariable.step, hat] at hstep
        obtain rfl := Option.some.inj hstep
        exact h.not_safe_of_ret hat hsafe
    | _ => exact trivial
  · intro hno
    obtain ⟨l', h'⟩ := h.step hlegal hno hstep
    exact h'.safe

/-- Threads 0 and 1 wait with the nodes at 16 and 24, thread 2's broadcast goes through the list, and the wait
of thread 0 is about to return.
Source: none: infrastructure
Kind: D -/
def twoWaiters : List (Op 3) :=
  [.user 8, .wait 0 8 16, .run 0 false, .run 0 false, .run 0 false, .run 0 false,
    .user 8, .wait 1 8 24, .run 1 false, .run 1 false, .run 1 false, .run 1 false,
    .broadcast 2, .run 2 false, .run 2 false, .run 2 false, .run 2 false, .run 2 false, .run 2 false,
    .run 0 false, .run 0 false, .run 0 false]

/-- The broadcast has signalled both and may release the lock; the return of the wait leaves its node on the
list.
Source: `sys/condition_variable.hpp` `condition_variable::wait`, `condition_variable::broadcast`
Kind: C -/
theorem waiters_exactlyWhen_two :
    ∃ s s' t, (system 3).Run (State.init 3) twoWaiters s ∧
      s.pc 2 = .broadcast .unlock [16, 24] [16, 24] ∧ s.pc 0 = .wait .ret 8 16 ∧
      step s (.run 2 false) = some s' ∧ Safe s' ∧ step s (.run 0 false) = some t ∧ ¬ Safe t := by
  have hadmits : ((system 3).guard NoReturn).Admits (State.init 3) twoWaiters := by decide +kernel
  have hend : ((system 3).exec (State.init 3) twoWaiters).map (fun s => (s.pc 2, s.pc 0)) =
      some (.broadcast .unlock [16, 24] [16, 24], .wait .ret 8 16) := by decide +kernel
  obtain ⟨s, hexec, hrun⟩ := Lib.System.Run.of_admits hadmits
  have hexec : (system 3).exec (State.init 3) twoWaiters = some s := hexec
  rw [hexec, Option.map_some, Option.some_inj, Prod.mk.injEq] at hend
  obtain ⟨hbroadcast, hret⟩ := hend
  obtain ⟨s', hstep⟩ : ∃ s', step s (.run 2 false) = some s' := by
    simp only [step, hbroadcast]
    exact ⟨_, rfl⟩
  obtain ⟨t, hstep'⟩ : ∃ t, step s (.run 0 false) = some t := by
    simp only [step, hret]
    exact ⟨_, rfl⟩
  have hlegal : Legal s (.run 2 false) := by
    show s.pc 2 ≠ .idle
    rw [hbroadcast]
    exact nofun
  have hlegal' : Legal s (.run 0 false) := by
    show s.pc 0 ≠ .idle
    rw [hret]
    exact nofun
  have hno : NoReturn s (.run 2 false) := by
    intro other node hat
    rw [hbroadcast] at hat
    cases hat
  refine ⟨s, s', t, hrun.of_guard, hbroadcast, hret, hstep, ?_, hstep', fun hsafe => ?_⟩
  · exact ((waiters_exactlyWhen 3).2 twoWaiters s (.run 2 false) s' hrun hlegal hstep).mpr hno
  · exact ((waiters_exactlyWhen 3).2 twoWaiters s (.run 0 false) t hrun hlegal' hstep').mp hsafe 8 16 hret

/-- A wait, a broadcast that signals it, and its return, before the broadcast goes on to the next node.
Source: `sys/condition_variable.hpp` `condition_variable`
Kind: C -/
theorem waiters_not_always :
    ¬ ∀ m ops s, (system m).Run (State.init m) ops s → Safe s := by
  intro hall
  have hadm : (system 2).Admits (State.init 2) [.user 8, .wait 0 8 16, .run 0 false, .run 0 false,
      .run 0 false, .run 0 false, .broadcast 1, .run 1 false, .run 1 false, .run 0 false,
      .run 0 false, .run 0 false, .run 0 false] := by
    decide +kernel
  have hend : ((system 2).exec (State.init 2) [.user 8, .wait 0 8 16, .run 0 false, .run 0 false,
      .run 0 false, .run 0 false, .broadcast 1, .run 1 false, .run 1 false, .run 0 false,
      .run 0 false, .run 0 false, .run 0 false]).map (fun s => (s.head, s.pc 0, (s.pc 1).node?)) =
        some (16, .idle, none) := by
    decide +kernel
  obtain ⟨s, hexec, hrun⟩ := Lib.System.Run.of_admits hadm
  rw [hexec, Option.map_some, Option.some_inj, Prod.mk.injEq, Prod.mk.injEq] at hend
  obtain ⟨hhead, h0, h1⟩ := hend
  obtain ⟨l, hlinked, -, hlive⟩ := (hall 2 _ s hrun).listed
  rw [hhead] at hlinked
  have hne : l ≠ [] := by
    rintro rfl
    exact absurd hlinked (by simp [Linked])
  obtain ⟨rest, rfl, -⟩ := hlinked.pop hne
  obtain ⟨i, hi⟩ := hlive 16 (by simp)
  fin_cases i
  · simp [h0, Pc.node?] at hi
  · simp [h1] at hi

end ConditionVariable

end EbbRT
