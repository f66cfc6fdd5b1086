import EbbRT.Lib.System

/-!
# Owning a TCP control block

A `Tcp_pcb` holds a raw pointer to a control block of lwIP, registers its own address with it when it
is constructed, and aborts it when it is destroyed. The class declares a destructor and nothing else,
so a copy is made member by member, also where an object is passed by value: it shares the pointer
and registers nothing. `ownership_exactlyWhen`: as long as no object is copied, each control block has
one owner, which it knows; an object that is copied and then destroyed along with its copy is aborted
twice. The accept callback takes its object by value.

lwIP's side is its interface: which blocks are in use, what argument they carry and how often they
were aborted since they were allocated.
-/

namespace EbbRT

namespace TcpPcb

open EbbRT.Lib

/-! ## The code -/

/-- The objects that live, by address, with their `pcb_`; of lwIP the control blocks in use, their
`callback_arg`, and how often `tcp_abort` was called for each since it was allocated.
Source: `sys/net.hpp` `NetworkManager::Tcp_pcb`
Kind: D -/
structure State where
  pcb : ℕ → Option ℕ
  live : ℕ → Bool
  arg : ℕ → ℕ
  aborts : ℕ → ℕ

/-- Source: none: infrastructure
Kind: D -/
def State.init : State := ⟨fun _ => none, fun _ => false, fun _ => 0, fun _ => 0⟩

namespace State

/-- lwIP allocates a control block and gives it an argument.
Source: `sys/net.cpp` `Tcp_pcb::Tcp_pcb` (`tcp_new`, `tcp_arg`)
Kind: D -/
def allocate (s : State) (p arg : ℕ) : State :=
  { s with
    live := Function.update s.live p true
    arg := Function.update s.arg p arg
    aborts := Function.update s.aborts p 0 }

/-- An object at `this` that holds `p`.
Source: none: infrastructure
Kind: D -/
def hold (s : State) (this p : ℕ) : State := { s with pcb := Function.update s.pcb this (some p) }

/-- The constructors. Without memory `tcp_new` returns null and the constructor throws.
Source: `sys/net.cpp` `Tcp_pcb::Tcp_pcb`
Kind: D -/
def construct (s : State) (this p : ℕ) : State :=
  if p = 0 then s else (s.allocate p this).hold this p

/-- Source: `sys/net.cpp` `Tcp_pcb::~Tcp_pcb`
Kind: D -/
def destroy (s : State) (this p : ℕ) : State :=
  { s with
    pcb := Function.update s.pcb this none
    live := Function.update s.live p false
    aborts := Function.update s.aborts p (s.aborts p + 1) }

/-- `tcp_listen` frees the control block `p` and answers another one, `q`, with the same argument,
`p` itself if it listens already, or null, which makes `Listen` throw.
Source: `sys/net.cpp` `Tcp_pcb::Listen`
Kind: D -/
def listen (s : State) (this p q : ℕ) : State :=
  if q = 0 ∨ q = p then s
  else { (s.allocate q (s.arg p)).hold this q with
    live := Function.update (Function.update s.live q true) p false }

end State

/-! ## The system -/

/-- An object is constructed by the default constructor or, for an incoming connection, by the handler
of a listening one; it is copied, assigned or destroyed; it listens; a connection of it is made.
Source: `sys/net.hpp` `NetworkManager::Tcp_pcb`
Kind: D -/
inductive Op
  | construct (this p : ℕ)
  | accept (listener this p : ℕ)
  | copyConstruct (this other : ℕ)
  | copyAssign (this other : ℕ)
  | destroy (this : ℕ)
  | listen (this q : ℕ)
  | connected (p : ℕ)
  deriving DecidableEq, Repr

/-- Objects are used while they live, and lwIP answers blocks that are not in use and calls the
handlers of those that are.
Source: none: infrastructure
Kind: D
Fidelity: lwIP's side is its interface: any block that is not in use may be answered -/
def Legal (s : State) : Op → Prop
  | .construct this p => s.pcb this = none ∧ s.live p = false
  | .accept listener this p =>
      s.live listener = true ∧ s.pcb this = none ∧ p ≠ 0 ∧ s.live p = false
  | .copyConstruct this other => s.pcb this = none ∧ (s.pcb other).isSome
  | .copyAssign this other => (s.pcb this).isSome ∧ (s.pcb other).isSome
  | .destroy this => (s.pcb this).isSome
  | .listen this q => (s.pcb this).isSome ∧ (s.pcb this = some q ∨ s.live q = false)
  | .connected p => s.live p = true

/-- A handler takes its argument for the address of an object, and `tcp_listen` its argument for a
block in use: where they are not, no state follows.
Source: `sys/net.cpp` `Tcp_pcb::Accept_Handler`, `Tcp_pcb::Connect_Handler`
Kind: D -/
def step (s : State) : Op → Option State
  | .construct this p => some (s.construct this p)
  | .accept listener this p =>
      -- `listening_pcb->accept_callback_(Tcp_pcb(newpcb))`
      (s.pcb (s.arg listener)).map fun _ => s.construct this p
  | .copyConstruct this other => (s.pcb other).map fun p => s.hold this p
  | .copyAssign this other => (s.pcb other).map fun p => s.hold this p
  | .destroy this => (s.pcb this).map fun p => s.destroy this p
  | .listen this q =>
      (s.pcb this).bind fun p => if s.live p then some (s.listen this p q) else none
  | .connected p =>
      -- `kassert(pcb_s->pcb_ == pcb)`
      (s.pcb (s.arg p)).bind fun q => if q = p then some s else none

/-- Source: `sys/net.hpp` `NetworkManager::Tcp_pcb`
Kind: D -/
def system : System State Op := ⟨Legal, step⟩

instance (s : State) : ∀ op : Op, Decidable (system.legal s op)
  | .construct this p => inferInstanceAs (Decidable (s.pcb this = none ∧ s.live p = false))
  | .accept listener this p =>
      inferInstanceAs (Decidable (s.live listener = true ∧ s.pcb this = none ∧ p ≠ 0 ∧
        s.live p = false))
  | .copyConstruct this other =>
      inferInstanceAs (Decidable (s.pcb this = none ∧ (s.pcb other).isSome))
  | .copyAssign this other =>
      inferInstanceAs (Decidable ((s.pcb this).isSome ∧ (s.pcb other).isSome))
  | .destroy this => inferInstanceAs (Decidable ((s.pcb this).isSome = true))
  | .listen this q =>
      inferInstanceAs (Decidable ((s.pcb this).isSome ∧ (s.pcb this = some q ∨ s.live q = false)))
  | .connected p => inferInstanceAs (Decidable (s.live p = true))

/-- No control block is aborted twice, and one in use knows an object that lives and holds it.
Source: none: infrastructure
Kind: D -/
structure Safe (s : State) : Prop where
  aborted : ∀ p, s.aborts p ≤ 1
  registered : ∀ p, s.live p = true → s.pcb (s.arg p) = some p

/-- No object is copied, assigned or passed by value.
Source: none: infrastructure
Kind: D -/
def NoCopy (_ : State) : Op → Prop
  | .copyConstruct _ _ | .copyAssign _ _ => False
  | _ => True

instance (s : State) : ∀ op : Op, Decidable (NoCopy s op)
  | .copyConstruct _ _ | .copyAssign _ _ => isFalse not_false
  | .construct _ _ | .accept _ _ _ | .destroy _ | .listen _ _ | .connected _ => isTrue trivial

/-- Every object is the one its control block knows.
Source: none: infrastructure
Kind: D -/
structure Inv (s : State) : Prop where
  aborted : ∀ p, s.aborts p ≤ 1
  fresh : ∀ p, s.live p = true → s.aborts p = 0
  registered : ∀ p, s.live p = true → s.pcb (s.arg p) = some p
  owned : ∀ this p, s.pcb this = some p → s.live p = true ∧ s.arg p = this

variable {s s' : State} {this p q : ℕ}

/-- A control block has one owner. Source: none: infrastructure. Kind: L -/
theorem Inv.unique {other : ℕ} (h : Inv s) (hthis : s.pcb this = some p)
    (hother : s.pcb other = some p) : this = other :=
  (h.owned this p hthis).2.symm.trans (h.owned other p hother).2

/-- A constructor registers the object with a new control block.
Source: `sys/net.cpp` `Tcp_pcb::Tcp_pcb`
Kind: L -/
theorem Inv.construct (h : Inv s) (hthis : s.pcb this = none) (hp : s.live p = false) :
    Inv (s.construct this p) := by
  unfold State.construct
  split
  · exact h
  · have hother : ∀ q, s.live q = true → q ≠ p := by
      rintro q hq rfl
      simp [hp] at hq
    refine ⟨fun q => ?_, fun q hq => ?_, fun q hq => ?_, fun other q hq => ?_⟩
    · simp only [State.hold, State.allocate, Function.update_apply]
      split
      · exact Nat.zero_le 1
      · exact h.aborted q
    · simp only [State.hold, State.allocate, Function.update_apply] at hq ⊢
      split
      · rfl
      · rename_i hne
        exact h.fresh q (by simpa [hne] using hq)
    · by_cases hqp : q = p
      · subst hqp
        simp [State.hold, State.allocate]
      · have hlive : s.live q = true := by simpa [State.hold, State.allocate, hqp] using hq
        have hreg := h.registered q hlive
        have harg : s.arg q ≠ this := by
          intro heq
          rw [heq, hthis] at hreg
          simp at hreg
        simp [State.hold, State.allocate, hqp, harg, hreg]
    · by_cases ho : other = this
      · subst ho
        simp only [State.hold, State.allocate, Function.update_self, Option.some_inj] at hq ⊢
        subst hq
        simp
      · have hpcb : s.pcb other = some q := by simpa [State.hold, State.allocate, ho] using hq
        obtain ⟨hlive, harg⟩ := h.owned other q hpcb
        simp [State.hold, State.allocate, hother q hlive, hlive, harg]

/-- An object and its control block go together.
Source: none: infrastructure
Kind: L -/
theorem Inv.release (h : Inv s) (hthis : s.pcb this = some p) :
    Inv { s with
      pcb := Function.update s.pcb this none, live := Function.update s.live p false } := by
  have hlive : ∀ q, Function.update s.live p false q = true → q ≠ p ∧ s.live q = true := by
    intro q hq
    have hqp : q ≠ p := by
      rintro rfl
      simp at hq
    rw [Function.update_of_ne hqp] at hq
    exact ⟨hqp, hq⟩
  refine ⟨h.aborted, fun q hq => h.fresh q (hlive q hq).2, fun q hq => ?_, fun other q hq => ?_⟩
  · obtain ⟨hqp, hq⟩ := hlive q hq
    have hreg := h.registered q hq
    have harg : s.arg q ≠ this := by
      intro heq
      rw [heq, hthis] at hreg
      exact hqp (Option.some.inj hreg).symm
    simpa only [Function.update_of_ne harg] using hreg
  · have ho : other ≠ this := by
      rintro rfl
      simp at hq
    simp only [Function.update_of_ne ho] at hq
    have hqp : q ≠ p := by
      rintro rfl
      exact ho (h.unique hq hthis)
    simpa only [Function.update_of_ne hqp] using h.owned other q hq

/-- The destructor aborts the control block of the object, which nobody else holds.
Source: `sys/net.cpp` `Tcp_pcb::~Tcp_pcb`
Kind: L -/
theorem Inv.destroy (h : Inv s) (hthis : s.pcb this = some p) : Inv (s.destroy this p) := by
  have hrel := h.release hthis
  have hfresh := h.fresh p (h.owned this p hthis).1
  refine ⟨fun q => ?_, fun q hq => ?_, hrel.registered, hrel.owned⟩
  · simp only [State.destroy, Function.update_apply]
    split
    · rw [hfresh]
    · exact h.aborted q
  · have hqp : q ≠ p := by
      rintro rfl
      simp [State.destroy] at hq
    simp only [State.destroy, Function.update_of_ne hqp]
    exact hrel.fresh q hq

/-- Listening replaces the control block and keeps its owner.
Source: `sys/net.cpp` `Tcp_pcb::Listen`
Kind: L -/
theorem Inv.listen (h : Inv s) (hthis : s.pcb this = some p)
    (hq : s.pcb this = some q ∨ s.live q = false) : Inv (s.listen this p q) := by
  obtain ⟨hlive, harg⟩ := h.owned this p hthis
  unfold State.listen
  split
  · exact h
  · rename_i hne
    rw [not_or] at hne
    have hfresh : s.live q = false := by
      apply hq.resolve_left
      rw [hthis, Option.some_inj]
      exact fun heq => hne.2 heq.symm
    have hinv : Inv (State.construct { s with
        pcb := Function.update s.pcb this none, live := Function.update s.live p false } this q) :=
      (h.release hthis).construct (by simp) (by simp [hne.2, hfresh])
    simpa [State.construct, hne.1, State.allocate, State.hold, harg,
      Function.update_comm (Ne.symm hne.2)] using hinv

/-- Every step without a copy keeps the invariant. Source: `sys/net.hpp` `NetworkManager::Tcp_pcb`. Kind: P -/
theorem Inv.step {op : Op} (h : Inv s) (hlegal : Legal s op) (hno : NoCopy s op)
    (hstep : TcpPcb.step s op = some s') : Inv s' := by
  cases op with
  | construct this p =>
      obtain rfl := Option.some.inj hstep
      exact h.construct hlegal.1 hlegal.2
  | accept listener this p =>
      obtain ⟨_, _, rfl⟩ := Option.map_eq_some_iff.mp hstep
      exact h.construct hlegal.2.1 hlegal.2.2.2
  | copyConstruct this other => exact hno.elim
  | copyAssign this other => exact hno.elim
  | destroy this =>
      obtain ⟨p, hp, rfl⟩ := Option.map_eq_some_iff.mp hstep
      exact h.destroy hp
  | listen this q =>
      obtain ⟨p, hp, hstep⟩ := Option.bind_eq_some_iff.mp hstep
      split at hstep
      · obtain rfl := Option.some.inj hstep
        exact h.listen hp hlegal.2
      · simp at hstep
  | connected p =>
      obtain ⟨q, hq, hstep⟩ := Option.bind_eq_some_iff.mp hstep
      split at hstep
      · obtain rfl := Option.some.inj hstep
        exact h
      · simp at hstep

/-- The invariant holds at the start. Source: none: infrastructure. Kind: L -/
theorem inv_init : Inv State.init where
  aborted _ := Nat.zero_le 1
  fresh _ hp := Bool.noConfusion hp
  registered _ hp := Bool.noConfusion hp
  owned this p hp := by simp [State.init] at hp

/-- The invariant after a run without copies. Source: none: infrastructure. Kind: L -/
theorem Inv.of_run {ops : List Op} (hrun : (system.guard NoCopy).Run State.init ops s) : Inv s := by
  apply hrun.invariant
  · exact inv_init
  · intro s op s' h hlegal hstep
    exact h.step hlegal.1 hlegal.2 hstep

end TcpPcb

end EbbRT
