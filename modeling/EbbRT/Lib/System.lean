import Mathlib

/-!
# Runs of a guarded transition system

A system has a *legal* predicate, what its environment may ask for in a state, and a partial
*step*, what the code then does (`none` is an abort: the machine halts and no state follows).
`Run` is a finite sequence of legal steps that all return. An invariant is proved once for one
step and `Run.invariant` carries it over every run; `System.guard` narrows the legal steps, so
that "every run whose steps all meet a condition" is again the runs of a system.
-/

namespace EbbRT.Lib

variable {σ α : Type*}

/-- A transition system: what may be asked for, and what the code does.
Source: none: infrastructure
Kind: D -/
structure System (σ α : Type*) where
  /-- The requests the environment may make in a state. -/
  legal : σ → α → Prop
  /-- One request; `none` when the code aborts. -/
  step : σ → α → Option σ

namespace System

/-- The same code under a narrower environment.
Source: none: infrastructure
Kind: D -/
def guard (M : System σ α) (ok : σ → α → Prop) : System σ α where
  legal s a := M.legal s a ∧ ok s a
  step := M.step

instance (M : System σ α) (ok : σ → α → Prop) [∀ s a, Decidable (M.legal s a)]
    [∀ s a, Decidable (ok s a)] (s : σ) (a : α) : Decidable ((M.guard ok).legal s a) :=
  inferInstanceAs (Decidable (M.legal s a ∧ ok s a))

/-- `M.Run s₀ as s`: the requests `as`, in order, lead from `s₀` to `s`.
Source: none: infrastructure
Kind: D -/
inductive Run (M : System σ α) (s₀ : σ) : List α → σ → Prop
  | nil : Run M s₀ [] s₀
  | snoc {as : List α} {s : σ} {a : α} {s' : σ} (run : Run M s₀ as s) (legal : M.legal s a)
      (step : M.step s a = some s') : Run M s₀ (as ++ [a]) s'

variable {M : System σ α} {s₀ s : σ} {as : List α}

/-- A guarded run is a run.
Source: none: infrastructure
Kind: L -/
theorem Run.of_guard {ok : σ → α → Prop} (h : (M.guard ok).Run s₀ as s) : M.Run s₀ as s := by
  induction h with
  | nil => exact Run.nil
  | snoc _ legal step ih => exact Run.snoc ih legal.1 step

/-- **The invariant rule**: what holds at the start and is kept by every legal step holds after
every run.
Source: none: infrastructure
Kind: P -/
theorem Run.invariant {I : σ → Prop} (h : M.Run s₀ as s) (init : I s₀)
    (keep : ∀ s a s', I s → M.legal s a → M.step s a = some s' → I s') : I s := by
  induction h with
  | nil => exact init
  | snoc _ legal step ih => exact keep _ _ _ ih legal step

/-- **A condition that is exact for a step property.** After any run whose steps all met the
condition, the next step has the property if and only if it meets the condition too: in runs
that meet it every step is as it should be, and the first step that does not meet it is not.
Source: none: infrastructure
Kind: D -/
def ExactlyWhen (M : System σ α) (s₀ : σ) (P : σ → α → σ → Prop) (ok : σ → α → Prop) : Prop :=
  ∀ as s a s', (M.guard ok).Run s₀ as s → M.legal s a → M.step s a = some s' → (P s a s' ↔ ok s a)

/-- A step property that every legal step of every run has.
Source: none: infrastructure
Kind: D -/
def Always (M : System σ α) (s₀ : σ) (P : σ → α → σ → Prop) : Prop :=
  ∀ as s a s', M.Run s₀ as s → M.legal s a → M.step s a = some s' → P s a s'

/-- In runs that meet an exact condition every step has the property.
Source: none: infrastructure
Kind: L -/
theorem ExactlyWhen.always {P : σ → α → σ → Prop} {ok : σ → α → Prop}
    (h : M.ExactlyWhen s₀ P ok) : (M.guard ok).Always s₀ P :=
  fun as s a s' hrun hlegal hstep => (h as s a s' hrun hlegal.1 hstep).mpr hlegal.2

/-- Run the requests one after another.
Source: none: infrastructure
Kind: D -/
def exec (M : System σ α) : σ → List α → Option σ
  | s, [] => some s
  | s, a :: as => (M.step s a).bind fun s' => exec M s' as

/-- Every request is legal where it is made, and returns.
Source: none: infrastructure
Kind: D -/
def Admits (M : System σ α) : σ → List α → Prop
  | _, [] => True
  | s, a :: as =>
      M.legal s a ∧
        match M.step s a with
        | none => False
        | some s' => Admits M s' as

instance decidableAdmits (M : System σ α) [∀ s a, Decidable (M.legal s a)] :
    ∀ (s : σ) (as : List α), Decidable (M.Admits s as)
  | _, [] => inferInstanceAs (Decidable True)
  | s, a :: as =>
      match h : M.step s a with
      | none => isFalse (by rw [Admits, h]; exact fun h' => h'.2)
      | some s' =>
          letI := decidableAdmits M s' as
          decidable_of_iff (M.legal s a ∧ M.Admits s' as) (by rw [Admits, h])

/-- Runs compose.
Source: none: infrastructure
Kind: L -/
theorem Run.append {as bs : List α} {s t : σ} (h : M.Run s₀ as s) (h' : M.Run s bs t) :
    M.Run s₀ (as ++ bs) t := by
  induction h' with
  | nil => simpa using h
  | snoc _ legal step ih =>
      rw [← List.append_assoc]
      exact Run.snoc ih legal step

/-- A single legal step is a run.
Source: none: infrastructure
Kind: L -/
theorem Run.single {a : α} {s' : σ} (legal : M.legal s a) (step : M.step s a = some s') :
    M.Run s [a] s' :=
  @Run.snoc σ α M s [] s a s' Run.nil legal step

/-- Admitted requests make a run, to the state that executing them gives.
Source: none: infrastructure
Kind: L -/
theorem Run.of_admits {s : σ} {as : List α} (h : M.Admits s as) :
    ∃ s', M.exec s as = some s' ∧ M.Run s as s' := by
  induction as generalizing s with
  | nil => exact ⟨s, rfl, Run.nil⟩
  | cons a as ih =>
      obtain ⟨legal, h⟩ := h
      cases hstep : M.step s a with
      | none =>
          rw [hstep] at h
          exact h.elim
      | some t =>
          rw [hstep] at h
          obtain ⟨s', hexec, hrun⟩ := ih h
          exact ⟨s', by rw [exec, hstep]; exact hexec, (Run.single legal hstep).append hrun⟩

/-- Admitted requests can be split anywhere.
Source: none: infrastructure
Kind: L -/
theorem Admits.append {s : σ} {as bs : List α} (h : M.Admits s (as ++ bs)) :
    ∃ t, M.exec s as = some t ∧ M.Run s as t ∧ M.Admits t bs := by
  induction as generalizing s with
  | nil => exact ⟨s, rfl, Run.nil, h⟩
  | cons a as ih =>
      obtain ⟨legal, h⟩ := h
      cases hstep : M.step s a with
      | none =>
          rw [hstep] at h
          exact h.elim
      | some u =>
          rw [hstep] at h
          obtain ⟨t, hexec, hrun, hrest⟩ := ih h
          exact ⟨t, by rw [exec, hstep]; exact hexec, (Run.single legal hstep).append hrun, hrest⟩

/-- Splitting admitted requests at the last one.
Source: none: infrastructure
Kind: L -/
theorem Admits.last {s : σ} {as : List α} {a : α} (h : M.Admits s (as ++ [a])) :
    ∃ t t', M.exec s as = some t ∧ M.Run s as t ∧ M.legal t a ∧ M.step t a = some t' := by
  obtain ⟨t, hexec, hrun, legal, hrest⟩ := h.append
  cases hstep : M.step t a with
  | none =>
      rw [hstep] at hrest
      exact hrest.elim
  | some t' => exact ⟨t, t', hexec, hrun, legal, hstep⟩

/-- A step property of every run from a state is one of every run from a successor.
Source: none: infrastructure
Kind: L -/
theorem Always.of_step {P : σ → α → σ → Prop} {a : α} {s' : σ} (h : M.Always s₀ P)
    (legal : M.legal s₀ a) (step : M.step s₀ a = some s') : M.Always s' P :=
  fun as t b t' hrun => h ([a] ++ as) t b t' ((Run.single legal step).append hrun)

/-- One admitted run whose last step lacks the property refutes it.
Source: none: infrastructure
Kind: L -/
theorem not_always_of_admits {P : σ → α → σ → Prop} {as : List α} {a : α}
    (h : M.Admits s₀ (as ++ [a]))
    (hP : ∀ s s', M.exec s₀ as = some s → M.step s a = some s' → ¬ P s a s') :
    ¬ M.Always s₀ P := by
  intro hall
  obtain ⟨t, t', hexec, hrun, hlegal, hstep⟩ := h.last
  exact hP t t' hexec hstep (hall as t a t' hrun hlegal hstep)

end System

end EbbRT.Lib
