import Mathlib

/-!
# Running until something holds

`Reaches f Q s`: running the partial function `f` from `s` comes, after finitely many steps, to a
state with `Q`. A rank that falls at every step shows it (`Reaches.of_rank`), and a set of states
without `Q` that no step leaves refutes it (`not_reaches`).
-/

namespace EbbRT.Lib

variable {σ : Type*} {f : σ → Option σ} {Q I : σ → Prop} {s : σ}

/-- After finitely many steps of `f` the state has `Q`.
Source: none: infrastructure
Kind: D -/
inductive Reaches (f : σ → Option σ) (Q : σ → Prop) : σ → Prop
  | now {s : σ} (h : Q s) : Reaches f Q s
  | later {s t : σ} (step : f s = some t) (h : Reaches f Q t) : Reaches f Q s

/-- **The rank rule**: while `Q` has not come, the invariant stays and the rank falls.
Source: none: infrastructure
Kind: P -/
theorem Reaches.of_rank (rank : σ → ℕ)
    (h : ∀ s, I s → ∃ t, f s = some t ∧ (Q t ∨ I t ∧ rank t < rank s)) (hs : I s) :
    Reaches f Q s := by
  induction hn : rank s using Nat.strong_induction_on generalizing s with
  | _ n ih =>
      obtain ⟨t, hstep, hQ | ⟨ht, hlt⟩⟩ := h s hs
      · exact Reaches.later hstep (Reaches.now hQ)
      · exact Reaches.later hstep (ih (rank t) (hn ▸ hlt) ht rfl)

/-- **The trap rule**: no step leaves the trap, and nothing in it has `Q`.
Source: none: infrastructure
Kind: P -/
theorem not_reaches (h : ∀ s, I s → ¬ Q s ∧ ∀ t, f s = some t → I t) (hs : I s) :
    ¬ Reaches f Q s := by
  intro hreach
  induction hreach with
  | now hQ => exact (h _ hs).1 hQ
  | later step _ ih => exact ih ((h _ hs).2 _ step)

end EbbRT.Lib
