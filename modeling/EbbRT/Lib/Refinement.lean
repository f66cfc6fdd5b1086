import EbbRT.Lib.System

/-!
# Projecting the runs of a system

A system with more detail than another one: a map of the states takes each of its steps to a step of the
other system, or to no step. Then it takes runs to runs (`Projects.run`), and what every step of the other
system does is done by every step of this one (`Projects.always`).
-/

namespace EbbRT.Lib

namespace System

variable {σ τ α β : Type*} {M : System σ α} {N : System τ β} {f : σ → τ} {I : σ → Prop} {s₀ s : σ}

/-- In the states of an invariant, `f` takes every step of `M` to a step of `N` or to none.
Source: none: infrastructure
Kind: D -/
structure Projects (M : System σ α) (N : System τ β) (f : σ → τ) (I : σ → Prop) : Prop where
  keep : ∀ s a s', I s → M.legal s a → M.step s a = some s' → I s'
  step : ∀ s a s', I s → M.legal s a → M.step s a = some s' →
    f s' = f s ∨ ∃ b, N.legal (f s) b ∧ N.step (f s) b = some (f s')

namespace Projects

/-- **Runs are taken to runs.** Source: none: infrastructure. Kind: P -/
theorem run {as : List α} (h : Projects M N f I) (hs : I s₀) (hrun : M.Run s₀ as s) :
    I s ∧ ∃ bs, N.Run (f s₀) bs (f s) := by
  induction hrun with
  | nil => exact ⟨hs, [], Run.nil⟩
  | snoc _ legal step ih =>
      obtain ⟨hI, bs, hbs⟩ := ih
      refine ⟨h.keep _ _ _ hI legal step, ?_⟩
      rcases h.step _ _ _ hI legal step with heq | ⟨b, hlegal, hstep⟩
      · exact ⟨bs, heq ▸ hbs⟩
      · exact ⟨bs ++ [b], hbs.snoc hlegal hstep⟩

/-- A step property that also holds of no step is taken over.
Source: none: infrastructure
Kind: P -/
theorem always {P : τ → τ → Prop} (h : Projects M N f I) (hs : I s₀)
    (hP : N.Always (f s₀) fun t _ t' => P t t') (hrefl : ∀ bs t, N.Run (f s₀) bs t → P t t) :
    M.Always s₀ fun s _ s' => P (f s) (f s') := by
  intro as s a s' hrun hlegal hstep
  obtain ⟨hI, bs, hbs⟩ := h.run hs hrun
  rcases h.step s a s' hI hlegal hstep with heq | ⟨b, hlegal', hstep'⟩
  · show P (f s) (f s')
    rw [heq]
    exact hrefl bs _ hbs
  · exact hP bs _ b _ hbs hlegal' hstep'

end Projects

end System

end EbbRT.Lib
