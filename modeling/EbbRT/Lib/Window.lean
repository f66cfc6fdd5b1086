import Mathlib

/-!
# Windows of wrapping indices

Two parties count events with free-running indices of which only the remainder modulo `m` is
stored. As long as two indices are less than `m` apart, equality of the remainders is equality
(`eq_of_mod_eq`), and the usual comparison of differences tells whether an index lies in the window
between an old and a new one (`crossed_of_mem`).
-/

namespace EbbRT.Lib

variable {m old new event : ℕ}

/-- The comparison of stored indices: `new - event - 1 < new - old`, both modulo `m`.
Source: none: infrastructure
Kind: D -/
def Crossed (m event new old : ℕ) : Prop :=
  (new + 2 * m - event - 1) % m < (new + m - old) % m

instance (m event new old : ℕ) : Decidable (Crossed m event new old) :=
  inferInstanceAs (Decidable (_ < _))

/-- Nothing is crossed where the index stays. Source: none: infrastructure. Kind: L -/
theorem not_crossed_self (m event old : ℕ) : ¬ Crossed m event old old := by
  unfold Crossed
  rw [Nat.add_sub_cancel_left, Nat.mod_self]
  exact Nat.not_lt_zero _

/-- Indices less than `m` apart are equal when their remainders are.
Source: none: infrastructure
Kind: L -/
theorem eq_of_mod_eq (hle : old ≤ new) (hlt : new < old + m) (h : old % m = new % m) :
    old = new := by
  have hdvd : m ∣ new - old := (Nat.modEq_iff_dvd' hle).mp h
  have hzero := Nat.eq_zero_of_dvd_of_lt hdvd (by omega)
  omega

/-- A difference can be computed with the remainders of what is subtracted.
Source: none: infrastructure
Kind: L -/
theorem mod_eq_of_add {x d c c' : ℕ} (hc : c ≡ c' [MOD m]) (hsum : x + c ≡ d + c' [MOD m])
    (hd : d < m) : x % m = d := by
  have h : x ≡ d [MOD m] := Nat.ModEq.add_right_cancel hc hsum
  unfold Nat.ModEq at h
  rw [h, Nat.mod_eq_of_lt hd]

/-- The difference of two remainders, taken modulo `m`, is that of the indices.
Source: none: infrastructure
Kind: L -/
theorem sub_mod_eq (hle : old ≤ new) (hlt : new < old + m) :
    (new % m + m - old % m) % m = new - old := by
  have hmod : old % m < m := Nat.mod_lt _ (by omega)
  apply mod_eq_of_add (Nat.mod_modEq old m) _ (by omega)
  have h1 : new % m + m - old % m + old % m = new % m + m := by omega
  have h2 : new - old + old = new := by omega
  rw [h1, h2]
  exact (Nat.add_modEq_right).trans (Nat.mod_modEq new m)

/-- **An index in the window is found by the comparison of the stored ones.**
Source: none: infrastructure
Kind: P -/
theorem crossed_of_mem (hle : old ≤ event) (hlt : event < new) (hm : new < old + m) :
    Crossed m (event % m) (new % m) (old % m) := by
  have hmod : event % m < m := Nat.mod_lt _ (by omega)
  have hnew : (new % m + 2 * m - event % m - 1) % m = new - event - 1 := by
    apply mod_eq_of_add (Nat.ModEq.add_right 1 (Nat.mod_modEq event m)) _ (by omega)
    have h1 : new % m + 2 * m - event % m - 1 + (event % m + 1) = new % m + m + m := by omega
    have h2 : new - event - 1 + (event + 1) = new := by omega
    rw [h1, h2]
    exact (Nat.add_modEq_right.trans Nat.add_modEq_right).trans (Nat.mod_modEq new m)
  unfold Crossed
  rw [hnew, sub_mod_eq (by omega) hm]
  omega

end EbbRT.Lib
