import Mathlib

/-!
# Sets of numbers kept as intervals

An `IntervalSet` is a list of intervals, closed below and open above, in ascending order with a gap
between any two. `first` is the smallest element (`first_eq_some`), and `erase` takes one element out
of the interval that has it (`mem_erase`).
-/

namespace EbbRT.Lib

/-- Intervals in ascending order, none empty and no two touching.
Source: none: infrastructure
Kind: D -/
structure IntervalSet where
  segments : List (ℕ × ℕ)
  nonempty : ∀ i ∈ segments, i.1 < i.2
  apart : segments.Pairwise fun i j => i.2 < j.1

namespace IntervalSet

/-- `x` lies in one of the intervals.
Source: none: infrastructure
Kind: D -/
def Mem (s : IntervalSet) (x : ℕ) : Prop := ∃ i ∈ s.segments, i.1 ≤ x ∧ x < i.2

instance : Membership ℕ IntervalSet := ⟨Mem⟩

/-- The numbers from `a` on and below `b`, as a list of at most one interval.
Source: none: infrastructure
Kind: D -/
def segment (a b : ℕ) : List (ℕ × ℕ) := if a < b then [(a, b)] else []

/-- Source: none: infrastructure
Kind: L -/
theorem mem_segment {a b : ℕ} {i : ℕ × ℕ} : i ∈ segment a b ↔ i = (a, b) ∧ a < b := by
  unfold segment
  by_cases h : a < b
  · rw [if_pos h, List.mem_singleton]
    exact (and_iff_left h).symm
  · rw [if_neg h]
    exact ⟨fun hi => absurd hi List.not_mem_nil, fun hi => absurd hi.2 h⟩

/-- The numbers from `a` on and below `b`.
Source: none: infrastructure
Kind: D -/
def interval (a b : ℕ) : IntervalSet where
  segments := segment a b
  nonempty i hi := by
    obtain ⟨rfl, h⟩ := mem_segment.mp hi
    exact h
  apart := by
    unfold segment
    by_cases h : a < b
    · rw [if_pos h]
      exact List.pairwise_singleton _ _
    · rw [if_neg h]
      exact List.Pairwise.nil

/-- Source: none: infrastructure
Kind: L -/
theorem mem_interval {a b x : ℕ} : x ∈ interval a b ↔ a ≤ x ∧ x < b := by
  constructor
  · rintro ⟨i, hi, h⟩
    obtain ⟨rfl, -⟩ := mem_segment.mp hi
    exact h
  · intro h
    exact ⟨(a, b), mem_segment.mpr ⟨rfl, h.1.trans_lt h.2⟩, h⟩

/-- The smallest element.
Source: none: infrastructure
Kind: D -/
def first (s : IntervalSet) : Option ℕ := s.segments.head?.map Prod.fst

/-- **The first element** is one, and no other is smaller.
Source: none: infrastructure
Kind: P -/
theorem first_eq_some {s : IntervalSet} {x : ℕ} (h : s.first = some x) :
    x ∈ s ∧ ∀ y ∈ s, x ≤ y := by
  obtain ⟨i, hi, rfl⟩ := Option.map_eq_some_iff.mp h
  obtain ⟨rest, hrest⟩ := List.head?_eq_some_iff.mp hi
  have hmem : i ∈ s.segments := by
    rw [hrest]
    exact List.mem_cons_self
  refine ⟨⟨i, hmem, le_rfl, s.nonempty i hmem⟩, ?_⟩
  rintro y ⟨j, hj, hle, -⟩
  have hapart := s.apart
  rw [hrest] at hj hapart
  rcases List.mem_cons.mp hj with rfl | hj
  · exact hle
  · have hgap := (List.pairwise_cons.mp hapart).1 j hj
    have hpos := s.nonempty i hmem
    omega

/-- Only the empty set has no first element.
Source: none: infrastructure
Kind: L -/
theorem first_eq_none {s : IntervalSet} (h : s.first = none) (x : ℕ) : x ∉ s := by
  rintro ⟨i, hi, -⟩
  have hnil : s.segments = [] := List.head?_eq_none_iff.mp (Option.map_eq_none_iff.mp h)
  rw [hnil] at hi
  exact List.not_mem_nil hi

/-- The intervals without `x`: one of them is cut in two, loses an end, or goes.
Source: none: infrastructure
Kind: D -/
def eraseSegments (x : ℕ) : List (ℕ × ℕ) → List (ℕ × ℕ)
  | [] => []
  | (a, b) :: rest =>
      if b ≤ x then (a, b) :: eraseSegments x rest
      else if x < a then (a, b) :: rest
      else segment a x ++ (segment (x + 1) b ++ rest)

/-- What is left lies inside the intervals that were there.
Source: none: infrastructure
Kind: L -/
theorem mem_eraseSegments {x : ℕ} {l : List (ℕ × ℕ)} {i : ℕ × ℕ} (h : i ∈ eraseSegments x l)
    (hl : ∀ j ∈ l, j.1 < j.2) : i.1 < i.2 ∧ ∃ j ∈ l, j.1 ≤ i.1 ∧ i.2 ≤ j.2 := by
  induction l with
  | nil => exact absurd h List.not_mem_nil
  | cons j rest ih =>
      obtain ⟨hj, hrest⟩ := List.forall_mem_cons.mp hl
      unfold eraseSegments at h
      split_ifs at h with h1 h2
      · rcases List.mem_cons.mp h with rfl | h
        · exact ⟨hj, _, List.mem_cons_self, le_rfl, le_rfl⟩
        · obtain ⟨hi, k, hk, hin⟩ := ih h hrest
          exact ⟨hi, k, List.mem_cons_of_mem _ hk, hin⟩
      · exact ⟨hl i h, i, h, le_rfl, le_rfl⟩
      · rcases List.mem_append.mp h with h | h
        · obtain ⟨rfl, hlt⟩ := mem_segment.mp h
          exact ⟨hlt, j, List.mem_cons_self, le_rfl, by dsimp only; omega⟩
        · rcases List.mem_append.mp h with h | h
          · obtain ⟨rfl, hlt⟩ := mem_segment.mp h
            exact ⟨hlt, j, List.mem_cons_self, by dsimp only; omega, le_rfl⟩
          · exact ⟨hrest i h, i, List.mem_cons_of_mem _ h, le_rfl, le_rfl⟩

/-- The intervals stay apart.
Source: none: infrastructure
Kind: L -/
theorem pairwise_eraseSegments {x : ℕ} {l : List (ℕ × ℕ)} (hl : ∀ j ∈ l, j.1 < j.2)
    (h : l.Pairwise fun i j => i.2 < j.1) :
    (eraseSegments x l).Pairwise fun i j => i.2 < j.1 := by
  induction l with
  | nil => exact List.Pairwise.nil
  | cons j rest ih =>
      obtain ⟨hj, hrest⟩ := List.pairwise_cons.mp h
      obtain ⟨hpos, hl'⟩ := List.forall_mem_cons.mp hl
      unfold eraseSegments
      split_ifs with h1 h2
      · refine List.pairwise_cons.mpr ⟨fun i hi => ?_, ih hl' hrest⟩
        obtain ⟨-, k, hk, hle, -⟩ := mem_eraseSegments hi hl'
        exact (hj k hk).trans_le hle
      · exact h
      · refine List.pairwise_append.mpr ⟨(interval j.1 x).apart, ?_, fun i hi k hk => ?_⟩
        · refine List.pairwise_append.mpr ⟨(interval (x + 1) j.2).apart, hrest, fun i hi k hk => ?_⟩
          obtain ⟨rfl, -⟩ := mem_segment.mp hi
          exact hj k hk
        · obtain ⟨rfl, -⟩ := mem_segment.mp hi
          rcases List.mem_append.mp hk with hk | hk
          · obtain ⟨rfl, -⟩ := mem_segment.mp hk
            exact Nat.lt_succ_self x
          · have hgap := hj k hk
            dsimp only
            omega

/-- The set without `x`.
Source: none: infrastructure
Kind: D -/
def erase (s : IntervalSet) (x : ℕ) : IntervalSet where
  segments := eraseSegments x s.segments
  nonempty _ hi := (mem_eraseSegments hi s.nonempty).1
  apart := pairwise_eraseSegments s.nonempty s.apart

/-- What the intervals left have: what they had, but for `x`.
Source: none: infrastructure
Kind: L -/
theorem exists_mem_eraseSegments {x y : ℕ} {l : List (ℕ × ℕ)} (hl : ∀ j ∈ l, j.1 < j.2)
    (hapart : l.Pairwise fun i j => i.2 < j.1) :
    (∃ i ∈ eraseSegments x l, i.1 ≤ y ∧ y < i.2) ↔ (∃ i ∈ l, i.1 ≤ y ∧ y < i.2) ∧ y ≠ x := by
  induction l with
  | nil => simp [eraseSegments]
  | cons j rest ih =>
      obtain ⟨hj, hrest⟩ := List.pairwise_cons.mp hapart
      obtain ⟨hpos, hl'⟩ := List.forall_mem_cons.mp hl
      -- an interval after `j` has no element below the end of `j`
      have hlater : (∃ i ∈ rest, i.1 ≤ y ∧ y < i.2) → j.2 < y := by
        rintro ⟨i, hi, hle, -⟩
        exact (hj i hi).trans_le hle
      unfold eraseSegments
      split_ifs with h1 h2
      · rw [List.exists_mem_cons_iff, List.exists_mem_cons_iff, ih hl' hrest]
        constructor
        · rintro (h | h)
          · exact ⟨Or.inl h, by omega⟩
          · exact ⟨Or.inr h.1, h.2⟩
        · rintro ⟨h | h, hne⟩
          · exact Or.inl h
          · exact Or.inr ⟨h, hne⟩
      · refine ⟨fun h => ⟨h, ?_⟩, fun h => h.1⟩
        rcases (List.exists_mem_cons_iff ..).mp h with h | h
        · omega
        · have := hlater h
          omega
      · rw [List.exists_mem_cons_iff]
        constructor
        · rintro ⟨i, hi, h⟩
          rcases List.mem_append.mp hi with hi | hi
          · obtain ⟨rfl, -⟩ := mem_segment.mp hi
            dsimp only at h
            exact ⟨Or.inl (by omega), by omega⟩
          · rcases List.mem_append.mp hi with hi | hi
            · obtain ⟨rfl, -⟩ := mem_segment.mp hi
              dsimp only at h
              exact ⟨Or.inl (by omega), by omega⟩
            · have := hlater ⟨i, hi, h⟩
              exact ⟨Or.inr ⟨i, hi, h⟩, by omega⟩
        · rintro ⟨h | ⟨i, hi, h⟩, hne⟩
          · rcases Nat.lt_or_gt_of_ne hne with hlt | hgt
            · exact ⟨(j.1, x), List.mem_append_left _ (mem_segment.mpr ⟨rfl, by omega⟩), h.1, hlt⟩
            · refine ⟨(x + 1, j.2), List.mem_append_right _ (List.mem_append_left _ ?_), hgt, h.2⟩
              exact mem_segment.mpr ⟨rfl, by omega⟩
          · exact ⟨i, List.mem_append_right _ (List.mem_append_right _ hi), h⟩

/-- **Erasing** takes this element out and no other.
Source: none: infrastructure
Kind: P -/
theorem mem_erase {s : IntervalSet} {x y : ℕ} : y ∈ s.erase x ↔ y ∈ s ∧ y ≠ x :=
  exists_mem_eraseSegments s.nonempty s.apart

end IntervalSet

end EbbRT.Lib
