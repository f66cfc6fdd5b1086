import Mathlib

/-!
# Null-terminated lists

Elements linked by a function `next`, up to the link that is `null`: a stack kept in the memory of
its own elements. What the links outside the list are does not matter, so the memory of an element
may be used for anything else once the element has left the list.
-/

namespace EbbRT.Lib

variable {α : Type*} {next next' : α → α} {null head a : α} {l l' : List α}

/-- The elements from `head` to the null link are `l`.
Source: none: infrastructure
Kind: D -/
def Linked (next : α → α) (null : α) : α → List α → Prop
  | head, [] => head = null
  | head, a :: l => head = a ∧ a ≠ null ∧ Linked next null (next a) l

/-- The empty list. Source: none: infrastructure. Kind: L -/
theorem linked_nil : Linked next null null [] := rfl

/-- A list depends only on the links of its elements. Source: none: infrastructure. Kind: L -/
theorem Linked.congr (h : Linked next null head l) (hnext : ∀ x ∈ l, next' x = next x) :
    Linked next' null head l := by
  induction l generalizing head with
  | nil => exact h
  | cons a l ih =>
      obtain ⟨hhead, hnull, h⟩ := h
      refine ⟨hhead, hnull, ?_⟩
      rw [hnext a (by simp)]
      apply ih h
      intro x hx
      exact hnext x (by simp [hx])

/-- Pushing an element: its link becomes the old head.
Source: none: infrastructure
Kind: L -/
theorem Linked.push [DecidableEq α] (h : Linked next null head l) (hnull : a ≠ null) (ha : a ∉ l) :
    Linked (Function.update next a head) null a (a :: l) := by
  refine ⟨rfl, hnull, ?_⟩
  rw [Function.update_self]
  apply h.congr
  intro x hx
  apply Function.update_of_ne
  rintro rfl
  exact ha hx

/-- A list that is not empty starts at its head, and goes on from the head's link.
Source: none: infrastructure
Kind: L -/
theorem Linked.pop (h : Linked next null head l) (hne : l ≠ []) :
    ∃ rest, l = head :: rest ∧ Linked next null (next head) rest := by
  match l, hne with
  | a :: rest, _ =>
      obtain ⟨rfl, -, h⟩ := h
      exact ⟨rest, rfl, h⟩

/-- The links determine the list. Source: none: infrastructure. Kind: L -/
theorem Linked.unique (h : Linked next null head l) (h' : Linked next null head l') : l = l' := by
  induction l generalizing head l' with
  | nil =>
      match l', h' with
      | [], _ => rfl
      | a :: _, h' => exact absurd (h'.1.symm.trans h) h'.2.1
  | cons a l ih =>
      obtain ⟨rfl, hnull, h⟩ := h
      match l', h' with
      | [], h' => exact absurd h' hnull
      | _ :: _, ⟨heq, _, h'⟩ =>
          subst heq
          rw [ih h h']

end EbbRT.Lib
