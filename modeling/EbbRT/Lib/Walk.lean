import Mathlib

/-!
# Walking through links

Elements linked by a function `next`, as an array of indices is. A list kept in such links may be
bounded by a *count* (`walk`: so many steps from the head, the last link means nothing) or by a
*mark* (`IsChain`: every element but the last is marked as having a successor). `follow` is the
loop that walks until the mark is missing.
-/

namespace EbbRT.Lib

variable {α : Type*} {next next' : α → α} {more more' : α → Bool} {a b : α} {c l : List α} {n : ℕ}

/-- The first `n` elements from `a`.
Source: none: infrastructure
Kind: D -/
def walk (next : α → α) : ℕ → α → List α
  | 0, _ => []
  | n + 1, a => a :: walk next n (next a)

@[simp] theorem length_walk (next : α → α) (n : ℕ) (a : α) : (walk next n a).length = n := by
  induction n generalizing a with
  | zero => rfl
  | succ n ih => simp [walk, ih]

/-- A walk goes on from where its first part ends. Source: none: infrastructure. Kind: L -/
theorem walk_add (next : α → α) (m n : ℕ) (a : α) :
    walk next (m + n) a = walk next m a ++ walk next n (next^[m] a) := by
  induction m generalizing a with
  | zero => simp [walk]
  | succ m ih =>
      rw [Nat.add_right_comm, walk, ih, walk, Function.iterate_succ_apply, List.cons_append]

/-- A walk depends only on the links of its elements. Source: none: infrastructure. Kind: L -/
theorem walk_congr (h : ∀ x ∈ walk next n a, next' x = next x) :
    walk next' n a = walk next n a := by
  induction n generalizing a with
  | zero => rfl
  | succ n ih =>
      have ha : next' a = next a := h a (by simp [walk])
      rw [walk, walk, ha, ih fun x hx => h x (by simp [walk, hx])]

/-! ## Marked chains -/

/-- The elements from `a` are `c`: every one but the last is marked and linked to the next.
Source: none: infrastructure
Kind: D -/
def IsChain (more : α → Bool) (next : α → α) : α → List α → Prop
  | _, [] => False
  | a, [b] => a = b ∧ more b = false
  | a, b :: d :: l => a = b ∧ more b = true ∧ IsChain more next (next b) (d :: l)

/-- The elements from `a` up to the first that is not marked; `none` when there are more than
`fuel`.
Source: none: infrastructure
Kind: D -/
def follow (more : α → Bool) (next : α → α) : ℕ → α → Option (List α)
  | 0, _ => none
  | fuel + 1, a => if more a then (follow more next fuel (next a)).map (a :: ·) else some [a]

/-- A chain is not empty. Source: none: infrastructure. Kind: L -/
theorem IsChain.ne_nil (h : IsChain more next a c) : c ≠ [] := by
  rintro rfl
  exact h

/-- A chain starts at its head. Source: none: infrastructure. Kind: L -/
theorem IsChain.head_mem (h : IsChain more next a c) : a ∈ c := by
  match c, h with
  | [_], h => simp [h.1]
  | _ :: _ :: _, h => simp [h.1]

/-- The loop finds a chain. Source: none: infrastructure. Kind: L -/
theorem IsChain.follow_eq {fuel : ℕ} (h : IsChain more next a c) (hlen : c.length ≤ fuel) :
    follow more next fuel a = some c := by
  induction fuel generalizing a c with
  | zero =>
      have := h.ne_nil
      exact absurd (List.length_eq_zero_iff.mp (by omega)) this
  | succ fuel ih =>
      match c, h with
      | [b], h =>
          obtain ⟨rfl, hb⟩ := h
          simp [follow, hb]
      | b :: d :: l, h =>
          obtain ⟨rfl, hb, hrest⟩ := h
          have := ih hrest (by simpa using hlen)
          simp [follow, hb, this]

/-- A chain depends only on the marks and links of its elements.
Source: none: infrastructure
Kind: L -/
theorem IsChain.congr (h : IsChain more next a c)
    (hc : ∀ x ∈ c, more' x = more x ∧ next' x = next x) : IsChain more' next' a c := by
  induction c generalizing a with
  | nil => exact h
  | cons b l ih =>
      obtain ⟨hmb, hnb⟩ := hc b List.mem_cons_self
      cases l with
      | nil => exact ⟨h.1, by rw [hmb, h.2]⟩
      | cons d l =>
          obtain ⟨rfl, hm, hrest⟩ := h
          refine ⟨rfl, by rw [hmb, hm], ?_⟩
          rw [hnb]
          exact ih hrest fun x hx => hc x (List.mem_cons_of_mem _ hx)

/-- **Finitely many elements.** A walk that stays in a finite set and comes to `P` does so within as many
steps as the set has elements: up to the first `P` it has been nowhere twice.
Source: none: infrastructure
Kind: P -/
theorem exists_lt_card {P : α → Prop} {S : Finset α} (hS : ∀ n, next^[n] a ∈ S)
    (h : ∃ n, P (next^[n] a)) : ∃ n < S.card, P (next^[n] a) := by
  classical
  have hP := Nat.find_spec h
  have hmin : ∀ m < Nat.find h, ¬ P (next^[m] a) := fun m hm => Nat.find_min h hm
  generalize Nat.find h = n at hP hmin
  have hne : ∀ i j, i < j → j ≤ n → next^[i] a ≠ next^[j] a := by
    intro i j hij hjn heq
    -- the way from `j` to the first `P` starts at `i` already
    have hearlier : next^[n - j + i] a = next^[n] a := by
      rw [Function.iterate_add_apply, heq, ← Function.iterate_add_apply, Nat.sub_add_cancel hjn]
    refine hmin (n - j + i) (by omega) ?_
    rw [hearlier]
    exact hP
  have hinj : Set.InjOn (fun i => next^[i] a) (Finset.range (n + 1)) := by
    intro i hi j hj heq
    have hi' := Finset.mem_range.mp (Finset.mem_coe.mp hi)
    have hj' := Finset.mem_range.mp (Finset.mem_coe.mp hj)
    rcases Nat.lt_trichotomy i j with hlt | rfl | hlt
    · exact absurd heq (hne i j hlt (by omega))
    · rfl
    · exact absurd heq.symm (hne j i hlt (by omega))
  have hcard := Finset.card_le_card_of_injOn (fun i => next^[i] a) (fun i _ => hS i) hinj
  rw [Finset.card_range] at hcard
  exact ⟨n, hcard, hP⟩

variable [DecidableEq α]

/-- **Marking a walk.** When every element of a walk is marked and then the mark of the last one
is cleared, the walk is a chain.
Source: none: infrastructure
Kind: P -/
theorem isChain_walk (hnd : (walk next (n + 1) a).Nodup)
    (hmore : ∀ x ∈ walk next (n + 1) a, more x = true) {last : α}
    (hlast : (walk next (n + 1) a).getLast? = some last) :
    IsChain (Function.update more last false) next a (walk next (n + 1) a) := by
  induction n generalizing a with
  | zero =>
      obtain rfl : a = last := by simpa [walk] using hlast
      exact ⟨rfl, Function.update_self ..⟩
  | succ n ih =>
      rw [walk] at hnd hmore hlast ⊢
      obtain ⟨hnot, hnd⟩ := List.nodup_cons.mp hnd
      have hlast' : (walk next (n + 1) (next a)).getLast? = some last := by
        rw [walk] at hlast ⊢
        rwa [List.getLast?_cons_cons] at hlast
      have hne : a ≠ last := by
        rintro rfl
        exact hnot (List.mem_of_getLast? hlast')
      have hrest := ih hnd (fun x hx => hmore x (List.mem_cons_of_mem _ hx)) hlast'
      rw [walk] at hrest ⊢
      refine ⟨rfl, ?_, hrest⟩
      rw [Function.update_of_ne hne]
      exact hmore a List.mem_cons_self

/-- **Prepending a chain.** When the last element of a chain is linked to the head of a walk, the
walk from the head of the chain goes through the chain and then through the old walk.
Source: none: infrastructure
Kind: P -/
theorem IsChain.walk_update {last head : α} (h : IsChain more next a c)
    (hlast : c.getLast? = some last) (hnd : (c ++ walk next n head).Nodup) :
    walk (Function.update next last head) (c.length + n) a = c ++ walk next n head := by
  induction c generalizing a with
  | nil => exact h.elim
  | cons b l ih =>
      rw [List.cons_append] at hnd
      obtain ⟨hnot, hnd'⟩ := List.nodup_cons.mp hnd
      cases l with
      | nil =>
          obtain ⟨rfl, -⟩ := h
          obtain rfl : a = last := by simpa using hlast
          have hcongr : walk (Function.update next a head) n head = walk next n head := by
            refine walk_congr fun x hx => Function.update_of_ne ?_ ..
            rintro rfl
            exact hnot hx
          rw [List.length_singleton, Nat.add_comm, walk, Function.update_self, hcongr]
          rfl
      | cons d l =>
          obtain ⟨rfl, -, hrest⟩ := h
          rw [List.getLast?_cons_cons] at hlast
          have hne : a ≠ last := by
            rintro rfl
            exact hnot (List.mem_append_left _ (List.mem_of_getLast? hlast))
          rw [List.length_cons, Nat.add_right_comm, walk, Function.update_of_ne hne,
            ih hrest hlast hnd']
          rfl

end EbbRT.Lib
