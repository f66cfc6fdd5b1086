import Mathlib

/-!
# Ordered multimaps

A list of entries in the order of their keys, with as many entries under a key as were put in. A new
entry comes after the entries with its own key. The order is a field, so that the first entry is
always one with the least key.
-/

namespace EbbRT.Lib

/-- Entries in the order of their keys.
Source: none: infrastructure
Kind: D -/
structure Multimap (κ α : Type*) [LinearOrder κ] where
  entries : List (κ × α)
  sorted : entries.Pairwise fun e e' => e.1 ≤ e'.1

namespace Multimap

variable {κ α : Type*} [LinearOrder κ]

/-- Source: none: infrastructure
Kind: D -/
def empty : Multimap κ α := ⟨[], List.Pairwise.nil⟩

/-- A new entry goes in front of the first one with a greater key.
Source: none: infrastructure
Kind: D -/
def insertEntry (e : κ × α) : List (κ × α) → List (κ × α) :=
  List.orderedInsert (fun x y => x.1 < y.1) e

/-- Source: none: infrastructure. Kind: L -/
theorem sorted_insertEntry (e : κ × α) {es : List (κ × α)}
    (h : es.Pairwise fun x y => x.1 ≤ y.1) : (insertEntry e es).Pairwise fun x y => x.1 ≤ y.1 := by
  unfold insertEntry
  induction es with
  | nil => simp
  | cons x es ih =>
      obtain ⟨hx, hes⟩ := List.pairwise_cons.mp h
      rw [List.orderedInsert_cons]
      by_cases hlt : e.1 < x.1
      · rw [if_pos hlt]
        refine List.pairwise_cons.mpr ⟨?_, h⟩
        intro y hy
        rcases List.mem_cons.mp hy with rfl | hy
        · exact hlt.le
        · exact hlt.le.trans (hx y hy)
      · rw [if_neg hlt]
        refine List.pairwise_cons.mpr ⟨?_, ih hes⟩
        intro y hy
        rcases (List.mem_orderedInsert _).mp hy with rfl | hy
        · exact not_lt.mp hlt
        · exact hx y hy

/-- Source: none: infrastructure
Kind: D -/
def emplace (m : Multimap κ α) (k : κ) (a : α) : Multimap κ α :=
  ⟨insertEntry (k, a) m.entries, sorted_insertEntry _ m.sorted⟩

/-- The first entry.
Source: none: infrastructure
Kind: D -/
def begin? (m : Multimap κ α) : Option (κ × α) := m.entries.head?

/-- Source: none: infrastructure
Kind: D -/
def eraseBegin (m : Multimap κ α) : Multimap κ α :=
  ⟨m.entries.tail, m.sorted.sublist (List.tail_sublist _)⟩

variable {m : Multimap κ α} {b : κ × α}

/-- The first entry has the least key.
Source: none: infrastructure
Kind: L -/
theorem begin_le (h : m.begin? = some b) {e : κ × α} (he : e ∈ m.entries) : b.1 ≤ e.1 := by
  unfold begin? at h
  have hsorted := m.sorted
  cases hentries : m.entries with
  | nil =>
      rw [hentries] at he
      simp at he
  | cons x es =>
      rw [hentries] at h he hsorted
      cases h
      rcases List.mem_cons.mp he with rfl | he
      · exact le_rfl
      · exact (List.pairwise_cons.mp hsorted).1 e he

/-- The first entry and the others. Source: none: infrastructure. Kind: L -/
theorem entries_of_begin (h : m.begin? = some b) : ∃ rest, m.entries = b :: rest :=
  List.head?_eq_some_iff.mp h

/-- Source: none: infrastructure. Kind: L -/
theorem begin_isSome {e : κ × α} (he : e ∈ m.entries) : ∃ b, m.begin? = some b := by
  unfold begin?
  cases hentries : m.entries with
  | nil =>
      rw [hentries] at he
      simp at he
  | cons x es => exact ⟨x, rfl⟩

/-- Source: none: infrastructure. Kind: L -/
theorem begin_mem (h : m.begin? = some b) : b ∈ m.entries := List.mem_of_mem_head? h

/-- Source: none: infrastructure. Kind: L -/
theorem mem_emplace {k : κ} {a : α} {e : κ × α} :
    e ∈ (m.emplace k a).entries ↔ e = (k, a) ∨ e ∈ m.entries := List.mem_orderedInsert _

/-- What is first after an insertion.
Source: none: infrastructure
Kind: L -/
theorem begin_emplace (m : Multimap κ α) (k : κ) (a : α) :
    (m.emplace k a).begin? =
      if ∀ b, m.begin? = some b → k < b.1 then some (k, a) else m.begin? := by
  have hhead : ∀ es : List (κ × α), (insertEntry (k, a) es).head? =
      if ∀ b, es.head? = some b → k < b.1 then some (k, a) else es.head? := by
    unfold insertEntry
    intro es
    cases es with
    | nil => simp
    | cons x es => by_cases hlt : k < x.1 <;> simp [hlt]
  exact hhead m.entries

end Multimap

end EbbRT.Lib
