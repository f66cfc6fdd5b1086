import Mathlib

/-!
# A list of parts that partitions a set

`Partitions part B S`: the parts of the members of `B` are pairwise disjoint and their union is
exactly `S`: nothing of `S` is missing, nothing lies in two parts, nothing comes from outside.
The order of `B` does not matter (`Partitions.perm`), and one member may be exchanged for two
that split it (`partitions_split`).
-/

namespace EbbRT.Lib

variable {α β : Type*} {part : β → Set α}

/-- The parts of `B` are pairwise disjoint and their union is `S`.
Source: none: infrastructure
Kind: D -/
structure Partitions (part : β → Set α) (B : List β) (S : Set α) : Prop where
  /-- No element lies in two parts. -/
  disjoint : B.Pairwise fun x y => Disjoint (part x) (part y)
  /-- The elements of `S` are exactly those that lie in some part. -/
  cover : ∀ a, a ∈ S ↔ ∃ b ∈ B, a ∈ part b

namespace Partitions

variable {B B' : List β} {S : Set α} {x y z : β} {a : α}

/-- The order of the parts does not matter.
Source: none: infrastructure
Kind: L -/
theorem perm (h : Partitions part B S) (hp : B.Perm B') : Partitions part B' S where
  disjoint := (hp.pairwise_iff fun h => Disjoint.symm h).mp h.disjoint
  cover a := by
    rw [h.cover a]
    exact exists_congr fun b => and_congr_left fun _ => hp.mem_iff

/-- Two members with a common element are the same member.
Source: none: infrastructure
Kind: L -/
theorem eq_of_mem (h : Partitions part B S) (hx : x ∈ B) (hy : y ∈ B) (hax : a ∈ part x)
    (hay : a ∈ part y) : x = y := by
  by_contra hne
  have hsymm : Std.Symm fun x y : β => Disjoint (part x) (part y) := ⟨fun _ _ h => h.symm⟩
  have hd := h.disjoint.forall hx hy hne
  exact Set.disjoint_left.mp hd hax hay

/-- A member of the list has its part inside `S`.
Source: none: infrastructure
Kind: L -/
theorem mem_of_mem_part (h : Partitions part B S) (hx : x ∈ B) (ha : a ∈ part x) : a ∈ S :=
  (h.cover a).mpr ⟨x, hx, ha⟩

/-- The first part is disjoint from every later one.
Source: none: infrastructure
Kind: L -/
theorem disjoint_of_cons (h : Partitions part (x :: B) S) (hy : y ∈ B) :
    Disjoint (part x) (part y) :=
  (List.pairwise_cons.mp h.disjoint).1 y hy

/-- The sizes of the parts add up. By induction on the list.
Source: none: infrastructure
Kind: L -/
theorem sum_ncard (h : Partitions part B S) (hfin : ∀ b ∈ B, (part b).Finite) :
    (B.map fun b => (part b).ncard).sum = S.ncard := by
  induction B generalizing S with
  | nil =>
      have hempty : S = ∅ := by
        ext a
        simp [h.cover a]
      rw [hempty, Set.ncard_empty]
      rfl
  | cons x B ih =>
      obtain ⟨hfirst, hrest⟩ := List.pairwise_cons.mp h.disjoint
      obtain ⟨hx, hB⟩ := List.forall_mem_cons.mp hfin
      have hpart : Partitions part B {a | ∃ b ∈ B, a ∈ part b} := ⟨hrest, fun _ => Iff.rfl⟩
      have hunion : S = part x ∪ {a | ∃ b ∈ B, a ∈ part b} := by
        ext a
        simp [h.cover a]
      have hfinite : {a | ∃ b ∈ B, a ∈ part b}.Finite :=
        (B.finite_toSet.biUnion hB).subset fun a ⟨b, hb, ha⟩ => Set.mem_biUnion hb ha
      have hdisjoint : Disjoint (part x) {a | ∃ b ∈ B, a ∈ part b} :=
        Set.disjoint_right.mpr fun a ⟨b, hb, ha⟩ hax => Set.disjoint_left.mp (hfirst b hb) hax ha
      rw [List.map_cons, List.sum_cons, ih hpart hB, hunion, Set.ncard_union_eq hdisjoint hx hfinite]

end Partitions

/-- The empty list partitions the empty set.
Source: none: infrastructure
Kind: L -/
theorem partitions_nil : Partitions part ([] : List β) (∅ : Set α) :=
  ⟨List.Pairwise.nil, by simp⟩

/-- **Split and merge**: a part may be exchanged for two disjoint parts with the same union, and
back.
Source: none: infrastructure
Kind: P -/
theorem partitions_split {B : List β} {S : Set α} {x y z : β}
    (hu : part x = part y ∪ part z) (hd : Disjoint (part y) (part z)) :
    Partitions part (x :: B) S ↔ Partitions part (y :: z :: B) S := by
  have hcov : ∀ a, (∃ b ∈ x :: B, a ∈ part b) ↔ ∃ b ∈ y :: z :: B, a ∈ part b := by
    intro a
    simp only [List.mem_cons, exists_eq_or_imp, hu, Set.mem_union, or_assoc]
  constructor
  · rintro ⟨hdis, hc⟩
    obtain ⟨hx, hB⟩ := List.pairwise_cons.mp hdis
    simp only [hu, Set.disjoint_union_left] at hx
    refine ⟨List.pairwise_cons.mpr ⟨?_, List.pairwise_cons.mpr ⟨fun b hb => (hx b hb).2, hB⟩⟩,
      fun a => (hc a).trans (hcov a)⟩
    intro b hb
    rcases List.mem_cons.mp hb with rfl | hb
    · exact hd
    · exact (hx b hb).1
  · rintro ⟨hdis, hc⟩
    obtain ⟨hy, hzB⟩ := List.pairwise_cons.mp hdis
    obtain ⟨hz, hB⟩ := List.pairwise_cons.mp hzB
    refine ⟨List.pairwise_cons.mpr ⟨fun b hb => ?_, hB⟩, fun a => (hc a).trans (hcov a).symm⟩
    rw [hu, Set.disjoint_union_left]
    exact ⟨hy b (List.mem_cons_of_mem z hb), hz b hb⟩

/-- A new part, disjoint from the set.
Source: none: infrastructure
Kind: L -/
theorem Partitions.cons {B : List β} {S : Set α} {x : β} (h : Partitions part B S)
    (hd : Disjoint S (part x)) : Partitions part (x :: B) (S ∪ part x) where
  disjoint := by
    refine List.pairwise_cons.mpr ⟨fun y hy => Set.disjoint_left.mpr fun a hx ha => ?_, h.disjoint⟩
    exact Set.disjoint_left.mp hd (h.mem_of_mem_part hy ha) hx
  cover a := by
    rw [Set.mem_union, h.cover a]
    simp only [List.mem_cons, exists_eq_or_imp, or_comm]

end EbbRT.Lib
