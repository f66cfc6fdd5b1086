import Mathlib

/-!
# Labelled segments that represent a partial map

A list of half-open segments `[lo a, hi a)` with labels *represents* the partial map that sends a
point to the label of the segment it lies in. The representation is canonical when the segments
are sorted, non-empty, and two that touch carry different labels: then each maximal run of one
label is one segment. The accessors `lo`, `hi` and `label` are parameters, so that a program's own
records can be read as segments.
-/

namespace EbbRT.Lib

variable {α β ι : Type*} [LinearOrder α] {lo hi : β → α} {label : β → ι}

/-- Two segments in order, and not to be joined.
Source: none: infrastructure
Kind: D -/
def Apart (lo hi : β → α) (label : β → ι) (a b : β) : Prop :=
  hi a ≤ lo b ∧ (hi a = lo b → label a ≠ label b)

/-- The canonical representation of a partial map by segments.
Source: none: infrastructure
Kind: D -/
structure Represents (lo hi : β → α) (label : β → ι) (l : List β) (f : α → Option ι) : Prop where
  /-- The segments are sorted, and none can be joined. -/
  apart : l.Pairwise (Apart lo hi label)
  /-- No segment is empty. -/
  nonempty : ∀ a ∈ l, lo a < hi a
  /-- A point has the label of the segment it lies in. -/
  value : ∀ p n, f p = some n ↔ ∃ a ∈ l, label a = n ∧ lo a ≤ p ∧ p < hi a

/-- The empty list represents the empty map. Source: none: infrastructure. Kind: L -/
theorem represents_nil : Represents lo hi label ([] : List β) (fun _ => none) :=
  ⟨List.Pairwise.nil, by simp, by simp⟩

variable {l pre post : List β} {f : α → Option ι} {a b : β} {p : α}

/-- A point of a segment has the segment's label. Source: none: infrastructure. Kind: L -/
theorem Represents.value_of_mem (h : Represents lo hi label l f) (ha : a ∈ l) (hlo : lo a ≤ p)
    (hhi : p < hi a) : f p = some (label a) :=
  (h.value p (label a)).mpr ⟨a, ha, rfl, hlo, hhi⟩

/-- A point outside the map is in no segment. Source: none: infrastructure. Kind: L -/
theorem Represents.not_mem_of_none (h : Represents lo hi label l f) (hp : f p = none)
    (ha : a ∈ l) (hlo : lo a ≤ p) : hi a ≤ p := by
  by_contra hlt
  have := h.value_of_mem ha hlo (not_le.mp hlt)
  rw [hp] at this
  cases this

/-- Segments before the last one end before it starts; if any ends at a later point, the last
does. Source: none: infrastructure. Kind: L -/
theorem lt_of_mem_before_last (h : (pre ++ [b]).Pairwise (Apart lo hi label)) (ha : a ∈ pre)
    (hb : lo b < hi b) : hi a < hi b :=
  lt_of_le_of_lt ((List.pairwise_append.mp h).2.2 a ha b (List.mem_singleton_self b)).1 hb

/-- **Replacing a stretch of segments by one.** The new segment must keep apart from what is left
on both sides, and the new map must have its label on it and be as before elsewhere.
Source: none: infrastructure
Kind: P -/
theorem represents_of_middle {g : α → Option ι} {m : β} (hpre : pre.Pairwise (Apart lo hi label))
    (hpost : post.Pairwise (Apart lo hi label)) (hcross : ∀ a ∈ pre, ∀ b ∈ post, Apart lo hi label a b)
    (hleft : ∀ a ∈ pre, Apart lo hi label a m) (hright : ∀ b ∈ post, Apart lo hi label m b)
    (hne : ∀ a ∈ pre ++ m :: post, lo a < hi a)
    (hval : ∀ p n, g p = some n ↔ ∃ a ∈ pre ++ m :: post, label a = n ∧ lo a ≤ p ∧ p < hi a) :
    Represents lo hi label (pre ++ m :: post) g where
  apart := by
    refine List.pairwise_append.mpr ⟨hpre, List.pairwise_cons.mpr ⟨hright, hpost⟩, ?_⟩
    intro a ha b hb
    rcases List.mem_cons.mp hb with rfl | hb
    · exact hleft a ha
    · exact hcross a ha b hb
  nonempty := hne
  value := hval

end EbbRT.Lib
