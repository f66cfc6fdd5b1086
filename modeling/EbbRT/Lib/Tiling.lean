import Mathlib

/-!
# Descending tilings of an interval

`TilesDown lo hi bot top l`: the half-open intervals `[lo b, hi b)` of the members of `l`, taken
in order, go down from `top` to `bot` with no gap, no overlap and none of them empty.
-/

namespace EbbRT.Lib

variable {α β : Type*} [LinearOrder α] {lo hi : β → α}

/-- The members of the list tile `[bot, top)`, highest first.
Source: none: infrastructure
Kind: D -/
def TilesDown (lo hi : β → α) (bot : α) : α → List β → Prop
  | top, [] => bot = top
  | top, b :: l => hi b = top ∧ lo b < hi b ∧ TilesDown lo hi bot (lo b) l

variable {bot top : α} {l m : List β} {b : β}

/-- A tiling cut in two is two tilings that meet. Source: none: infrastructure. Kind: L -/
theorem tilesDown_append :
    TilesDown lo hi bot top (l ++ m) ↔ ∃ mid, TilesDown lo hi mid top l ∧ TilesDown lo hi bot mid m := by
  induction l generalizing top with
  | nil =>
      constructor
      · exact fun h => ⟨top, rfl, h⟩
      · rintro ⟨mid, rfl, h⟩
        exact h
  | cons b l ih =>
      simp only [List.cons_append, TilesDown, ih]
      constructor
      · rintro ⟨h1, h2, mid, h3, h4⟩
        exact ⟨mid, ⟨h1, h2, h3⟩, h4⟩
      · rintro ⟨mid, ⟨h1, h2, h3⟩, h4⟩
        exact ⟨h1, h2, mid, h3, h4⟩

/-- A tiling goes down. Source: none: infrastructure. Kind: L -/
theorem TilesDown.le (h : TilesDown lo hi bot top l) : bot ≤ top := by
  induction l generalizing top with
  | nil => exact le_of_eq h
  | cons b l ih =>
      obtain ⟨rfl, hlt, hrest⟩ := h
      exact (ih hrest).trans hlt.le

/-- Every tile is a non-empty part of the tiled interval. Source: none: infrastructure. Kind: L -/
theorem TilesDown.bounds (h : TilesDown lo hi bot top l) (hb : b ∈ l) :
    bot ≤ lo b ∧ lo b < hi b ∧ hi b ≤ top := by
  induction l generalizing top with
  | nil => simp at hb
  | cons c l ih =>
      obtain ⟨rfl, hlt, hrest⟩ := h
      rcases List.mem_cons.mp hb with rfl | hb
      · exact ⟨hrest.le, hlt, le_rfl⟩
      · obtain ⟨h1, h2, h3⟩ := ih hrest hb
        exact ⟨h1, h2, h3.trans hlt.le⟩

/-- Every point of the interval is in a tile. Source: none: infrastructure. Kind: L -/
theorem TilesDown.exists_mem {x : α} (h : TilesDown lo hi bot top l) (hbot : bot ≤ x)
    (htop : x < top) : ∃ b ∈ l, lo b ≤ x ∧ x < hi b := by
  induction l generalizing top with
  | nil =>
      obtain rfl := h
      exact absurd htop hbot.not_gt
  | cons c l ih =>
      obtain ⟨rfl, _, hrest⟩ := h
      rcases lt_or_ge x (lo c) with hx | hx
      · obtain ⟨b, hb, hxb⟩ := ih hrest hx
        exact ⟨b, List.mem_cons_of_mem _ hb, hxb⟩
      · exact ⟨c, List.mem_cons_self, hx, htop⟩

/-- The same tiles after a monotone change of the points that keeps the tiles what they are.
Source: none: infrastructure
Kind: L -/
theorem TilesDown.map {γ : Type*} [LinearOrder γ] {lo' hi' : β → γ} {f : α → γ}
    (h : TilesDown lo hi bot top l) (hf : StrictMono f) (hlo : ∀ b ∈ l, lo' b = f (lo b))
    (hhi : ∀ b ∈ l, hi' b = f (hi b)) : TilesDown lo' hi' (f bot) (f top) l := by
  induction l generalizing top with
  | nil => exact congrArg f h
  | cons c l ih =>
      obtain ⟨rfl, hlt, hrest⟩ := h
      refine ⟨hhi c List.mem_cons_self, ?_, ?_⟩
      · rw [hlo c List.mem_cons_self, hhi c List.mem_cons_self]
        exact hf hlt
      · rw [hlo c List.mem_cons_self]
        exact ih hrest (fun b hb => hlo b (List.mem_cons_of_mem _ hb))
          (fun b hb => hhi b (List.mem_cons_of_mem _ hb))

/-- A later tile ends where an earlier one starts, or below. Source: none: infrastructure.
Kind: L -/
theorem TilesDown.pairwise (h : TilesDown lo hi bot top l) :
    l.Pairwise fun a b => hi b ≤ lo a := by
  induction l generalizing top with
  | nil => exact List.Pairwise.nil
  | cons a l ih =>
      obtain ⟨-, -, hrest⟩ := h
      exact List.pairwise_cons.mpr ⟨fun b hb => (hrest.bounds hb).2.2, ih hrest⟩

end EbbRT.Lib
