import Mathlib

/-!
# Tokens that move between places

`Placed C U`: the places' contents `C` hold every token of `U`, each once and in one place, and
nothing else. Two places may share out anew what they hold (`Placed.move`); new tokens may be put down
(`Placed.add`), and tokens may be taken away (`Placed.remove`).
-/

namespace EbbRT.Lib

variable {α ι : Type*}

/-- The places hold the tokens of `U`, each once and in one place, and nothing else.
Source: none: infrastructure
Kind: D -/
structure Placed (C : ι → List α) (U : Set α) : Prop where
  /-- No place holds a token twice. -/
  nodup : ∀ p, (C p).Nodup
  /-- No token is in two places. -/
  unique : ∀ p q a, a ∈ C p → a ∈ C q → p = q
  /-- The tokens are those that lie in some place. -/
  cover : ∀ a, a ∈ U ↔ ∃ p, a ∈ C p

namespace Placed

variable {C C' : ι → List α} {U : Set α} {p q : ι} {a : α} {l rest : List α}

/-- What lies in a place is a token.
Source: none: infrastructure
Kind: L -/
theorem mem (h : Placed C U) (ha : a ∈ C p) : a ∈ U := (h.cover a).mpr ⟨p, ha⟩

/-- **One place**: a token has a place, lies there once, and in no other.
Source: none: infrastructure
Kind: P -/
theorem existsUnique (h : Placed C U) (ha : a ∈ U) :
    ∃ p, a ∈ C p ∧ (C p).Nodup ∧ ∀ q, a ∈ C q → q = p := by
  obtain ⟨p, hp⟩ := (h.cover a).mp ha
  exact ⟨p, hp, h.nodup p, fun q hq => h.unique q p a hq hp⟩

/-- The order inside the places does not matter.
Source: none: infrastructure
Kind: L -/
theorem congr (h : Placed C U) (hC : ∀ p, (C' p).Perm (C p)) : Placed C' U where
  nodup p := (hC p).nodup_iff.mpr (h.nodup p)
  unique p q a hp hq := h.unique p q a ((hC p).mem_iff.mp hp) ((hC q).mem_iff.mp hq)
  cover a := by
    rw [h.cover a]
    exact exists_congr fun p => (hC p).mem_iff.symm

/-- **Moving tokens**: two places share out anew what they hold between them, in any order.
Source: none: infrastructure
Kind: P -/
theorem move (h : Placed C U) (hpq : p ≠ q) (hperm : (C' p ++ C' q).Perm (C p ++ C q))
    (hother : ∀ r, r ≠ p → r ≠ q → (C' r).Perm (C r)) : Placed C' U := by
  have hnd : (C' p ++ C' q).Nodup := hperm.nodup_iff.mpr (List.nodup_append'.mpr
    ⟨h.nodup p, h.nodup q, List.disjoint_left.mpr fun a hp hq => hpq (h.unique p q a hp hq)⟩)
  obtain ⟨hndp, hndq, hdis⟩ := List.nodup_append'.mp hnd
  have hmem : ∀ a, a ∈ C' p ∨ a ∈ C' q ↔ a ∈ C p ∨ a ∈ C q := by
    intro a
    rw [← List.mem_append, hperm.mem_iff, List.mem_append]
  -- a token of a third place is in neither of the two
  have hthird : ∀ r a, r ≠ p → r ≠ q → a ∈ C' r → ¬ (a ∈ C' p ∨ a ∈ C' q) := by
    intro r a hrp hrq hr hpq'
    rw [(hother r hrp hrq).mem_iff] at hr
    rcases (hmem a).mp hpq' with ha | ha
    · exact hrp (h.unique r p a hr ha)
    · exact hrq (h.unique r q a hr ha)
  refine ⟨fun r => ?_, fun r t a hr ht => ?_, fun a => ?_⟩
  · by_cases hrp : r = p
    · exact hrp ▸ hndp
    · by_cases hrq : r = q
      · exact hrq ▸ hndq
      · exact (hother r hrp hrq).nodup_iff.mpr (h.nodup r)
  · have hdis' := List.disjoint_left.mp hdis
    by_cases hrp : r = p
    · by_cases htp : t = p
      · rw [hrp, htp]
      · by_cases htq : t = q
        · rw [htq] at ht
          rw [hrp] at hr
          exact absurd ht (hdis' hr)
        · exact absurd (Or.inl (hrp ▸ hr)) (hthird t a htp htq ht)
    · by_cases hrq : r = q
      · by_cases htq : t = q
        · rw [hrq, htq]
        · by_cases htp : t = p
          · rw [htp] at ht
            rw [hrq] at hr
            exact absurd hr (hdis' ht)
          · exact absurd (Or.inr (hrq ▸ hr)) (hthird t a htp htq ht)
      · by_cases htpq : t = p ∨ t = q
        · refine absurd ?_ (hthird r a hrp hrq hr)
          exact htpq.imp (fun e : t = p => e ▸ ht) (fun e : t = q => e ▸ ht)
        · obtain ⟨htp, htq⟩ := not_or.mp htpq
          exact h.unique r t a ((hother r hrp hrq).mem_iff.mp hr) ((hother t htp htq).mem_iff.mp ht)
  · rw [h.cover a]
    constructor
    · rintro ⟨r, hr⟩
      by_cases hrpq : r = p ∨ r = q
      · have : a ∈ C p ∨ a ∈ C q := hrpq.imp (fun e : r = p => e ▸ hr) (fun e : r = q => e ▸ hr)
        exact ((hmem a).mpr this).elim (fun ha => ⟨p, ha⟩) fun ha => ⟨q, ha⟩
      · obtain ⟨hrp, hrq⟩ := not_or.mp hrpq
        exact ⟨r, (hother r hrp hrq).mem_iff.mpr hr⟩
    · rintro ⟨r, hr⟩
      by_cases hrpq : r = p ∨ r = q
      · have : a ∈ C' p ∨ a ∈ C' q := hrpq.imp (fun e : r = p => e ▸ hr) (fun e : r = q => e ▸ hr)
        exact ((hmem a).mp this).elim (fun ha => ⟨p, ha⟩) fun ha => ⟨q, ha⟩
      · obtain ⟨hrp, hrq⟩ := not_or.mp hrpq
        exact ⟨r, (hother r hrp hrq).mem_iff.mp hr⟩

/-- **New tokens** are put down in a place.
Source: none: infrastructure
Kind: P -/
theorem add (h : Placed C U) (hl : l.Nodup) (hfresh : ∀ a ∈ l, a ∉ U)
    (hq' : (C' q).Perm (l ++ C q)) (hother : ∀ r, r ≠ q → (C' r).Perm (C r)) :
    Placed C' (U ∪ {a | a ∈ l}) := by
  have hmem : ∀ r a, a ∈ C' r ↔ (a ∈ l ∧ r = q) ∨ a ∈ C r := by
    intro r a
    by_cases hrq : r = q
    · subst hrq
      rw [hq'.mem_iff, List.mem_append]
      simp only [and_true]
    · rw [(hother r hrq).mem_iff]
      simp only [hrq, and_false, false_or]
  refine ⟨fun r => ?_, fun r t a hr ht => ?_, fun a => ?_⟩
  · by_cases hrq : r = q
    · subst hrq
      refine hq'.nodup_iff.mpr (List.nodup_append'.mpr
        ⟨hl, h.nodup r, List.disjoint_left.mpr fun a ha ha' => ?_⟩)
      exact hfresh a ha (h.mem ha')
    · exact (hother r hrq).nodup_iff.mpr (h.nodup r)
  · rcases (hmem r a).mp hr with ⟨hal, rfl⟩ | hr
    · rcases (hmem t a).mp ht with ⟨_, rfl⟩ | ht
      · rfl
      · exact absurd (h.mem ht) (hfresh a hal)
    · rcases (hmem t a).mp ht with ⟨hal, _⟩ | ht
      · exact absurd (h.mem hr) (hfresh a hal)
      · exact h.unique r t a hr ht
  · constructor
    · rintro (ha | ha)
      · obtain ⟨r, hr⟩ := (h.cover a).mp ha
        exact ⟨r, (hmem r a).mpr (Or.inr hr)⟩
      · exact ⟨q, (hmem q a).mpr (Or.inl ⟨ha, rfl⟩)⟩
    · rintro ⟨r, hr⟩
      rcases (hmem r a).mp hr with ⟨hal, _⟩ | hr
      · exact Or.inr hal
      · exact Or.inl (h.mem hr)

/-- **Tokens are taken away**: what leaves a place is a token no more.
Source: none: infrastructure
Kind: P -/
theorem remove (h : Placed C U) (hq : (C q).Perm (l ++ rest)) (hq' : (C' q).Perm rest)
    (hother : ∀ r, r ≠ q → (C' r).Perm (C r)) : Placed C' {a | a ∈ U ∧ a ∉ l} := by
  have hl : ∀ a ∈ l, a ∈ C q := fun a ha => hq.mem_iff.mpr (List.mem_append_left rest ha)
  have hnd : (l ++ rest).Nodup := hq.nodup_iff.mp (h.nodup q)
  have hdis : ∀ a ∈ l, a ∉ rest := fun a ha => List.disjoint_left.mp (List.nodup_append'.mp hnd).2.2 ha
  have hmem : ∀ r a, a ∈ C' r ↔ a ∈ C r ∧ a ∉ l := by
    intro r a
    by_cases hrq : r = q
    · subst hrq
      rw [hq'.mem_iff, hq.mem_iff, List.mem_append]
      constructor
      · exact fun ha => ⟨Or.inr ha, fun hal => hdis a hal ha⟩
      · rintro ⟨ha, hal⟩
        exact ha.resolve_left hal
    · rw [(hother r hrq).mem_iff]
      exact ⟨fun ha => ⟨ha, fun hal => hrq (h.unique r q a ha (hl a hal))⟩, fun ha => ha.1⟩
  refine ⟨fun r => ?_, fun r t a hr ht => ?_, fun a => ?_⟩
  · by_cases hrq : r = q
    · subst hrq
      exact hq'.nodup_iff.mpr (List.nodup_append'.mp hnd).2.1
    · exact (hother r hrq).nodup_iff.mpr (h.nodup r)
  · exact h.unique r t a ((hmem r a).mp hr).1 ((hmem t a).mp ht).1
  · constructor
    · rintro ⟨ha, hal⟩
      obtain ⟨r, hr⟩ := (h.cover a).mp ha
      exact ⟨r, (hmem r a).mpr ⟨hr, hal⟩⟩
    · rintro ⟨r, hr⟩
      obtain ⟨hr, hal⟩ := (hmem r a).mp hr
      exact ⟨h.mem hr, hal⟩

end Placed

end EbbRT.Lib
