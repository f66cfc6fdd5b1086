import EbbRT.Mem.MemMap

/-!
# From a frame to its `page` structure

`set_map` stores the address of a section's map less the frames below the section, with two flags in
the lowest bits, so that `get_page` only adds the frame. The subtraction may wrap, and then the
addition wraps back (`getPage_setMap`). Where the difference is zero the section is not `valid`, and a
map at address zero makes its first `page` structure the null pointer: `frameLookup_exactlyWhen` says
that the lookup is right for the other addresses, and only for them.
-/

namespace EbbRT

open EarlyPageAllocator

/-! ## The code -/

/-- `map_addr() + pfn`, in 64 bits.
Source: `sys/mem_map.hpp` `mem_section::get_page`
Kind: D -/
def MemSection.getPage (sizeofPage : ℕ) (s : MemSection) (pfn : ℕ) : ℕ :=
  ((s.memMap &&& (word - 4)) + pfn * sizeofPage) % word

/-- Null is zero.
Source: `sys/mem_map.hpp` `pfn_to_page`
Kind: D -/
def pfnToPage (sizeofPage : ℕ) (sections : ℕ → MemSection) (pfn : ℕ) : ℕ :=
  let s := sections (pfnToSectionNum pfn)
  if !s.valid || !s.present then 0 else s.getPage sizeofPage pfn

/-- The second loop's body, with the frame that the early allocator returns for the section.
Source: `sys/mem_map.cpp` `mem_map_init`
Kind: D -/
def placeMap (sizeofPage : ℕ) (mapPfn : ℕ → ℕ) (sections : ℕ → MemSection) (i : ℕ) :
    ℕ → MemSection :=
  if (sections i).present then
    let nid := (sections i).earlyGetNid
    Function.update sections i
      { (sections i).setMap sizeofPage (pfnToAddr (mapPfn i)) i with pageNid := nid % 2 ^ 8 }
  else sections

/-- The sections after the second loop.
Source: `sys/mem_map.cpp` `mem_map_init`
Kind: D -/
def placeMaps (sizeofPage : ℕ) (mapPfn : ℕ → ℕ) (marks : ℕ → MemSection) : ℕ → MemSection :=
  (List.range numMemSections).foldl (placeMap sizeofPage mapPfn) marks

/-! ## What the lookup should do -/

section Lookup

variable (sizeofPage : ℕ) (marks : ℕ → MemSection) (mapPfn : ℕ → ℕ)

/-- The maps of the sections that are present lie in the address space and are disjoint.
Source: `sys/mem_map.cpp` `mem_map_init`
Kind: D -/
structure MapsApart : Prop where
  fits : ∀ i < numMemSections, (marks i).present = true →
    pfnToAddr (mapPfn i) + pagesPerSection * sizeofPage ≤ word
  apart : ∀ i < numMemSections, ∀ j < numMemSections, i ≠ j → (marks i).present = true →
    (marks j).present = true →
      pfnToAddr (mapPfn i) + pagesPerSection * sizeofPage ≤ pfnToAddr (mapPfn j) ∨
      pfnToAddr (mapPfn j) + pagesPerSection * sizeofPage ≤ pfnToAddr (mapPfn i)

/-- A frame of a present section has its element of the section's map, and that is not null.
Source: `sys/mem_map.hpp` `pfn_to_page`
Kind: D -/
def FindsElement (pfn : ℕ) : Prop :=
  let i := pfnToSectionNum pfn
  let page := pfnToPage sizeofPage (placeMaps sizeofPage mapPfn marks) pfn
  page ≠ 0 ∧ page = pfnToAddr (mapPfn i) + (pfn - i * pagesPerSection) * sizeofPage

/-- The lookup after `mem_map_init`.
Source: `sys/mem_map.hpp` `pfn_to_page`
Kind: D -/
structure LookupExact : Prop where
  element : ∀ pfn, pfnToSectionNum pfn < numMemSections →
    (marks (pfnToSectionNum pfn)).present = true → FindsElement sizeofPage marks mapPfn pfn
  injective : ∀ pfn pfn', pfnToSectionNum pfn < numMemSections →
    pfnToSectionNum pfn' < numMemSections → (marks (pfnToSectionNum pfn)).present = true →
    (marks (pfnToSectionNum pfn')).present = true →
      pfnToPage sizeofPage (placeMaps sizeofPage mapPfn marks) pfn
        = pfnToPage sizeofPage (placeMaps sizeofPage mapPfn marks) pfn' → pfn = pfn'
  absent : ∀ pfn, pfnToSectionNum pfn < numMemSections →
    (marks (pfnToSectionNum pfn)).present = false →
      pfnToPage sizeofPage (placeMaps sizeofPage mapPfn marks) pfn = 0

/-- The map is neither at address zero nor where the frames below the section take it to zero.
Source: `sys/mem_map.hpp` `mem_section::set_map`
Kind: D -/
def MapsWell : Prop :=
  ∀ i < numMemSections, (marks i).present = true →
    pfnToAddr (mapPfn i) ≠ 0 ∧
      pfnToAddr (mapPfn i) ≠ i * pagesPerSection * sizeofPage % word

end Lookup

/-! ## The word of a section -/

section Word

variable {mapAddr i pfn : ℕ}

/-- Subtraction and addition wrap back. Source: none: infrastructure. Kind: L -/
theorem wsub_add_mod {a b c : ℕ} : (wsub a (b % word) + (b + c)) % word = (a + c) % word := by
  have hb : b % word < word := Nat.mod_lt _ (by decide)
  have hdiv := Nat.div_add_mod b word
  have hsum : a + word - b % word + (b + c) = a + c + word * (b / word + 1) := by
    rw [Nat.mul_add, Nat.mul_one]
    omega
  unfold wsub
  rw [Nat.mod_add_mod, hsum, Nat.add_mul_mod_self_left]

/-- The difference is zero exactly when the two are the same word. Source: none: infrastructure.
Kind: L -/
theorem wsub_eq_zero_iff {a b : ℕ} (ha : a < word) (hb : b < word) : wsub a b = 0 ↔ a = b := by
  have hpos : 0 < word := by decide
  unfold wsub
  constructor
  · intro h
    rcases Nat.lt_or_ge a b with hlt | hge
    · rw [Nat.mod_eq_of_lt (by omega)] at h
      omega
    · rw [show a + word - b = a - b + word by omega, Nat.add_mod_right,
        Nat.mod_eq_of_lt (by omega)] at h
      omega
  · rintro rfl
    rw [Nat.add_sub_cancel_left, Nat.mod_self]

/-- The flags are in the two lowest bits, which the address does not use.
Source: `sys/mem_map.hpp` `mem_section::set_map`
Kind: L -/
theorem flags_spec {addr : ℕ} (hdvd : 4 ∣ addr) (hlt : addr < word) :
    (addr ||| 1 ||| 2) &&& (word - 4) = addr ∧ (addr ||| 1 ||| 2) &&& 1 = 1 := by
  obtain ⟨m, rfl⟩ := hdvd
  have hor : 4 * m ||| 1 ||| 2 = 4 * m + 3 := by
    rw [Nat.or_assoc]
    exact (Nat.two_pow_add_eq_or_of_lt (show 3 < 2 ^ 2 by decide) m).symm
  have hword : word = 4 * 2 ^ 62 := rfl
  constructor
  · rw [hor]
    have hdown := alignDown_two_pow (show 4 * m + 3 < word by omega) (show 2 ≤ 64 by decide)
    unfold alignDown at hdown
    rw [show 4 = 2 ^ 2 from rfl] at *
    rw [hdown]
    omega
  · rw [hor, Nat.and_one_is_mod]
    omega

/-- What `set_map` subtracts, and the difference, are multiples of four.
Source: `sys/mem_map.hpp` `mem_section::set_map`
Kind: L -/
theorem biased_spec (sizeofPage i : ℕ) (hmap : 4 ∣ mapAddr) :
    4 ∣ wsub mapAddr (i * pagesPerSection * sizeofPage % word) ∧
      wsub mapAddr (i * pagesPerSection * sizeofPage % word) < word := by
  have hword : 4 ∣ word := by decide
  have hsection : 4 ∣ i * pagesPerSection * sizeofPage :=
    ((show 4 ∣ pagesPerSection by decide).mul_left i).mul_right sizeofPage
  constructor
  · unfold wsub
    exact (Nat.dvd_mod_iff hword).mpr
      (Nat.dvd_sub (Nat.dvd_add hmap hword) ((Nat.dvd_mod_iff hword).mpr hsection))
  · exact Nat.mod_lt _ (by decide)

/-- A section with a map is present, and it is valid unless the difference is zero.
Source: `sys/mem_map.hpp` `mem_section::valid`, `mem_section::present`
Kind: L -/
theorem MemSection.flags_setMap (sizeofPage i : ℕ) (s : MemSection) (hmap : 4 ∣ mapAddr)
    (hlt : mapAddr < word) :
    (s.setMap sizeofPage mapAddr i).present = true ∧
      ((s.setMap sizeofPage mapAddr i).valid = true ↔
        mapAddr ≠ i * pagesPerSection * sizeofPage % word) := by
  obtain ⟨hdvd, hword⟩ := biased_spec sizeofPage i hmap
  obtain ⟨hmask, hone⟩ := flags_spec hdvd hword
  unfold MemSection.present MemSection.valid MemSection.setMap
  dsimp only
  rw [hmask, hone, decide_eq_true_iff, decide_eq_true_iff]
  exact ⟨Nat.one_ne_zero, not_congr (wsub_eq_zero_iff hlt (Nat.mod_lt _ (by decide)))⟩

/-- **The encoding decodes**: for a frame of the section, the wraps cancel.
Source: `sys/mem_map.hpp` `mem_section::get_page`
Kind: L -/
theorem MemSection.getPage_setMap (sizeofPage : ℕ) (s : MemSection) (hmap : 4 ∣ mapAddr)
    (hpfn : i * pagesPerSection ≤ pfn) :
    (s.setMap sizeofPage mapAddr i).getPage sizeofPage pfn
      = (mapAddr + (pfn - i * pagesPerSection) * sizeofPage) % word := by
  obtain ⟨hdvd, hword⟩ := biased_spec sizeofPage i hmap
  have hsplit : pfn * sizeofPage
      = i * pagesPerSection * sizeofPage + (pfn - i * pagesPerSection) * sizeofPage := by
    rw [← Nat.add_mul, Nat.add_sub_cancel' hpfn]
  unfold MemSection.getPage MemSection.setMap
  dsimp only
  rw [(flags_spec hdvd hword).1, hsplit, wsub_add_mod]

end Word

/-! ## The loops -/

section Loops

variable {sizeofPage : ℕ} {mapPfn : ℕ → ℕ} {marks marks' : ℕ → MemSection} {i : ℕ}

/-- The second loop gives each section that is present its map.
Source: `sys/mem_map.cpp` `mem_map_init`
Kind: L -/
theorem foldl_placeMap {l : List ℕ} (hl : l.Nodup) (i : ℕ) :
    l.foldl (placeMap sizeofPage mapPfn) marks i
      = if i ∈ l then placeMap sizeofPage mapPfn marks i i else marks i := by
  have hother : ∀ (m : ℕ → MemSection) a, i ≠ a → placeMap sizeofPage mapPfn m a i = m i := by
    intro m a hia
    unfold placeMap
    split
    · exact Function.update_of_ne hia ..
    · rfl
  have hself : ∀ m m' : ℕ → MemSection, m i = m' i →
      placeMap sizeofPage mapPfn m i i = placeMap sizeofPage mapPfn m' i i := by
    intro m m' heq
    unfold placeMap
    rw [heq]
    split
    · rw [Function.update_self, Function.update_self]
    · exact heq
  induction l generalizing marks with
  | nil => rfl
  | cons a l ih =>
      obtain ⟨ha, hl'⟩ := List.nodup_cons.mp hl
      rw [List.foldl_cons, ih hl']
      by_cases hia : i = a
      · subst hia
        rw [if_neg ha, if_pos List.mem_cons_self]
      · simp only [List.mem_cons, hia, false_or, hother marks a hia]
        split
        · exact hself _ _ (hother marks a hia)
        · rfl

/-- The section of a frame after `mem_map_init`.
Source: `sys/mem_map.cpp` `mem_map_init`
Kind: L -/
theorem placeMaps_eq (hi : i < numMemSections) :
    placeMaps sizeofPage mapPfn marks i = if (marks i).present = true then
      { (marks i).setMap sizeofPage (pfnToAddr (mapPfn i)) i with
        pageNid := (marks i).earlyGetNid % 2 ^ 8 }
      else marks i := by
  rw [placeMaps, foldl_placeMap List.nodup_range, if_pos (List.mem_range.mpr hi)]
  unfold placeMap
  split
  · rw [Function.update_self]
  · rfl

/-- The second loop places the maps at the frames that the early allocator returns.
Source: `sys/mem_map.cpp` `mem_map_init`
Kind: L -/
theorem foldlM_mapSection {l : List ℕ} (hl : l.Nodup) {free free' : FreePages}
    (h : l.foldlM (mapSection sizeofPage) (marks, free) = some (marks', free')) :
    ∃ mapPfn, marks' = l.foldl (placeMap sizeofPage mapPfn) marks := by
  induction l generalizing marks free with
  | nil =>
      obtain ⟨rfl, rfl⟩ := Prod.mk.inj (Option.some.inj h)
      exact ⟨fun _ => 0, rfl⟩
  | cons a l ih =>
      obtain ⟨ha, hl'⟩ := List.nodup_cons.mp hl
      rw [List.foldlM_cons] at h
      obtain ⟨⟨m₁, free₁⟩, h1, h2⟩ := Option.bind_eq_some_iff.mp h
      obtain ⟨mapPfn, rfl⟩ := ih hl' h2
      -- the frame for this section, and the later ones for the rest
      obtain ⟨pfn, hpfn⟩ : ∃ pfn, ∀ f : ℕ → ℕ, f a = pfn →
          placeMap sizeofPage f marks a = m₁ := by
        unfold mapSection at h1
        dsimp only at h1
        split at h1
        · rename_i hp
          obtain ⟨r, -, hr⟩ := Option.map_eq_some_iff.mp h1
          refine ⟨r.1, fun f hf => ?_⟩
          unfold placeMap
          rw [if_pos hp, hf]
          exact (Prod.mk.inj hr).1
        · rename_i hp
          refine ⟨0, fun f _ => ?_⟩
          unfold placeMap
          rw [if_neg hp]
          exact (Prod.mk.inj (Option.some.inj h1)).1
      refine ⟨Function.update mapPfn a pfn, ?_⟩
      rw [List.foldl_cons, hpfn _ (Function.update_self ..)]
      refine List.foldl_ext _ _ _ fun m i hi => ?_
      have hia : i ≠ a := fun heq => ha (heq ▸ hi)
      unfold placeMap
      rw [Function.update_of_ne hia pfn mapPfn]

/-- **`mem_map_init`**: the marks, and then the maps at the frames that the early allocator returns.
Source: `sys/mem_map.cpp` `mem_map_init`
Kind: P -/
theorem memMapInit_eq_placeMaps {nodes : NumaNodes} {free free' : FreePages}
    {sections : ℕ → MemSection} (h : memMapInit sizeofPage nodes free = some (sections, free')) :
    ∃ marks mapPfn, markNodes nodes = some marks ∧ sections = placeMaps sizeofPage mapPfn marks := by
  obtain ⟨marks, hmarks, hrun⟩ := Option.bind_eq_some_iff.mp h
  obtain ⟨mapPfn, heq⟩ := foldlM_mapSection List.nodup_range hrun
  exact ⟨marks, mapPfn, hmarks, heq⟩

/-- The sections that the first loop does not mark are as they were.
Source: `sys/mem_map.cpp` `mem_map_init`
Kind: L -/
theorem markSections_absent {stop nid fuel pfn : ℕ}
    (h : markSections stop nid fuel pfn marks = some marks')
    (hzero : ∀ i, (marks i).present = false → marks i = MemSection.zero) :
    ∀ i, (marks' i).present = false → marks' i = MemSection.zero := by
  induction fuel generalizing pfn marks with
  | zero =>
      obtain rfl := Option.some.inj h
      exact hzero
  | succ fuel ih =>
      unfold markSections at h
      dsimp only at h
      split_ifs at h with h1 h2 h3
      · refine ih h fun i hi => ?_
        by_cases hik : i = pfnToSectionNum pfn
        · subst hik
          rw [Function.update_self, (MemSection.earlyGetNid_setEarlyNid _ _).2] at hi
          cases hi
        · rw [Function.update_of_ne hik] at hi ⊢
          exact hzero i hi
      · exact ih h hzero
      · obtain rfl := Option.some.inj h
        exact hzero

/-- Source: `sys/mem_map.cpp` `mem_map_init`. Kind: L -/
theorem markNodes_absent {nodes : NumaNodes} (h : markNodes nodes = some marks) :
    ∀ i, (marks i).present = false → marks i = MemSection.zero := by
  unfold markNodes at h
  rw [foldlM_flatten] at h
  have hrun : ∀ (bs : List MemBlock) (m : ℕ → MemSection),
      (∀ i, (m i).present = false → m i = MemSection.zero) →
      bs.foldlM markMemblock m = some marks →
      ∀ i, (marks i).present = false → marks i = MemSection.zero := by
    intro bs
    induction bs with
    | nil =>
        intro m hm h
        obtain rfl := Option.some.inj h
        exact hm
    | cons b bs ih =>
        intro m hm h
        rw [List.foldlM_cons] at h
        obtain ⟨m₁, h1, h2⟩ := Option.bind_eq_some_iff.mp h
        exact ih m₁ (markSections_absent h1 hm) h2
  exact hrun _ _ (fun _ _ => rfl) h

end Loops

/-! ## The lookup -/

section Exact

variable {sizeofPage : ℕ} {mapPfn : ℕ → ℕ} {marks : ℕ → MemSection} {pfn : ℕ}

/-- Addresses of frames are multiples of four. Source: `sys/pfn.hpp` `pfn_to_addr`. Kind: L -/
theorem four_dvd_pfnToAddr (pfn : ℕ) : 4 ∣ pfnToAddr pfn ∧ pfnToAddr pfn < word := by
  have hword : 4 ∣ word := by decide
  unfold pfnToAddr
  rw [Nat.shiftLeft_eq]
  exact ⟨(Nat.dvd_mod_iff hword).mpr ((show 4 ∣ 2 ^ pageShift by decide).mul_left pfn),
    Nat.mod_lt _ (by decide)⟩

/-- The first frame of a section. Source: `sys/mem_map.hpp` `pfn_to_section_num`. Kind: L -/
theorem pfnToSectionNum_bounds (pfn : ℕ) :
    pfnToSectionNum pfn * pagesPerSection ≤ pfn ∧
      pfn - pfnToSectionNum pfn * pagesPerSection < pagesPerSection := by
  rw [pfnToSectionNum_eq]
  have hdiv := Nat.div_add_mod pfn pagesPerSection
  have hmod := Nat.mod_lt pfn pagesPerSection_pos
  rw [Nat.mul_comm] at hdiv
  omega

/-- What the lookup gives for a frame of a present section.
Source: `sys/mem_map.hpp` `pfn_to_page`
Kind: L -/
theorem pfnToPage_present (hpage : 0 < sizeofPage) (hmaps : MapsApart sizeofPage marks mapPfn)
    (hi : pfnToSectionNum pfn < numMemSections)
    (hpresent : (marks (pfnToSectionNum pfn)).present = true) :
    pfnToPage sizeofPage (placeMaps sizeofPage mapPfn marks) pfn =
      if pfnToAddr (mapPfn (pfnToSectionNum pfn))
        = pfnToSectionNum pfn * pagesPerSection * sizeofPage % word then 0
      else pfnToAddr (mapPfn (pfnToSectionNum pfn))
        + (pfn - pfnToSectionNum pfn * pagesPerSection) * sizeofPage := by
  obtain ⟨hlo, hhi⟩ := pfnToSectionNum_bounds pfn
  obtain ⟨hdvd, hword⟩ := four_dvd_pfnToAddr (mapPfn (pfnToSectionNum pfn))
  have hfits := hmaps.fits _ hi hpresent
  have hsum : pfnToAddr (mapPfn (pfnToSectionNum pfn))
      + (pfn - pfnToSectionNum pfn * pagesPerSection) * sizeofPage < word :=
    (Nat.add_lt_add_left (Nat.mul_lt_mul_of_pos_right hhi hpage) _).trans_le hfits
  have hget := MemSection.getPage_setMap sizeofPage (marks (pfnToSectionNum pfn)) hdvd hlo
  rw [Nat.mod_eq_of_lt hsum] at hget
  obtain ⟨hpres, hvalid⟩ := MemSection.flags_setMap sizeofPage (pfnToSectionNum pfn)
    (marks (pfnToSectionNum pfn)) hdvd hword
  unfold pfnToPage
  dsimp only
  rw [placeMaps_eq hi, if_pos hpresent]
  -- the node of the `page` structures is not looked at
  change (if !((marks (pfnToSectionNum pfn)).setMap sizeofPage _ _).valid
      || !((marks (pfnToSectionNum pfn)).setMap sizeofPage _ _).present then 0
    else ((marks (pfnToSectionNum pfn)).setMap sizeofPage _ _).getPage sizeofPage pfn) = _
  rw [hpres, hget, Bool.not_true, Bool.or_false]
  by_cases heq : pfnToAddr (mapPfn (pfnToSectionNum pfn))
      = pfnToSectionNum pfn * pagesPerSection * sizeofPage % word
  · have hnot := Bool.eq_false_of_not_eq_true fun h => hvalid.mp h heq
    rw [hnot, if_pos heq]
    rfl
  · rw [hvalid.mpr heq, if_neg heq]
    rfl

/-- A frame of an absent section has no `page` structure.
Source: `sys/mem_map.hpp` `pfn_to_page`
Kind: L -/
theorem pfnToPage_absent (hi : pfnToSectionNum pfn < numMemSections)
    (hzero : marks (pfnToSectionNum pfn) = MemSection.zero) :
    pfnToPage sizeofPage (placeMaps sizeofPage mapPfn marks) pfn = 0 := by
  have hnot : MemSection.zero.present = false := by decide
  have hsame : placeMaps sizeofPage mapPfn marks (pfnToSectionNum pfn) = MemSection.zero := by
    rw [placeMaps_eq hi, hzero, if_neg (by rw [hnot]; exact Bool.false_ne_true)]
  unfold pfnToPage
  dsimp only
  rw [hsame, hnot, Bool.not_false, Bool.or_true, if_pos rfl]

/-- A section's frames have their elements exactly when its map is well placed.
Source: `sys/mem_map.hpp` `pfn_to_page`
Kind: L -/
theorem findsElement_iff {i : ℕ} (hpage : 0 < sizeofPage) (hmaps : MapsApart sizeofPage marks mapPfn)
    (hi : i < numMemSections) (hpresent : (marks i).present = true) :
    (∀ pfn, pfnToSectionNum pfn = i → FindsElement sizeofPage marks mapPfn pfn) ↔
      pfnToAddr (mapPfn i) ≠ 0 ∧
        pfnToAddr (mapPfn i) ≠ i * pagesPerSection * sizeofPage % word := by
  constructor
  · intro hall
    have hfirst : pfnToSectionNum (i * pagesPerSection) = i :=
      (pfnToSectionNum_eq _).trans (Nat.mul_div_cancel i pagesPerSection_pos)
    obtain ⟨hne, heq⟩ := hall _ hfirst
    rw [hfirst, Nat.sub_self, zero_mul, add_zero] at heq
    refine ⟨heq ▸ hne, fun hdeg => hne ?_⟩
    rw [pfnToPage_present hpage hmaps (hfirst.symm ▸ hi) (hfirst.symm ▸ hpresent), hfirst,
      if_pos hdeg]
  · rintro ⟨hzero, hdeg⟩ pfn rfl
    unfold FindsElement
    dsimp only
    rw [pfnToPage_present hpage hmaps hi hpresent, if_neg hdeg]
    exact ⟨fun h => hzero (Nat.eq_zero_of_add_eq_zero_right h), rfl⟩

/-- Frames with the same element are the same: the maps are disjoint.
Source: `sys/mem_map.hpp` `pfn_to_page`
Kind: L -/
theorem eq_of_findsElement {pfn' : ℕ} (hpage : 0 < sizeofPage)
    (hmaps : MapsApart sizeofPage marks mapPfn)
    (hi : pfnToSectionNum pfn < numMemSections) (hi' : pfnToSectionNum pfn' < numMemSections)
    (hpresent : (marks (pfnToSectionNum pfn)).present = true)
    (hpresent' : (marks (pfnToSectionNum pfn')).present = true)
    (h : FindsElement sizeofPage marks mapPfn pfn) (h' : FindsElement sizeofPage marks mapPfn pfn')
    (heq : pfnToPage sizeofPage (placeMaps sizeofPage mapPfn marks) pfn
      = pfnToPage sizeofPage (placeMaps sizeofPage mapPfn marks) pfn') : pfn = pfn' := by
  rw [h.2, h'.2] at heq
  obtain ⟨hlo, hhi⟩ := pfnToSectionNum_bounds pfn
  obtain ⟨hlo', hhi'⟩ := pfnToSectionNum_bounds pfn'
  have hlt := Nat.mul_lt_mul_of_pos_right hhi hpage
  have hlt' := Nat.mul_lt_mul_of_pos_right hhi' hpage
  by_cases hsame : pfnToSectionNum pfn = pfnToSectionNum pfn'
  · rw [hsame] at heq hlo
    have := Nat.eq_of_mul_eq_mul_right hpage (Nat.add_left_cancel heq)
    omega
  · exfalso
    rcases hmaps.apart _ hi _ hi' hsame hpresent hpresent' with hle | hle <;> omega

/-- **Frame lookup is exact exactly when** no map is at address zero, and none is where the frames
below its section take it to zero.
Source: `sys/mem_map.hpp` `pfn_to_page`, `sys/mem_map.cpp` `mem_map_init`
Kind: P
Hyps: `hmaps`: the maps of the sections that are there lie in the address space, apart -/
theorem frameLookup_exactlyWhen (sizeofPage : ℕ) (nodes : NumaNodes) (marks : ℕ → MemSection)
    (mapPfn : ℕ → ℕ) (hpage : 0 < sizeofPage) (hmarks : markNodes nodes = some marks)
    (hmaps : MapsApart sizeofPage marks mapPfn) :
    LookupExact sizeofPage marks mapPfn ↔ MapsWell sizeofPage marks mapPfn := by
  constructor
  · intro hexact i hi hpresent
    refine (findsElement_iff hpage hmaps hi hpresent).mp fun pfn hpfn => ?_
    subst hpfn
    exact hexact.element pfn hi hpresent
  · intro hwell
    have helement : ∀ pfn, pfnToSectionNum pfn < numMemSections →
        (marks (pfnToSectionNum pfn)).present = true → FindsElement sizeofPage marks mapPfn pfn :=
      fun pfn hi hpresent =>
        (findsElement_iff hpage hmaps hi hpresent).mpr (hwell _ hi hpresent) pfn rfl
    exact
      { element := helement
        injective := fun pfn pfn' hi hi' hpresent hpresent' =>
          eq_of_findsElement hpage hmaps hi hi' hpresent hpresent' (helement pfn hi hpresent)
            (helement pfn' hi' hpresent')
        absent := fun pfn hi hno => pfnToPage_absent hi (markNodes_absent hmarks _ hno) }

/-- Maps one after another, from frame `base` on.
Source: `sys/mem_map.cpp` `mem_map_init`
Kind: L -/
theorem mapsApart_line (marks : ℕ → MemSection) {base : ℕ} (hbase : base ≤ 2 ^ 20) :
    (∀ i < numMemSections, pfnToAddr (base + 336 * i) = (base + 336 * i) * pageSize) ∧
      MapsApart 42 marks fun i => base + 336 * i := by
  have hn : numMemSections = 2 ^ 19 := by decide
  have hmax : maxPfn = 2 ^ 52 := rfl
  have hbytes : pagesPerSection * 42 = 336 * 4096 := by decide
  have haddr : ∀ i < numMemSections, pfnToAddr (base + 336 * i) = (base + 336 * i) * pageSize :=
    fun i hi => pfnToAddr_of_lt (by omega)
  have hword : word = 2 ^ 64 := rfl
  refine ⟨haddr, ⟨fun i hi _ => ?_, fun i hi j hj hij _ _ => ?_⟩⟩
  · rw [haddr i hi, pageSize_eq]
    omega
  · rw [haddr i hi, haddr j hj, pageSize_eq]
    omega

/-- Only the second section has memory. Source: `sys/numa.hpp` `numa_nodes`. Kind: D -/
def secondSection : NumaNodes := [[⟨32768, 65536, 0⟩]]

/-- Its map at the address `1 * PAGES_PER_SECTION * sizeof(page)`: the section is not valid.
Source: `sys/mem_map.hpp` `mem_section::valid`
Kind: P -/
theorem not_lookupExact_secondSection :
    ¬ ∀ (sizeofPage : ℕ) (nodes : NumaNodes) (marks : ℕ → MemSection) (mapPfn : ℕ → ℕ),
      0 < sizeofPage → markNodes nodes = some marks → MapsApart sizeofPage marks mapPfn →
        LookupExact sizeofPage marks mapPfn := by
  intro hclaim
  have hrun : (markNodes secondSection).map (fun marks => (marks 1).present) = some true := by
    decide +kernel
  obtain ⟨marks, hmarks, hpresent⟩ := Option.map_eq_some_iff.mp hrun
  obtain ⟨haddr, hmaps⟩ := mapsApart_line marks (show 0 ≤ 2 ^ 20 by decide)
  have hexact := hclaim 42 secondSection marks _ (by decide) hmarks hmaps
  refine ((findsElement_iff (by decide) hmaps (show 1 < numMemSections by decide) hpresent).mp
    fun pfn hpfn => ?_).2 (by decide)
  exact hexact.element pfn (hpfn.symm ▸ (show 1 < numMemSections by decide)) (hpfn.symm ▸ hpresent)

/-- Its map at 4 MiB. Source: `sys/mem_map.hpp` `pfn_to_page`. Kind: P -/
theorem lookupExact_secondSection : ∃ marks, markNodes secondSection = some marks ∧
    LookupExact 42 marks fun i => 1024 + 336 * i := by
  have hrun : (markNodes secondSection).map (fun marks => (marks 1).present) = some true := by
    decide +kernel
  obtain ⟨marks, hmarks, -⟩ := Option.map_eq_some_iff.mp hrun
  obtain ⟨haddr, hmaps⟩ := mapsApart_line marks (show 1024 ≤ 2 ^ 20 by decide)
  refine ⟨marks, hmarks,
    (frameLookup_exactlyWhen 42 secondSection marks _ (by decide) hmarks hmaps).mpr ?_⟩
  intro i hi _
  have hpage : pagesPerSection * 42 = 336 * 4096 := by decide
  have hn : numMemSections = 2 ^ 19 := by decide
  have hword : word = 2 ^ 64 := rfl
  rw [haddr i hi, pageSize_eq, Nat.mul_assoc, hpage]
  rw [Nat.mod_eq_of_lt (by omega)]
  omega

end Exact

end EbbRT
