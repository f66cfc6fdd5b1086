import EbbRT.Mem.MapMemory

/-!
# The translation that `map_memory` installs

The traversal takes a 2 MB entry wherever the block lies wholly inside the range; what it is to be sent
to is not asked. `mapMemory_installs_exactlyWhen`: for which ranges the processor translates the
addresses as was asked.
-/

namespace EbbRT

open EbbRT.Lib EbbRT.Lib.Radix

/-! ## What the processor makes of a page -/

/-- The physical address of `va` in a page; the bits of the address of a large page that are below
its size are reserved (but for the PAT bit), and the processor faults where they are set.
Source: `sys/vmem.hpp` `pte::addr`
Kind: D -/
def pageAddr (x : ℕ × ℕ) (va : ℕ) : Option ℕ :=
  let base := Pte.addr x.2 (0 < x.1)
  if base % 2 ^ (12 + x.1 * 9) = 0 then some (base + va % 2 ^ (12 + x.1 * 9)) else none

/-- Where the processor sends a 64-bit address. Source: `sys/vmem.cpp` `map_memory`
Kind: D -/
def x86Translate (t : Tables) (va : ℕ) : Option ℕ := (x86Leaf t va).bind fun x => pageAddr x va

/-! ## The translation that is installed -/

/-- The call returns, the addresses of the range are sent where was asked, and every other address
where it was sent before.
Source: `sys/vmem.cpp` `map_memory`
Kind: D -/
def Installs (vfn pfn length : ℕ) (t : Tables) : Except Abort Tables → Prop
  | .error _ => False
  | .ok t' => (∀ d < length, x86Translate t' (pfnToAddr vfn + d) = some (pfnToAddr pfn + d)) ∧
      ∀ va, va < pfnToAddr vfn ∨ pfnToAddr vfn + length ≤ va →
        x86Translate t' va = x86Translate t va

/-- The range is mappable, its physical addresses have 52 bits, and the 2 MB blocks wholly inside it are
to be sent to 2 MB blocks.
Source: `sys/vmem.cpp` `map_memory`
Kind: D -/
def Installable (vfn pfn length : ℕ) (t : Tables) : Prop :=
  Mappable vfn length t ∧ pfnToAddr pfn + length ≤ 2 ^ 52 ∧
  ∀ b, 2 ^ 21 ∣ b → WholeBlock (pfnToAddr vfn) (pfnToAddr vfn + length) b →
    2 ^ 21 ∣ pfnToAddr pfn + (b - pfnToAddr vfn)

section Install

variable {pages : ℕ → Option ℕ} {vfn pfn length lo up off x va v : ℕ} {t t' : Tables}

/-- Where the processor translates, the page is aligned and the address has 52 bits.
Source: `sys/vmem.hpp` `pte::addr`
Kind: L -/
theorem pageAddr_some {y : ℕ × ℕ} (hlevel : y.1 < numPageSizes) (h : pageAddr y va = some v) :
    2 ^ (12 + y.1 * 9) ∣ v - va % 2 ^ (12 + y.1 * 9) ∧ va % 2 ^ (12 + y.1 * 9) ≤ v ∧ v < 2 ^ 52 := by
  have hbase : Pte.addr y.2 (0 < y.1) < 2 ^ 52 := by
    have hle : Pte.addr y.2 (0 < y.1) ≤ y.2 &&& (1 <<< 52 - 1) := Nat.and_le_left.trans Nat.and_le_left
    exact hle.trans_lt (lt_of_le_of_lt Nat.and_le_right (by decide))
  unfold pageAddr at h
  dsimp only at h
  split at h
  · rename_i hdvd
    have hv := Option.some.inj h
    have hdvd := Nat.dvd_of_mod_eq_zero hdvd
    have hpow : 2 ^ (12 + y.1 * 9) ∣ 2 ^ 52 := by
      unfold numPageSizes at hlevel
      exact Nat.pow_dvd_pow 2 (by omega)
    have hlt : va % 2 ^ (12 + y.1 * 9) < 2 ^ (12 + y.1 * 9) := Nat.mod_lt _ (Nat.two_pow_pos _)
    have hroom : Pte.addr y.2 (0 < y.1) + 2 ^ (12 + y.1 * 9) ≤ 2 ^ 52 := by
      obtain ⟨m, hm⟩ := hdvd
      obtain ⟨n, hn⟩ := hpow
      rw [hm, hn] at hbase ⊢
      have hmn : m < n := Nat.lt_of_mul_lt_mul_left hbase
      calc 2 ^ (12 + y.1 * 9) * m + 2 ^ (12 + y.1 * 9)
          = 2 ^ (12 + y.1 * 9) * (m + 1) := by ring
        _ ≤ _ := Nat.mul_le_mul_left _ hmn
    refine ⟨?_, by omega, by omega⟩
    rw [← hv, Nat.add_sub_cancel]
    exact hdvd
  · cases h

/-- Where the processor sends an address of a block that `found` mapped.
Source: `sys/vmem.cpp` `map_memory`
Kind: L -/
theorem pageAddr_set {level base phys : ℕ} (hlevel : level < numPageSizes)
    (hbase : 2 ^ (12 + level * 9) ∣ base) (h1 : base ≤ va) (h2 : va < base + 2 ^ (12 + level * 9))
    (hphys : 2 ^ (12 + level * 9) ∣ phys) (hlt : phys < 2 ^ 52) :
    pageAddr (level, Pte.set phys (0 < level)) va = some (phys + (va - base)) := by
  have hbit : 9 * (decide (0 < level)).toNat = level * 9 := by
    unfold numPageSizes at hlevel
    obtain rfl | rfl : level = 0 ∨ level = 1 := by omega
    · rfl
    · rfl
  have haddr : Pte.addr (Pte.set phys (0 < level)) (0 < level) = phys := by
    apply Pte.addr_set _ hlt
    rw [hbit]
    exact hphys
  have hmod : va % 2 ^ (12 + level * 9) = va - base := by
    obtain ⟨q, rfl⟩ := hbase
    have hva : va = 2 ^ (12 + level * 9) * q + (va - 2 ^ (12 + level * 9) * q) := by omega
    rw [hva, Nat.mul_add_mod, Nat.mod_eq_of_lt (by omega)]
    omega
  unfold pageAddr
  dsimp only
  rw [haddr, if_pos (Nat.mod_eq_zero_of_dvd hphys), hmod]

/-- The entry of an address that is translated. Source: `sys/vmem.cpp` `map_memory`. Kind: L -/
theorem x86Translate_some (h : x86Translate t va = some v) :
    ∃ y, x86Leaf t va = some y ∧ pageAddr y va = some v := by
  unfold x86Translate at h
  exact Option.bind_eq_some_iff.mp h

/-- Whether a page is aligned does not depend on the address. Source: `sys/vmem.hpp` `pte::addr`.
Kind: L -/
theorem pageAddr_none {y : ℕ × ℕ} {a : ℕ} (h : pageAddr y a = none) (b : ℕ) : pageAddr y b = none := by
  unfold pageAddr at h ⊢
  dsimp only at h ⊢
  split at h
  · cases h
  · rename_i hdvd
    rw [if_neg hdvd]

/-- The positions of the last block are mapped with one page. Source: `sys/vmem.cpp` `map_memory`.
Kind: L -/
theorem mappedLeaf_last (hpages : FreshPages pages) (h : InHalf lo up off) (hlo : 2 ^ 12 ∣ lo)
    (hpass : (mapTraversal hpages pfn h hlo).Passable t 4 t.root (up - off - 1))
    (h1 : up - off - 1 ≤ x) (h2 : x < (mapTraversal hpages pfn h hlo).visitedEnd) :
    mappedLeaf (mapTraversal hpages pfn h hlo) lo pfn x
      = mappedLeaf (mapTraversal hpages pfn h hlo) lo pfn (up - off - 1) := by
  obtain ⟨k, hk⟩ : ∃ k, (mapTraversal hpages pfn h hlo).foundLevel (up - off - 1) = k := ⟨_, rfl⟩
  have htaken := hpass.taken
  rw [hk] at htaken
  have hal : pageRadix.width k ∣ blockOf k (up - off - 1) := Nat.dvd_mul_left _ _
  have hin : pageRadix.InBlock k (blockOf k (up - off - 1)) (up - off - 1) :=
    ⟨Nat.div_mul_le_self _ _, Nat.lt_div_mul_add (pageRadix.width_pos k)⟩
  have hend : (mapTraversal hpages pfn h hlo).visitedEnd
      = blockOf k (up - off - 1) + pageRadix.width k := by
    rw [← hk]
    rfl
  have hin' : pageRadix.InBlock k (blockOf k (up - off - 1)) x := ⟨hin.1.trans h1, by omega⟩
  have h0 : k = 0 → ¬ (mapTraversal hpages pfn h hlo).Takes 1
      (blockOf 1 (blockOf k (up - off - 1))) := by
    intro hk0 htakes
    subst hk0
    rw [← Traversal.blockOf_one hal hin] at htakes
    unfold Traversal.foundLevel at hk
    rw [if_pos htakes] at hk
    cases hk
  have hlevel := Traversal.foundLevel_of_takes hal h0 htaken hin'
  unfold mappedLeaf
  rw [hlevel, hk, Traversal.blockOf_eq hal hin']

/-- **A block of the range is sent where it was asked to be**, if its physical address is aligned.
Source: `sys/vmem.cpp` `map_memory`
Kind: L -/
theorem mappedLeaf_pageAddr (hpages : FreshPages pages) (h : InHalf lo up off) (hlo : 2 ^ 12 ∣ lo)
    {level : ℕ} (hlevel : level < numPageSizes) (h1 : lo ≤ va) (h2 : va < up)
    (hfound : (mapTraversal hpages pfn h hlo).foundLevel (va - off) = level)
    (htakes : TakesAt lo up (2 ^ (12 + level * 9)) va)
    (hphys : pfnToAddr pfn + (up - lo) ≤ 2 ^ 52)
    (hal : 2 ^ (12 + level * 9) ∣
      pfnToAddr pfn + (va / 2 ^ (12 + level * 9) * 2 ^ (12 + level * 9) - lo)) :
    pageAddr (mappedLeaf (mapTraversal hpages pfn h hlo) lo pfn (va - off)) va
      = some (pfnToAddr pfn + (va - lo)) := by
  have hoff : va - off + off = va := Nat.sub_add_cancel (h.off_le.trans h1)
  have hup : up ≤ 2 ^ 64 := by
    have := h.half
    omega
  have hle := Nat.div_mul_le_self va (2 ^ (12 + level * 9))
  have hlt := Nat.lt_div_mul_add (a := va) (Nat.two_pow_pos (12 + level * 9))
  have hstart := htakes.1
  have hbase : physBase lo pfn (blockOf level (va - off))
      = pfnToAddr pfn + (va / 2 ^ (12 + level * 9) * 2 ^ (12 + level * 9) - lo) := by
    unfold physBase
    rw [h.canonical_block hlevel (by omega) (by omega), h.blockOf_add hlevel, hoff,
      wsub_eq hstart (by unfold word; omega)]
    exact Nat.mod_eq_of_lt (by unfold word; omega)
  unfold mappedLeaf
  rw [hfound, hbase, pageAddr_set hlevel (Nat.dvd_mul_left _ _) hle hlt hal (by omega)]
  congr 1
  omega

/-- The range and the tables of a call that returned `t'`, where nothing was mapped before.
Source: none: infrastructure
Kind: D -/
structure Called (pages : ℕ → Option ℕ) (pfn lo up off : ℕ) (t t' : Tables) (hpages : FreshPages pages)
    (h : InHalf lo up off) (hlo : 2 ^ 12 ∣ lo) : Prop where
  root : Pte.present t.root = true
  clear : ∀ x, lo - off ≤ x → x < up - off → pageRadix.walk pteView t.mem 4 t.root x = none
  outcome : MapOutcome (mapTraversal hpages pfn h hlo) lo pfn t (.ok t')

/-- If the addresses of the range are translated and those after it as before, no block is too large:
the last one would be translated after the range as well.
Source: `sys/vmem.cpp` `map_memory`
Kind: L -/
theorem Called.end_le {hpages : FreshPages pages} {h : InHalf lo up off} {hlo : 2 ^ 12 ∣ lo}
    (hc : Called pages pfn lo up off t t' hpages h hlo)
    (hinside : (x86Translate t' (up - 1)).isSome = true)
    (houtside : x86Translate t' up = x86Translate t up) :
    (mapTraversal hpages pfn h hlo).visitedEnd + off ≤ up := by
  by_contra hover
  have hlt := h.first_lt
  have hle := h.off_le
  have hlast := h.lt
  have hpass : (mapTraversal hpages pfn h hlo).Passable t 4 t.root (up - off - 1) :=
    hc.outcome.2.1 _ (show lo - off ≤ _ by omega) (show _ < up - off by omega)
  have hbefore : x86Leaf t up = none :=
    map_clear hpages h hlo hc.root hpass (hc.clear _ (by omega) (by omega)) (by omega) (by omega)
  have hafter := map_leaf hpages h hlo hc.root hc.outcome up
  rw [if_pos ⟨by omega, by omega⟩, mappedLeaf_last hpages h hlo hpass (by omega) (by omega)] at hafter
  have hafterLast := map_leaf hpages h hlo hc.root hc.outcome (up - 1)
  rw [if_pos ⟨by omega, by omega⟩, show up - 1 - off = up - off - 1 by omega] at hafterLast
  unfold x86Translate at hinside houtside
  rw [hafterLast] at hinside
  rw [hafter, hbefore] at houtside
  have hnone : pageAddr (mappedLeaf (mapTraversal hpages pfn h hlo) lo pfn (up - off - 1)) up = none :=
    houtside
  have hsome : (pageAddr (mappedLeaf (mapTraversal hpages pfn h hlo) lo pfn (up - off - 1))
      (up - 1)).isSome = true := hinside
  rw [pageAddr_none hnone] at hsome
  cases hsome

/-- What the translation of an address of the range says of the page it is in.
Source: `sys/vmem.cpp` `map_memory`
Kind: L -/
theorem Called.translated {hpages : FreshPages pages} {h : InHalf lo up off} {hlo : 2 ^ 12 ∣ lo}
    (hc : Called pages pfn lo up off t t' hpages h hlo) (h1 : lo ≤ va) (h2 : va < up)
    (hva : x86Translate t' va = some v) : v < 2 ^ 52 ∧
      (TakesAt lo up (2 ^ 21) va → 2 ^ 21 ∣ v - va % 2 ^ 21) := by
  have hoff : va - off + off = va := Nat.sub_add_cancel (h.off_le.trans h1)
  have hcovers : up - off ≤ (mapTraversal hpages pfn h hlo).visitedEnd := hc.outcome.2.2.1
  have hleaf := map_leaf hpages h hlo hc.root hc.outcome va
  rw [if_pos ⟨h1, by omega⟩] at hleaf
  obtain ⟨y, hy, haddr⟩ := x86Translate_some hva
  obtain rfl := Option.some.inj (hleaf.symm.trans hy)
  obtain ⟨hone, hzero⟩ := map_foundLevel (x := va - off) pfn hpages h hlo (by omega) (by omega)
  rw [hoff] at hone hzero
  by_cases htakes : TakesAt lo up (2 ^ 21) va
  · have hlevel : (mappedLeaf (mapTraversal hpages pfn h hlo) lo pfn (va - off)).1 = 1 := hone htakes
    have hsome := pageAddr_some (by rw [hlevel]; decide) haddr
    rw [hlevel] at hsome
    exact ⟨hsome.2.2, fun _ => hsome.1⟩
  · have hlevel : (mappedLeaf (mapTraversal hpages pfn h hlo) lo pfn (va - off)).1 = 0 := hzero htakes
    have hsome := pageAddr_some (by rw [hlevel]; decide) haddr
    exact ⟨hsome.2.2, fun ht => (htakes ht).elim⟩

/-- A call that installs the translation has had a range for which that is possible: its addresses are
canonical, its end is one that the traversal does not go beyond, and its blocks are free.
Source: `sys/vmem.cpp` `map_memory`
Kind: L -/
theorem installable_of_installs
    {own : Owner} (hpages : FreshPages pages) (hok : TablesOk pages AnyLeaf own t)
    (hroot : Pte.present t.root = true) (hlength : 0 < length) (hdvd : 2 ^ 12 ∣ length)
    (hunmapped : ∀ va, pfnToAddr vfn ≤ va → va < pfnToAddr vfn + length → ¬ Mapped t va)
    (halloc : mapMemory pages vfn pfn length t ≠ .error .noPage)
    (hinst : Installs vfn pfn length t (mapMemory pages vfn pfn length t)) :
    Installable vfn pfn length t := by
  have hlo := dvd_pfnToAddr vfn
  have hpageEnd : pageEnd (pfnToAddr vfn + length) = pfnToAddr vfn + length := by
    unfold pageEnd
    omega
  cases hres : mapMemory pages vfn pfn length t with
  | error a =>
      rw [hres] at hinst
      exact hinst.elim
  | ok t' =>
      rw [hres] at hinst
      obtain ⟨hinside, houtside⟩ := hinst
      have hsome : ∀ va, pfnToAddr vfn ≤ va → va < pfnToAddr vfn + length →
          x86Translate t' va = some (pfnToAddr pfn + (va - pfnToAddr vfn)) := by
        intro va h1 h2
        have := hinside (va - pfnToAddr vfn) (by omega)
        rw [Nat.add_sub_cancel' h1] at this
        exact this
      obtain ⟨off, h⟩ : ∃ off, InHalf (pfnToAddr vfn) (pfnToAddr vfn + length) off := by
        refine half_of_canonical (by omega) fun va h1 h2 => ?_
        obtain ⟨y, hy, _⟩ := x86Translate_some (hsome va h1 h2)
        by_contra hva
        rw [x86Leaf_of_not_canonical hva] at hy
        cases hy
      have hclear : ∀ x, pfnToAddr vfn - off ≤ x → x < pfnToAddr vfn + length - off →
          pageRadix.walk pteView t.mem 4 t.root x = none :=
        fun x h1 h2 => h.clear hroot hunmapped h1 h2
      have hout := mapMemory_outcome hpages h hlo rfl rfl hok hroot hclear halloc
      rw [hres] at hout
      have hc : Called pages pfn (pfnToAddr vfn) (pfnToAddr vfn + length) off t t' hpages h hlo :=
        ⟨hroot, hclear, hout⟩
      have hlast := hc.end_le
        (by rw [hsome (pfnToAddr vfn + length - 1) (by omega) (by omega)]; rfl)
        (houtside _ (Or.inr le_rfl))
      have hend := map_goodEnd hpages h hlo hout.2.1 (hlast.trans_eq hpageEnd.symm)
      refine ⟨⟨by have := h.half; omega, hend, fun b hb hwhole =>
        map_blockFree hpages h hlo hout.2.1 hend hb hwhole⟩, ?_, fun b hb hwhole => ?_⟩
      · have htop := (hc.translated (by omega) (by omega)
          (hsome (pfnToAddr vfn + length - 1) (by omega) (by omega))).1
        omega
      · have hin : b < pfnToAddr vfn + length := by
          unfold WholeBlock at hwhole
          omega
        have hblock : block2M b = b := Nat.div_mul_cancel hb
        have htakes : TakesAt (pfnToAddr vfn) (pfnToAddr vfn + length) (2 ^ 21) b := by
          apply (hend.takes_block_iff hlo hwhole.1 hin).mpr
          rw [hpageEnd, hblock]
          exact hwhole
        have hal := (hc.translated hwhole.1 hin (hsome b hwhole.1 hin)).2 htakes
        rw [Nat.mod_eq_zero_of_dvd hb] at hal
        exact hal

/-- For such a range the call returns, and every page is sent to its own.
Source: `sys/vmem.cpp` `map_memory`
Kind: L -/
theorem installs_of_installable
    {own : Owner} (hpages : FreshPages pages) (hok : TablesOk pages AnyLeaf own t)
    (hroot : Pte.present t.root = true) (hlength : 0 < length) (hdvd : 2 ^ 12 ∣ length)
    (hunmapped : ∀ va, pfnToAddr vfn ≤ va → va < pfnToAddr vfn + length → ¬ Mapped t va)
    (halloc : mapMemory pages vfn pfn length t ≠ .error .noPage)
    (hinst : Installable vfn pfn length t) :
    Installs vfn pfn length t (mapMemory pages vfn pfn length t) := by
  obtain ⟨⟨hhalf, hend, hfree⟩, hphys, hal⟩ := hinst
  have hlo := dvd_pfnToAddr vfn
  have hpageEnd : pageEnd (pfnToAddr vfn + length) = pfnToAddr vfn + length := by
    unfold pageEnd
    omega
  obtain ⟨off, h⟩ : ∃ off, InHalf (pfnToAddr vfn) (pfnToAddr vfn + length) off := by
    rcases hhalf with hhalf | hhalf
    · exact ⟨0, by omega, Or.inl ⟨rfl, hhalf⟩⟩
    · exact ⟨_, by omega, Or.inr ⟨rfl, hhalf⟩⟩
  obtain ⟨t', hres, hleaf⟩ := map_returns rfl rfl hpages h hlo hok hroot
    (fun x h1 h2 => h.clear hroot hunmapped h1 h2) halloc hend hfree
  rw [hpageEnd] at hleaf
  rw [hres]
  refine ⟨fun d hd => ?_, fun va hva => ?_⟩
  · have h1 : pfnToAddr vfn ≤ pfnToAddr vfn + d := Nat.le_add_right _ _
    have h2 : pfnToAddr vfn + d < pfnToAddr vfn + length := by omega
    have hoff := Nat.sub_add_cancel (h.off_le.trans h1)
    obtain ⟨hone, hzero⟩ := map_foundLevel (x := pfnToAddr vfn + d - off) pfn hpages h hlo (by omega)
      (by omega)
    rw [hoff] at hone hzero
    have haddr : pageAddr (mappedLeaf (mapTraversal hpages pfn h hlo) (pfnToAddr vfn) pfn
        (pfnToAddr vfn + d - off)) (pfnToAddr vfn + d)
        = some (pfnToAddr pfn + (pfnToAddr vfn + d - pfnToAddr vfn)) := by
      by_cases htakes : TakesAt (pfnToAddr vfn) (pfnToAddr vfn + length) (2 ^ 21) (pfnToAddr vfn + d)
      · refine mappedLeaf_pageAddr hpages h hlo (by decide) h1 h2 (hone htakes) htakes (by omega) ?_
        have hwhole := (hend.takes_block_iff hlo h1 h2).mp htakes
        rw [hpageEnd] at hwhole
        exact hal _ (Nat.dvd_mul_left _ _) hwhole
      · refine mappedLeaf_pageAddr hpages h hlo (by decide) h1 h2 (hzero htakes)
          ((hend.takes hlo h1 h2).resolve_left htakes) (by omega) ?_
        have := dvd_pfnToAddr pfn
        have hstart := ((hend.takes hlo h1 h2).resolve_left htakes).1
        have hpage := Nat.dvd_mul_left (2 ^ 12) ((pfnToAddr vfn + d) / 2 ^ 12)
        exact dvd_add this (Nat.dvd_sub hpage hlo)
    unfold x86Translate
    rw [hleaf, if_pos ⟨h1, h2⟩]
    rw [Nat.add_sub_cancel_left] at haddr
    exact haddr
  · unfold x86Translate
    rw [hleaf, if_neg (by omega)]

/-- **`map_memory` installs the translation it is asked for exactly when the range is installable**: it
is mappable, its physical addresses have 52 bits, and the 2 MB blocks wholly inside it are to be sent to
2 MB blocks.
Source: `sys/vmem.cpp` `map_memory`
Kind: C
Hyps: `htree`, `hunmapped`: tables in which nothing of the range is mapped; `halloc`: `Alloc` has the pages
that are asked for -/
theorem mapMemory_installs_exactlyWhen (pages : ℕ → Option ℕ) (vfn pfn length : ℕ) (t : Tables)
    (hpages : FreshPages pages) (htree : RuntimeTree pages t) (hlength : 0 < length)
    (hdvd : pageSize ∣ length)
    (hunmapped : ∀ d < length, ¬ Mapped t (pfnToAddr vfn + d))
    (halloc : mapMemory pages vfn pfn length t ≠ .error .noPage) :
    Installs vfn pfn length t (mapMemory pages vfn pfn length t) ↔ Installable vfn pfn length t := by
  obtain ⟨⟨own, hok⟩, hroot⟩ := htree
  rw [pageSize_eq] at hdvd
  have hunmapped : ∀ va, pfnToAddr vfn ≤ va → va < pfnToAddr vfn + length → ¬ Mapped t va := by
    intro va h1 h2
    have := hunmapped (va - pfnToAddr vfn) (by omega)
    rw [Nat.add_sub_cancel' h1] at this
    exact this
  exact ⟨installable_of_installs hpages hok hroot hlength hdvd hunmapped halloc,
    installs_of_installable hpages hok hroot hlength hdvd hunmapped halloc⟩

end Install

/-- The last page below a 2 MB block, the block, and the page above it, sent to physical pages that lie
in the same way.
Source: `sys/vmem.cpp` `map_memory`
Kind: C -/
theorem mapMemory_installs_exactlyWhen_around :
    Installs 0x1ff 0x5ff 0x202000 bareTree (mapMemory firstPages 0x1ff 0x5ff 0x202000 bareTree) := by
  have hstop : stopOf (mapMemory firstPages 0x1ff 0x5ff 0x202000 bareTree) = none := by
    decide +kernel
  have hvaddr : pfnToAddr 0x1ff = 0x1ff000 := by decide
  have hpaddr : pfnToAddr 0x5ff = 0x5ff000 := by decide
  refine (mapMemory_installs_exactlyWhen firstPages 0x1ff 0x5ff 0x202000 bareTree
    freshPages_firstPages bareTree_runtime (by decide) (by decide)
    (fun d _ => bareTree_not_mapped _) (ne_noPage_of_stopOf hstop (by decide))).mpr
    ⟨⟨Or.inl (by decide), Or.inl ⟨by decide, Or.inl (by decide)⟩, fun b _ _ => bareTree_blockFree b⟩,
      by decide, fun b hb hwhole => ?_⟩
  unfold WholeBlock at hwhole
  rw [hvaddr] at hwhole
  rw [hvaddr, hpaddr]
  omega

/-- A 2 MB block that is to be sent to a physical page that is not 2 MB aligned: the processor faults.
Source: `sys/vmem.cpp` `map_memory`
Kind: C -/
theorem mapMemory_installs_not_always :
    ¬ ∀ (pages : ℕ → Option ℕ) (vfn pfn length : ℕ) (t : Tables), FreshPages pages →
      RuntimeTree pages t → 0 < length → pageSize ∣ length →
      (∀ d < length, ¬ Mapped t (pfnToAddr vfn + d)) →
      mapMemory pages vfn pfn length t ≠ .error .noPage →
        Installs vfn pfn length t (mapMemory pages vfn pfn length t) := by
  intro hall
  have hstop : stopOf (mapMemory firstPages 0xffff800000000 0xfd004 0x200000 bareTree) = none := by
    decide +kernel
  have hinst := hall firstPages 0xffff800000000 0xfd004 0x200000 bareTree freshPages_firstPages
    bareTree_runtime (by decide) (by decide) (fun d _ => bareTree_not_mapped _)
    (ne_noPage_of_stopOf hstop (by decide))
  have hfault : (mapMemory firstPages 0xffff800000000 0xfd004 0x200000 bareTree).toOption.map
      (fun t' => x86Translate t' (pfnToAddr 0xffff800000000 + 0)) = some none := by
    decide +kernel
  cases hres : mapMemory firstPages 0xffff800000000 0xfd004 0x200000 bareTree with
  | error a =>
      rw [hres] at hinst
      exact hinst
  | ok t' =>
      rw [hres] at hinst hfault
      have hnone : x86Translate t' (pfnToAddr 0xffff800000000 + 0) = none := Option.some.inj hfault
      have hsome := hinst.1 0 (by decide)
      rw [hnone] at hsome
      cases hsome

end EbbRT
