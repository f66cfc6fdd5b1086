import EbbRT.Mem.PageTableRanges

/-!
# Mapping memory at run time

`map_memory` maps a range of pages, to whose entries nothing is mapped yet, in the tables that `cr3`
points to. `mapMemory_outcome` says for both ways it can end what becomes of every address, and
`mapMemory_maps_exactlyWhen` for which ranges the pages of the range are mapped and no other.
-/

namespace EbbRT

open EbbRT.Lib EbbRT.Lib.Radix

/-! ## The function -/

/-- Source: `sys/vmem.cpp` `map_memory`
Kind: D -/
def mapMemoryFound (vaddr pfn : ℕ) (entry : Entry) (baseVirt level : ℕ) (t : Tables) :
    Except Abort Tables :=
  if Pte.present (t.read entry) then .error .kassert
  else .ok (t.write (Pte.set ((pfnToAddr pfn + wsub baseVirt vaddr) % word) (0 < level)) entry)

/-- The root is `cr3`; the call works on a copy of it. `Alloc` is the stream `pages`: the page that the
`n`-th call returns, `none` where it returns 0 and `kbugon` stops.
Source: `sys/vmem.cpp` `map_memory`
Kind: D -/
def mapMemory (pages : ℕ → Option ℕ) (vfn pfn length : ℕ) (t : Tables) : Except Abort Tables := do
  let pteRoot := t.root
  let vaddr := pfnToAddr vfn
  let t ← traversePageTable ⟨mapMemoryFound vaddr pfn, installTable pages⟩ vaddr
    ((vaddr + length) % word) 4 .root 0 t
  .ok { t with root := pteRoot }

/-! ## What the processor makes of an address -/

/-- The entry of the page that the processor finds for a 64-bit address, and its level; `none` is a
page fault, or a general protection fault for an address that is not canonical.
Source: `sys/vmem.hpp` `pt_index`
Kind: D -/
def x86Leaf (t : Tables) (va : ℕ) : Option (ℕ × ℕ) :=
  if canonical va = va then
    pageRadix.walk pteView t.mem 3 (t.mem (t.root % 2 ^ 52 / 2 ^ 12 * 2 ^ 12) (va / 2 ^ 39 % 512)) va
  else none

/-- A page is mapped at the address. Source: `sys/vmem.cpp` `map_memory`
Kind: D -/
def Mapped (t : Tables) (va : ℕ) : Prop := (x86Leaf t va).isSome = true

/-- What `map_memory` expects of the tables that `cr3` points to: a tree, with a table at the root, of
which the pages to be allocated are no part.
Source: `sys/vmem.cpp` `enable_runtime_page_table`
Kind: D -/
def RuntimeTree (pages : ℕ → Option ℕ) (t : Tables) : Prop :=
  IsTree pages t ∧ Pte.present t.root = true

section Leaf

variable {t t' : Tables} {va : ℕ}

/-- A present root points to a table. Source: `sys/vmem.hpp` `pte::present`. Kind: L -/
theorem root_table (h : Pte.present t.root = true) : ∃ pt, pteView 4 t.root = .table pt := by
  unfold pteView
  rw [h]
  exact ⟨_, rfl⟩

/-- The walk from the root, by the position of the address. Source: `sys/vmem.hpp` `pt_index`.
Kind: L -/
theorem x86Leaf_eq (hroot : Pte.present t.root = true) (h : canonical va = va) :
    x86Leaf t va = pageRadix.walk pteView t.mem 4 t.root (va % 2 ^ 48) := by
  obtain ⟨pt, hpt⟩ := root_table hroot
  have hdigit : pageRadix.digit 3 va = va / 2 ^ 39 % 512 := pageRadix_digit 3 va
  have hmod : va % 2 ^ 48 = va % 2 ^ 48 % 2 ^ 48 := (Nat.mod_mod _ _).symm
  unfold x86Leaf
  rw [if_pos h, bits_of_pteView_table hpt, ← hdigit, ← pageRadix.walk_table hpt]
  unfold Radix.walk
  rw [pageRadix.trace_congr fun k hk => digit_congr (by omega) hmod]

/-- Source: `sys/vmem.hpp` `canonical`. Kind: L -/
theorem x86Leaf_of_not_canonical (h : canonical va ≠ va) : x86Leaf t va = none := if_neg h

end Leaf

/-! ## One call -/

/-- Source: `sys/pfn.hpp` `pfn_to_addr`. Kind: L -/
theorem dvd_pfnToAddr (pfn : ℕ) : 2 ^ 12 ∣ pfnToAddr pfn := by
  unfold pfnToAddr word pageShift
  rw [Nat.shiftLeft_eq]
  exact (Nat.dvd_mod_iff (by decide)).mpr (Nat.dvd_mul_left _ _)

/-- The physical address that `found` gives the block at the position `base`.
Source: `sys/vmem.cpp` `map_memory`
Kind: D -/
def physBase (lo pfn base : ℕ) : ℕ := (pfnToAddr pfn + wsub (canonical base) lo) % word

/-- Source: `sys/vmem.cpp` `map_memory`. Kind: L -/
theorem dvd_physBase {lo base : ℕ} (pfn : ℕ) (hlo : 2 ^ 12 ∣ lo) (hbase : 2 ^ 12 ∣ base)
    (hlt : base < 2 ^ 48) : 2 ^ 12 ∣ physBase lo pfn base := by
  have hpfn := dvd_pfnToAddr pfn
  unfold physBase wsub word
  rcases canonical_halves hlt with ⟨_, h⟩ | ⟨_, h⟩ <;>
    · rw [h]
      omega

section Call

variable {pages : ℕ → Option ℕ} {lo up off pfn : ℕ}

/-- The traversal of `map_memory`. Source: `sys/vmem.cpp` `map_memory`
Kind: D -/
def mapTraversal (hpages : FreshPages pages) (pfn : ℕ) (h : InHalf lo up off) (hlo : 2 ^ 12 ∣ lo) :
    Traversal where
  pages := pages
  callbacks := ⟨mapMemoryFound lo pfn, installTable pages⟩
  refuses raw := Pte.present raw = true
  virtStart := lo
  virtEnd := up % word
  first := lo - off
  stop := up - off
  fresh := hpages
  start_eq := h.start_eq
  last_eq := h.last_eq
  first_lt := h.first_lt
  stop_le := h.stop_le
  empty_eq := rfl
  refuse := by
    intro e base level t _ _ _ hpres
    exact ⟨.kassert, if_pos hpres⟩
  accept := by
    intro e base level t hlevel hal hlt hpres
    have hphys := dvd_physBase pfn hlo (width_dvd_page hal) hlt
    unfold physBase at hphys
    refine ⟨_, if_neg hpres, Or.inr ?_⟩
    rw [pteView_set hlevel hphys]
    rfl
  refuses_zero := by decide

/-- Where the last block that is found ends: after the end of the range if the block is too large.
Source: `sys/vmem.hpp` `traverse_page_table`
Kind: D -/
def Traversal.visitedEnd (r : Traversal) : ℕ :=
  blockOf (r.foundLevel (r.stop - 1)) (r.stop - 1) + pageRadix.width (r.foundLevel (r.stop - 1))

/-- The page that the position is found with.
Source: `sys/vmem.cpp` `map_memory`
Kind: D -/
def mappedLeaf (r : Traversal) (lo pfn x : ℕ) : ℕ × ℕ :=
  (r.foundLevel x, Pte.set (physBase lo pfn (blockOf (r.foundLevel x) x)) (0 < r.foundLevel x))

/-- How a call can end: at a position that is not passable, or with the pages mapped up to the end of
the last block that is found.
Source: `sys/vmem.cpp` `map_memory`
Kind: D -/
def MapOutcome (r : Traversal) (lo pfn : ℕ) (t : Tables) : Except Abort Tables → Prop
  | .error _ => ∃ x, (r.first ≤ x ∧ x < r.stop) ∧ ¬ r.Passable t 4 t.root x
  | .ok t' => t'.root = t.root ∧ (∀ x, r.first ≤ x → x < r.stop → r.Passable t 4 t.root x) ∧
      r.stop ≤ r.visitedEnd ∧ r.visitedEnd ≤ 2 ^ 48 ∧
      ∀ x < 2 ^ 48, pageRadix.walk pteView t'.mem 4 t.root x =
        if r.first ≤ x ∧ x < r.visitedEnd then some (mappedLeaf r lo pfn x)
        else pageRadix.walk pteView t.mem 4 t.root x

variable {own own' : Owner} {s s' : Logged} {new : List Visit} {hi x : ℕ} {v : Visit} {t t' : Tables}

/-- A position in a visited block. Source: `sys/vmem.hpp` `traverse_page_table`. Kind: L -/
theorem Traversal.VisitOk.found_at {r : Traversal} {level first last : ℕ} {ent : ℕ → Entry}
    (hv : r.VisitOk own t t' level first last ent v) (h1 : v.pos ≤ x) (h2 : x < v.pos + v.size) :
    r.foundLevel x = v.level ∧ blockOf v.level x = v.pos := by
  have hin : pageRadix.InBlock v.level v.pos x := by
    rw [Traversal.size_eq] at h2
    exact ⟨h1, h2⟩
  refine ⟨Traversal.foundLevel_of_takes hv.aligned ?_ hv.takes hin, Traversal.blockOf_eq hv.aligned hin⟩
  intro h0 htakes
  have hlevel := hv.level_eq
  unfold Traversal.foundLevel at hlevel
  rw [if_pos htakes, h0] at hlevel
  cases hlevel

/-- The walk of a position in a visited block ends in the page that `found` wrote.
Source: `sys/vmem.cpp` `map_memory`
Kind: L -/
theorem visited_walk (hpages : FreshPages pages) (h : InHalf lo up off) (hlo : 2 ^ 12 ∣ lo)
    {first last : ℕ}
    (hv : (mapTraversal hpages pfn h hlo).VisitOk own t t' 4 first last (fun _ => .root) v)
    (h1 : v.pos ≤ x) (h2 : x < v.pos + v.size) :
    pageRadix.walk pteView t'.mem 4 t'.root x
      = some (mappedLeaf (mapTraversal hpages pfn h hlo) lo pfn x) := by
  obtain ⟨hlevel, hblock⟩ := hv.found_at h1 h2
  have hin : pageRadix.InBlock v.level v.pos x := by
    rw [Traversal.size_eq] at h2
    exact ⟨h1, h2⟩
  have hle := slotFrom_le hv.reached
  have hslot : slotFrom t' v.level x 4 .root = some v.entry := by
    rw [slotFrom_congr hle fun j hj _ => pageRadix.digit_block hj hv.aligned hin]
    exact hv.reached
  have hfound : mapMemoryFound lo pfn v.entry v.baseVirt v.level v.tables
      = .ok (v.tables.write (t'.read v.entry) v.entry) := hv.found
  have hpos : v.pos < 2 ^ 48 := Nat.mod_lt _ (by norm_num)
  have hraw : t'.read v.entry = Pte.set (physBase lo pfn v.pos) (0 < v.level) := by
    unfold mapMemoryFound at hfound
    split at hfound
    · cases hfound
    · have hwrite := congrArg (fun t : Tables => t.read v.entry) (Except.ok.inj hfound)
      simp only [read_write] at hwrite
      rw [← hwrite, hv.addr]
      rfl
  have hview : pteView v.level (t'.read v.entry) = .leaf (t'.read v.entry) := by
    rw [hraw]
    exact pteView_set hv.takes.1 (dvd_physBase pfn hlo (width_dvd_page hv.aligned) hpos)
  have hend : ∀ pt, pteView v.level (t'.read v.entry) ≠ .table pt := by
    intro pt hpt
    rw [hview] at hpt
    cases hpt
  have hwalk := walk_slotFrom hslot
  rw [pageRadix.walk_end hend] at hwalk
  unfold mappedLeaf
  rw [hlevel, hblock, ← hraw]
  refine hwalk.trans ?_
  unfold leafOf
  rw [hview]

/-- The visits of a traversal that returned end where the last block that is found ends.
Source: `sys/vmem.hpp` `traverse_page_table`
Kind: L -/
theorem Traversal.Returned.end_eq {r : Traversal} {upper : ℕ} {ent : ℕ → Entry}
    (hret : r.Returned own own' s s' 4 0 upper ent new hi) (hstop : r.stop ≤ upper) :
    r.stop ≤ hi ∧ hi = r.visitedEnd := by
  have hcovers : r.stop ≤ hi := (le_min le_rfl hstop).trans hret.covers
  have hlt := r.first_lt
  refine ⟨hcovers, ?_⟩
  have htiles := hret.tiles
  have hvisit := hret.visit
  cases new with
  | nil =>
      have : max r.first 0 = hi := htiles
      omega
  | cons v l =>
      have hend : v.pos + v.size = hi := htiles.1
      have hv := hvisit v List.mem_cons_self
      have hbelow := hv.below
      obtain ⟨hlevel, hblock⟩ := hv.found_at (x := r.stop - 1) (by omega) (by omega)
      unfold Traversal.visitedEnd
      rw [hlevel, hblock, ← Traversal.size_eq, hend]

/-- **What a call does**, if pages for its tables do not run out. Source: `sys/vmem.cpp` `map_memory`.
Kind: P -/
theorem mapMemory_outcome {vfn length : ℕ} (hpages : FreshPages pages) (h : InHalf lo up off)
    (hlo : 2 ^ 12 ∣ lo) (hvfn : pfnToAddr vfn = lo) (hup : lo + length = up)
    (hok : TablesOk pages AnyLeaf own t) (hroot : Pte.present t.root = true)
    (hclear : ∀ x, lo - off ≤ x → x < up - off →
      pageRadix.walk pteView t.mem 4 t.root x = none)
    (halloc : mapMemory pages vfn pfn length t ≠ .error .noPage) :
    MapOutcome (mapTraversal hpages pfn h hlo) lo pfn t (mapMemory pages vfn pfn length t) := by
  have hvisited : (mapTraversal hpages pfn h hlo).Visited own ⟨t, []⟩ 4 0 (2 ^ 48) (fun _ => .root)
      (traverseLogged ⟨mapMemoryFound lo pfn, installTable pages⟩ lo (up % word) 4 .root 0 ⟨t, []⟩) := by
    apply Traversal.root_visited hok
    intro x h1 h2 y hy _ a hleaf
    have hnone := hclear x h1 h2
    rw [pageRadix.walk_leaf hy hleaf] at hnone
    cases hnone
  have htables := traverseLogged_tables ⟨mapMemoryFound lo pfn, installTable pages⟩ lo (up % word) 4
    .root 0 ⟨t, []⟩
  unfold mapMemory at halloc ⊢
  dsimp only at halloc ⊢
  rw [hvfn, hup, ← htables] at halloc ⊢
  cases hres : traverseLogged ⟨mapMemoryFound lo pfn, installTable pages⟩ lo (up % word) 4 .root 0
      ⟨t, []⟩ with
  | error a =>
      rw [hres] at hvisited halloc
      obtain rfl | ⟨x, _, hx, hnot⟩ := hvisited
      · exact (halloc rfl).elim
      · exact ⟨x, hx, hnot⟩
  | ok s =>
      rw [hres] at hvisited
      obtain ⟨hpass, own', new, hi, hret⟩ := hvisited
      obtain ⟨hcovers, hend⟩ := hret.end_eq h.stop_le
      refine ⟨rfl, fun x h1 h2 => hpass x (Nat.zero_le x) (h2.trans_le h.stop_le) h1 h2, hend ▸ hcovers,
        hend ▸ hret.le, fun x hx => ?_⟩
      have hrootEq : s.tables.root = t.root := hret.root hroot
      have htiles := hret.tiles
      rw [Nat.max_zero] at htiles
      rw [← hend]
      by_cases hin : (mapTraversal hpages pfn h hlo).first ≤ x ∧ x < hi
      · rw [if_pos hin]
        obtain ⟨v, hv, h1, h2⟩ := htiles.exists_mem hin.1 hin.2
        have hwalk := visited_walk hpages h hlo (hret.visit v hv) h1 h2
        rw [hrootEq] at hwalk
        exact hwalk
      · rw [if_neg hin]
        have hsame := hret.same x (Nat.zero_le x) hx (by rw [Nat.max_zero]; omega)
        have hread : s.tables.read .root = t.root := hrootEq
        rw [hread] at hsame
        exact hsame

end Call

/-! ## The ends of ranges -/

/-- The test for the 2 MB block (`size = 2 ^ 21`) or the page (`size = 2 ^ 12`) of an address.
Source: `sys/vmem.hpp` `traverse_page_table`
Kind: D -/
def TakesAt (lo up size a : ℕ) : Prop :=
  lo ≤ a / size * size ∧ (a / size * size + size) % word ≤ up % word

/-- The ranges whose end the tests get right: the end is that of a page and not in the last 2 MB, or
so is the start; or the end is in the last page; or the range is the last page or the last 2 MB.
Source: `sys/vmem.hpp` `traverse_page_table`
Kind: D -/
def GoodEnd (lo up : ℕ) : Prop :=
  (2 ^ 12 ∣ up ∧ (up ≤ 2 ^ 64 - 2 ^ 21 ∨ 2 ^ 64 - 2 ^ 21 < lo ∧ up < 2 ^ 64)) ∨
    (2 ^ 64 - 2 ^ 12 < up ∧ up < 2 ^ 64) ∨
    (up = 2 ^ 64 ∧ (lo = 2 ^ 64 - 2 ^ 21 ∨ lo = 2 ^ 64 - 2 ^ 12))

/-- The end of the last page that the range touches.
Source: `sys/pci.cpp` `pci_bar::map`
Kind: D -/
def pageEnd (up : ℕ) : ℕ := (up + 2 ^ 12 - 1) / 2 ^ 12 * 2 ^ 12

section Ends

variable {lo up a : ℕ}

/-- An end that the tests get right. Source: `sys/vmem.hpp` `traverse_page_table`. Kind: L -/
theorem GoodEnd.takes (h : GoodEnd lo up) (hlo : 2 ^ 12 ∣ lo) (h1 : lo ≤ a) (h2 : a < up) :
    TakesAt lo up (2 ^ 21) a ∨ TakesAt lo up (2 ^ 12) a := by
  unfold TakesAt word
  rcases h with ⟨hal, hend | ⟨hstart, hend⟩⟩ | ⟨hlast, hend⟩ | ⟨rfl, rfl | rfl⟩
  · right
    omega
  · right
    omega
  · right
    omega
  · left
    omega
  · right
    omega

/-- There the 2 MB blocks that pass the test are those wholly inside the pages of the range.
Source: `sys/vmem.hpp` `traverse_page_table`
Kind: L -/
theorem GoodEnd.takes_block_iff (h : GoodEnd lo up) (hlo : 2 ^ 12 ∣ lo) (h1 : lo ≤ a) (h2 : a < up) :
    TakesAt lo up (2 ^ 21) a ↔ WholeBlock lo (pageEnd up) (block2M a) := by
  unfold TakesAt WholeBlock pageEnd block2M word
  rcases h with ⟨hal, hend | ⟨hstart, hend⟩⟩ | ⟨hlast, hend⟩ | ⟨rfl, rfl | rfl⟩
  all_goals omega

/-- The last block that is found ends with the last page.
Source: `sys/vmem.hpp` `traverse_page_table`
Kind: L -/
theorem GoodEnd.end_eq (h : GoodEnd lo up) (hlo : 2 ^ 12 ∣ lo) (hlt : lo < up) :
    (TakesAt lo up (2 ^ 21) (up - 1) → (up - 1) / 2 ^ 21 * 2 ^ 21 + 2 ^ 21 = pageEnd up) ∧
      (up - 1) / 2 ^ 12 * 2 ^ 12 + 2 ^ 12 = pageEnd up := by
  constructor
  · intro htakes
    have hwhole := (h.takes_block_iff hlo (by omega) (by omega)).mp htakes
    unfold WholeBlock pageEnd block2M at *
    omega
  · unfold pageEnd
    omega

/-- Ranges whose first and last address pass a test, and whose last block is not too large, have such
an end.
Source: `sys/vmem.hpp` `traverse_page_table`
Kind: L -/
theorem goodEnd_of_takes (hlo : 2 ^ 12 ∣ lo) (hlt : lo < up) (hup : up ≤ 2 ^ 64)
    (hfirst : TakesAt lo up (2 ^ 21) lo ∨ TakesAt lo up (2 ^ 12) lo)
    (hlast : TakesAt lo up (2 ^ 21) (up - 1) ∨ TakesAt lo up (2 ^ 12) (up - 1))
    (hend : TakesAt lo up (2 ^ 21) (up - 1) → (up - 1) / 2 ^ 21 * 2 ^ 21 + 2 ^ 21 ≤ pageEnd up) :
    GoodEnd lo up := by
  obtain rfl | hup : up = 2 ^ 64 ∨ up < 2 ^ 64 := by omega
  · right; right
    refine ⟨rfl, ?_⟩
    unfold TakesAt word at hfirst
    omega
  · unfold GoodEnd
    by_cases htakes : TakesAt lo up (2 ^ 21) (up - 1)
    · have := hend htakes
      unfold TakesAt pageEnd word at *
      omega
    · have := hlast.resolve_left htakes
      unfold TakesAt word at *
      omega

end Ends

/-! ## Which ranges are mapped exactly -/

section Exact

variable {pages : ℕ → Option ℕ} {lo up off pfn x level : ℕ} {t t' : Tables} {own : Owner}

/-- Source: `sys/vmem.hpp` `canonical`. Kind: L -/
theorem InHalf.blockOf_add (h : InHalf lo up off) (hlevel : level < numPageSizes) (x : ℕ) :
    blockOf level x + off = (x + off) / 2 ^ (12 + level * 9) * 2 ^ (12 + level * 9) := by
  have hdvd : 2 ^ (12 + level * 9) ∣ off := by
    rcases h.half with ⟨rfl, _⟩ | ⟨rfl, _⟩
    · exact dvd_zero _
    · have hlarge : (2 : ℕ) ^ (12 + level * 9) ∣ 2 ^ 21 := by
        unfold numPageSizes at hlevel
        exact Nat.pow_dvd_pow 2 (by omega)
      exact hlarge.trans (by decide)
  obtain ⟨q, rfl⟩ := hdvd
  unfold blockOf
  rw [pageRadix_width, Nat.add_mul_div_left _ _ (Nat.two_pow_pos _), Nat.add_mul,
    Nat.mul_comm q]

/-- The test by addresses. Source: `sys/vmem.hpp` `traverse_page_table`. Kind: L -/
theorem map_takes_iff (hpages : FreshPages pages) (h : InHalf lo up off) (hlo : 2 ^ 12 ∣ lo)
    (hlevel : level < numPageSizes) (h1 : lo ≤ x + off) (h2 : x + off < up) :
    (mapTraversal hpages pfn h hlo).Takes level (blockOf level x)
      ↔ TakesAt lo up (2 ^ (12 + level * 9)) (x + off) := by
  unfold Traversal.Takes TakesAt
  rw [h.canonical_block hlevel h1 h2, h.blockOf_add hlevel, pageRadix_width]
  exact and_iff_right hlevel

/-- Source: `sys/vmem.hpp` `traverse_page_table`. Kind: L -/
theorem map_foundLevel (pfn : ℕ) (hpages : FreshPages pages) (h : InHalf lo up off) (hlo : 2 ^ 12 ∣ lo)
    (h1 : lo ≤ x + off) (h2 : x + off < up) :
    (TakesAt lo up (2 ^ 21) (x + off) → (mapTraversal hpages pfn h hlo).foundLevel x = 1) ∧
      (¬ TakesAt lo up (2 ^ 21) (x + off) → (mapTraversal hpages pfn h hlo).foundLevel x = 0) := by
  have hiff : (mapTraversal hpages pfn h hlo).Takes 1 (blockOf 1 x)
      ↔ TakesAt lo up (2 ^ 21) (x + off) := map_takes_iff hpages h hlo (by decide) h1 h2
  unfold Traversal.foundLevel
  exact ⟨fun ht => if_pos (hiff.mpr ht), fun ht => if_neg fun htakes => ht (hiff.mp htakes)⟩

/-- No table of pages stands for the 2 MB block at the address: its level 1 entry, if the tables have
one, does not point to a table.
Source: `sys/vmem.cpp` `map_memory`
Kind: D -/
def BlockFree (t : Tables) (b : ℕ) : Prop :=
  ∀ y ∈ pageRadix.trace pteView t.mem 4 t.root b, y.1 = 1 → (pteView 1 y.2).isTable = false

/-- The entries that an address passes are those of its position. Source: none: infrastructure.
Kind: L -/
theorem InHalf.trace_add (h : InHalf lo up off) (x : ℕ) :
    pageRadix.trace pteView t.mem 4 t.root (x + off)
      = pageRadix.trace pteView t.mem 4 t.root x := by
  have hmod : (x + off) % 2 ^ 48 = x % 2 ^ 48 := by
    rcases h.half with ⟨rfl, _⟩ | ⟨rfl, _⟩ <;> omega
  exact pageRadix.trace_congr fun k hk => digit_congr (by omega) hmod

/-- Where nothing is mapped, an entry that is no pointer to a table is not present.
Source: `sys/vmem.hpp` `pte::present`
Kind: L -/
theorem not_present_of_clear {y : ℕ × ℕ} (hnone : pageRadix.walk pteView t.mem 4 t.root x = none)
    (hy : y ∈ pageRadix.trace pteView t.mem 4 t.root x) (htable : (pteView y.1 y.2).isTable = false) :
    ¬ Pte.present y.2 = true := by
  cases hv : pteView y.1 y.2 with
  | absent => simpa using pteView_absent.mp hv
  | leaf a =>
      rw [pageRadix.walk_leaf hy hv] at hnone
      cases hnone
  | table pt =>
      rw [hv] at htable
      cases htable

/-- The lowest level has no pointers. Source: `sys/vmem.hpp` `pte`. Kind: L -/
theorem pteView_zero_isTable (raw : ℕ) : (pteView 0 raw).isTable = false := by
  unfold pteView
  split
  · rfl
  · rw [if_pos (Or.inl rfl)]
    rfl

/-- The call gets past the addresses of a range with a good end and with whole blocks that are free.
Source: `sys/vmem.cpp` `map_memory`
Kind: L -/
theorem map_passable (hpages : FreshPages pages) (h : InHalf lo up off) (hlo : 2 ^ 12 ∣ lo)
    (hend : GoodEnd lo up)
    (hfree : ∀ b, 2 ^ 21 ∣ b → WholeBlock lo (pageEnd up) b → BlockFree t b)
    (hnone : pageRadix.walk pteView t.mem 4 t.root x = none) (h1 : lo ≤ x + off) (h2 : x + off < up) :
    (mapTraversal hpages pfn h hlo).Passable t 4 t.root x := by
  obtain ⟨hone, hzero⟩ := map_foundLevel pfn hpages h hlo h1 h2
  by_cases htakes : TakesAt lo up (2 ^ 21) (x + off)
  · have hlevel := hone htakes
    refine ⟨?_, fun y hy hyl => not_present_of_clear hnone hy ?_⟩
    · rw [hlevel]
      exact (map_takes_iff hpages h hlo (by decide) h1 h2).mpr htakes
    · rw [hlevel] at hyl
      have hwhole := (hend.takes_block_iff hlo h1 h2).mp htakes
      have hfree := hfree (block2M (x + off)) (Nat.dvd_mul_left _ _) hwhole y
      rw [h.block2M_add, h.trace_add] at hfree
      rw [hyl]
      refine hfree ?_ hyl
      have hal : pageRadix.width 1 ∣ blockOf 1 x := Nat.dvd_mul_left _ _
      have hin : pageRadix.InBlock 1 (blockOf 1 x) x :=
        ⟨Nat.div_mul_le_self _ _, Nat.lt_div_mul_add (pageRadix.width_pos 1)⟩
      exact pageRadix.mem_trace_congr (fun k hk => pageRadix.digit_block hk hal hin) hy hyl.ge
  · have hlevel := hzero htakes
    refine ⟨?_, fun y hy hyl => not_present_of_clear hnone hy ?_⟩
    · rw [hlevel]
      exact (map_takes_iff hpages h hlo (by decide) h1 h2).mpr
        ((hend.takes hlo h1 h2).resolve_left htakes)
    · rw [hlevel] at hyl
      rw [hyl]
      exact pteView_zero_isTable y.2

/-- What the last block ends at. Source: `sys/vmem.hpp` `traverse_page_table`. Kind: L -/
theorem map_visitedEnd (pfn : ℕ) (hpages : FreshPages pages) (h : InHalf lo up off) (hlo : 2 ^ 12 ∣ lo) :
    (TakesAt lo up (2 ^ 21) (up - 1) → (mapTraversal hpages pfn h hlo).visitedEnd + off
        = (up - 1) / 2 ^ 21 * 2 ^ 21 + 2 ^ 21) ∧
      (¬ TakesAt lo up (2 ^ 21) (up - 1) → (mapTraversal hpages pfn h hlo).visitedEnd + off
        = (up - 1) / 2 ^ 12 * 2 ^ 12 + 2 ^ 12) := by
  have hlt := h.lt
  have hoff := h.off_le
  have hlast : up - off - 1 + off = up - 1 := by omega
  obtain ⟨hone, hzero⟩ := map_foundLevel (x := up - off - 1) pfn hpages h hlo (by omega)
    (by omega)
  rw [hlast] at hone hzero
  have hstop : (mapTraversal hpages pfn h hlo).stop - 1 = up - off - 1 := rfl
  have hend : ∀ level, level < numPageSizes → (mapTraversal hpages pfn h hlo).foundLevel (up - off - 1)
      = level → (mapTraversal hpages pfn h hlo).visitedEnd + off
        = (up - 1) / 2 ^ (12 + level * 9) * 2 ^ (12 + level * 9) + 2 ^ (12 + level * 9) := by
    intro level hlevel heq
    unfold Traversal.visitedEnd
    rw [hstop, heq, Nat.add_right_comm, h.blockOf_add hlevel, pageRadix_width, hlast]
  exact ⟨fun ht => hend 1 (by decide) (hone ht), fun ht => hend 0 (by decide) (hzero ht)⟩

/-! ### Addresses -/

/-- Source: `sys/vmem.hpp` `canonical`. Kind: L -/
theorem canonical_self {va : ℕ} (h : canonical va = va) :
    va < 2 ^ 47 ∨ 2 ^ 64 - 2 ^ 47 ≤ va ∧ va < 2 ^ 64 := by
  have hmod : canonical va = canonical (va % 2 ^ 48) :=
    canonical_congr (Nat.mod_mod _ _).symm
  rcases canonical_halves (Nat.mod_lt va (show 0 < 2 ^ 48 by norm_num)) with ⟨_, heq⟩ | ⟨_, heq⟩ <;>
    omega

/-- A range of canonical addresses lies in one half. Source: `sys/vmem.hpp` `canonical`. Kind: L -/
theorem half_of_canonical (hlt : lo < up) (h : ∀ va, lo ≤ va → va < up → canonical va = va) :
    ∃ off, InHalf lo up off := by
  have hlo := canonical_self (h lo le_rfl hlt)
  have hup := canonical_self (h (up - 1) (by omega) (by omega))
  rcases hlo with hlo | hlo
  · refine ⟨0, hlt, Or.inl ⟨rfl, ?_⟩⟩
    by_contra hover
    have := canonical_self (h (2 ^ 47) (by omega) (by omega))
    omega
  · exact ⟨_, hlt, Or.inr ⟨rfl, hlo.1, by omega⟩⟩

/-- The addresses of a range are canonical. Source: `sys/vmem.hpp` `canonical`. Kind: L -/
theorem InHalf.canonical_mem (h : InHalf lo up off) (va : ℕ) (h1 : lo ≤ va) (h2 : va < up) :
    canonical va = va ∧ va % 2 ^ 48 = va - off ∧ va - off + off = va := by
  have hoff : va - off + off = va := Nat.sub_add_cancel (h.off_le.trans h1)
  refine ⟨?_, ?_, hoff⟩
  · have := h.canonical_add (x := va - off) (by omega) (by omega)
    rw [hoff] at this
    rcases h.half with ⟨rfl, _⟩ | ⟨rfl, _⟩
    · exact canonical_eq (by omega)
    · rw [← this]
      exact canonical_congr (by omega)
  · rcases h.half with ⟨rfl, _⟩ | ⟨rfl, _⟩ <;> omega

/-- A canonical address is in a range if its position is. Source: `sys/vmem.hpp` `canonical`. Kind: L -/
theorem InHalf.mem_iff (h : InHalf lo up off) {va : ℕ} (hva : canonical va = va) :
    lo - off ≤ va % 2 ^ 48 ∧ va % 2 ^ 48 < up - off ↔ lo ≤ va ∧ va < up := by
  have := h.lt
  rcases canonical_self hva with hva | hva <;> rcases h.half with ⟨rfl, _⟩ | ⟨rfl, _⟩ <;> omega

/-- Where no page is mapped the walk of the position finds nothing.
Source: `sys/vmem.cpp` `map_memory`
Kind: L -/
theorem InHalf.clear (h : InHalf lo up off) (hroot : Pte.present t.root = true)
    (hunmapped : ∀ va, lo ≤ va → va < up → ¬ Mapped t va) (h1 : lo - off ≤ x) (h2 : x < up - off) :
    pageRadix.walk pteView t.mem 4 t.root x = none := by
  obtain ⟨hcan, hpos, _⟩ := h.canonical_mem (x + off) (by omega) (by omega)
  have hnot := hunmapped (x + off) (by omega) (by omega)
  unfold Mapped at hnot
  rw [x86Leaf_eq hroot hcan, hpos, Nat.add_sub_cancel] at hnot
  exact Option.not_isSome_iff_eq_none.mp hnot

/-- The end of the last block that is found is in the same half.
Source: `sys/vmem.hpp` `traverse_page_table`
Kind: L -/
theorem map_end_inHalf (pfn : ℕ) (hpages : FreshPages pages) (h : InHalf lo up off) (hlo : 2 ^ 12 ∣ lo) :
    InHalf lo ((mapTraversal hpages pfn h hlo).visitedEnd + off) off := by
  have hlt := h.lt
  obtain ⟨hlarge, hsmall⟩ := map_visitedEnd pfn hpages h hlo
  by_cases htakes : TakesAt lo up (2 ^ 21) (up - 1)
  · have := hlarge htakes
    refine ⟨by omega, ?_⟩
    have := h.half
    omega
  · have := hsmall htakes
    refine ⟨by omega, ?_⟩
    have := h.half
    omega

/-- **What a call that returns makes of an address.** Source: `sys/vmem.cpp` `map_memory`. Kind: P -/
theorem map_leaf (hpages : FreshPages pages) (h : InHalf lo up off) (hlo : 2 ^ 12 ∣ lo)
    (hroot : Pte.present t.root = true)
    (hout : MapOutcome (mapTraversal hpages pfn h hlo) lo pfn t (.ok t')) (va : ℕ) :
    x86Leaf t' va = if lo ≤ va ∧ va < (mapTraversal hpages pfn h hlo).visitedEnd + off
      then some (mappedLeaf (mapTraversal hpages pfn h hlo) lo pfn (va - off)) else x86Leaf t va := by
  obtain ⟨hrootEq, _, _, _, hwalk⟩ := hout
  have hend := map_end_inHalf pfn hpages h hlo
  by_cases hva : canonical va = va
  · have hroot' : Pte.present t'.root = true := by
      rw [hrootEq]
      exact hroot
    have hiff : (mapTraversal hpages pfn h hlo).first ≤ va % 2 ^ 48 ∧
        va % 2 ^ 48 < (mapTraversal hpages pfn h hlo).visitedEnd ↔
        lo ≤ va ∧ va < (mapTraversal hpages pfn h hlo).visitedEnd + off := by
      have := hend.mem_iff hva
      rw [Nat.add_sub_cancel] at this
      exact this
    rw [x86Leaf_eq hroot' hva, x86Leaf_eq hroot hva, hrootEq, hwalk _ (Nat.mod_lt _ (by norm_num))]
    by_cases hin : lo ≤ va ∧ va < (mapTraversal hpages pfn h hlo).visitedEnd + off
    · rw [if_pos hin, if_pos (hiff.mpr hin), (hend.canonical_mem va hin.1 hin.2).2.1]
    · rw [if_neg hin, if_neg fun hcon => hin (hiff.mp hcon)]
  · rw [x86Leaf_of_not_canonical hva, x86Leaf_of_not_canonical hva, if_neg]
    exact fun hin => hva (hend.canonical_mem va hin.1 hin.2).1

/-! ### What follows from a call that returns -/

/-- Source: `sys/vmem.hpp` `traverse_page_table`. Kind: L -/
theorem takesAt_of_passable (hpages : FreshPages pages) (h : InHalf lo up off) (hlo : 2 ^ 12 ∣ lo)
    (hpass : (mapTraversal hpages pfn h hlo).Passable t 4 t.root x) (h1 : lo ≤ x + off)
    (h2 : x + off < up) : TakesAt lo up (2 ^ 21) (x + off) ∨ TakesAt lo up (2 ^ 12) (x + off) := by
  have htaken := hpass.taken
  by_cases htakes : TakesAt lo up (2 ^ 21) (x + off)
  · exact Or.inl htakes
  · rw [(map_foundLevel pfn hpages h hlo h1 h2).2 htakes] at htaken
    exact Or.inr ((map_takes_iff hpages h hlo (by decide) h1 h2).mp htaken)

/-- Nothing was mapped in the last block that is found. Source: `sys/vmem.cpp` `map_memory`. Kind: L -/
theorem map_clear (hpages : FreshPages pages) (h : InHalf lo up off) (hlo : 2 ^ 12 ∣ lo)
    (hroot : Pte.present t.root = true)
    (hpass : (mapTraversal hpages pfn h hlo).Passable t 4 t.root (up - off - 1))
    (hnone : pageRadix.walk pteView t.mem 4 t.root (up - off - 1) = none) {va : ℕ} (h1 : up - 1 ≤ va)
    (h2 : va < (mapTraversal hpages pfn h hlo).visitedEnd + off) : x86Leaf t va = none := by
  have hlt := h.lt
  have hle := h.off_le
  obtain ⟨hcan, hpos, hoff⟩ := (map_end_inHalf pfn hpages h hlo).canonical_mem va (by omega) h2
  rw [x86Leaf_eq hroot hcan, hpos]
  obtain ⟨k, hk⟩ : ∃ k, k = (mapTraversal hpages pfn h hlo).foundLevel (up - off - 1) := ⟨_, rfl⟩
  have hal : pageRadix.width k ∣ blockOf k (up - off - 1) := Nat.dvd_mul_left _ _
  have hin : pageRadix.InBlock k (blockOf k (up - off - 1)) (up - off - 1) :=
    ⟨Nat.div_mul_le_self _ _, Nat.lt_div_mul_add (pageRadix.width_pos k)⟩
  have hin' : pageRadix.InBlock k (blockOf k (up - off - 1)) (va - off) := by
    have hend : (mapTraversal hpages pfn h hlo).visitedEnd
        = blockOf k (up - off - 1) + pageRadix.width k := by
      rw [hk]
      rfl
    have := hin.1
    exact ⟨by omega, by omega⟩
  -- the walk of the last position ends in nothing at the level of the block or above
  obtain ⟨y, hy, hyk, habsent⟩ : ∃ y ∈ pageRadix.trace pteView t.mem 4 t.root (up - off - 1),
      k ≤ y.1 ∧ pteView y.1 y.2 = .absent := by
    have hk4 : k ≤ 4 := by
      have htaken : k < 2 := by
        rw [hk]
        exact hpass.taken.1
      omega
    rcases pageRadix.exists_level_or_absent hk4 hnone with ⟨y, hy, hyk⟩ | ⟨y, hy, hyk, habsent⟩
    · refine ⟨y, hy, hyk.ge, pteView_absent.mpr ?_⟩
      have hnot : ¬ Pte.present y.2 = true := hpass.accepted y hy (hyk.trans hk)
      simpa using hnot
    · exact ⟨y, hy, hyk.le, habsent⟩
  apply pageRadix.walk_absent _ habsent
  exact pageRadix.mem_trace_congr (fun j hj => (pageRadix.digit_block hj hal hin).trans
    (pageRadix.digit_block hj hal hin').symm) hy hyk

/-- A range that is got past, with a last block that is not too large, has a good end.
Source: `sys/vmem.hpp` `traverse_page_table`
Kind: L -/
theorem map_goodEnd (hpages : FreshPages pages) (h : InHalf lo up off) (hlo : 2 ^ 12 ∣ lo)
    (hpass : ∀ x, lo - off ≤ x → x < up - off →
      (mapTraversal hpages pfn h hlo).Passable t 4 t.root x)
    (hend : (mapTraversal hpages pfn h hlo).visitedEnd + off ≤ pageEnd up) : GoodEnd lo up := by
  have hlt := h.lt
  have hle := h.off_le
  have hup : up ≤ 2 ^ 64 := by
    have := h.half
    omega
  have hfirst : lo - off + off = lo := Nat.sub_add_cancel hle
  have hlast : up - off - 1 + off = up - 1 := by omega
  have htake : ∀ x, lo - off ≤ x → x < up - off →
      TakesAt lo up (2 ^ 21) (x + off) ∨ TakesAt lo up (2 ^ 12) (x + off) := fun x h1 h2 =>
    takesAt_of_passable hpages h hlo (hpass x h1 h2) (by omega) (by omega)
  apply goodEnd_of_takes hlo hlt hup
  · have hfirstTakes := htake (lo - off) le_rfl h.first_lt
    rw [hfirst] at hfirstTakes
    exact hfirstTakes
  · have hlastTakes := htake (up - off - 1) (by omega) (by omega)
    rw [hlast] at hlastTakes
    exact hlastTakes
  · intro htakes
    rw [← (map_visitedEnd pfn hpages h hlo).1 htakes]
    exact hend

/-- The 2 MB blocks wholly inside a range that is got past are free.
Source: `sys/vmem.cpp` `map_memory`
Kind: L -/
theorem map_blockFree (hpages : FreshPages pages) (h : InHalf lo up off) (hlo : 2 ^ 12 ∣ lo)
    (hpass : ∀ x, lo - off ≤ x → x < up - off →
      (mapTraversal hpages pfn h hlo).Passable t 4 t.root x) (hend : GoodEnd lo up) {b : ℕ}
    (hb : 2 ^ 21 ∣ b) (hwhole : WholeBlock lo (pageEnd up) b) : BlockFree t b := by
  have hle := h.off_le
  have hin : lo ≤ b ∧ b < up := by
    unfold WholeBlock pageEnd at hwhole
    omega
  have hoff : b - off + off = b := Nat.sub_add_cancel (hle.trans hin.1)
  have hblock : block2M b = b := Nat.div_mul_cancel hb
  have htakes : TakesAt lo up (2 ^ 21) (b - off + off) := by
    rw [hoff]
    apply (hend.takes_block_iff hlo hin.1 hin.2).mpr
    rw [hblock]
    exact hwhole
  have hlevel := (map_foundLevel pfn hpages h hlo (by omega) (by omega)).1 htakes
  intro y hy hy1
  rw [← hoff, h.trace_add] at hy
  have hnot : ¬ Pte.present y.2 = true :=
    (hpass (b - off) (by omega) (by omega)).accepted y hy (by rw [hlevel, hy1])
  have habsent : pteView 1 y.2 = .absent := pteView_absent.mpr (by simpa using hnot)
  rw [habsent]
  rfl

end Exact

/-! ## The pages that are mapped -/

/-- The number of pages that `length` addresses touch.
Source: `sys/pci.cpp` `pci_bar::map`
Kind: D -/
def pageCount (length : ℕ) : ℕ := (length + pageSize - 1) / pageSize

/-- The call returns, and the pages from `vfn` on that `length` touches are mapped, and no other that
was not.
Source: `sys/vmem.cpp` `map_memory`
Kind: D -/
def MapsPages (vfn length : ℕ) (t : Tables) : Except Abort Tables → Prop
  | .error _ => False
  | .ok t' => ∀ va, Mapped t' va ↔
      Mapped t va ∨ pfnToAddr vfn ≤ va ∧ va < pfnToAddr vfn + pageCount length * pageSize

/-- The range lies in one half, its end is good, and no 2 MB block wholly inside its pages has a table.
Source: `sys/vmem.hpp` `traverse_page_table`
Kind: D -/
def Mappable (vfn length : ℕ) (t : Tables) : Prop :=
  (pfnToAddr vfn + length ≤ 2 ^ 47 ∨
    2 ^ 64 - 2 ^ 47 ≤ pfnToAddr vfn ∧ pfnToAddr vfn + length ≤ 2 ^ 64) ∧
  GoodEnd (pfnToAddr vfn) (pfnToAddr vfn + length) ∧
  ∀ b, 2 ^ 21 ∣ b → WholeBlock (pfnToAddr vfn) (pageEnd (pfnToAddr vfn + length)) b → BlockFree t b

section Pages

variable {pages : ℕ → Option ℕ} {vfn pfn length off : ℕ} {t t' : Tables}

/-- Source: `sys/pci.cpp` `pci_bar::map`. Kind: L -/
theorem pageEnd_add (vfn length : ℕ) :
    pageEnd (pfnToAddr vfn + length) = pfnToAddr vfn + pageCount length * pageSize := by
  have := dvd_pfnToAddr vfn
  unfold pageEnd pageCount
  rw [pageSize_eq]
  omega

/-- Source: `sys/pci.cpp` `pci_bar::map`. Kind: L -/
theorem le_pageEnd (up : ℕ) : up ≤ pageEnd up := by
  unfold pageEnd
  omega

/-- A range in one half with a good end is mapped to the end of its last page.
Source: `sys/vmem.cpp` `map_memory`
Kind: L -/
theorem map_end_eq {lo up : ℕ} (pfn : ℕ) (hpages : FreshPages pages) (h : InHalf lo up off)
    (hlo : 2 ^ 12 ∣ lo) (hend : GoodEnd lo up) :
    (mapTraversal hpages pfn h hlo).visitedEnd + off = pageEnd up := by
  obtain ⟨hlarge, hsmall⟩ := map_visitedEnd pfn hpages h hlo
  obtain ⟨hlargeEnd, hsmallEnd⟩ := hend.end_eq hlo h.lt
  by_cases htakes : TakesAt lo up (2 ^ 21) (up - 1)
  · exact (hlarge htakes).trans (hlargeEnd htakes)
  · exact (hsmall htakes).trans hsmallEnd

/-- Where the range is mappable the call returns. Source: `sys/vmem.cpp` `map_memory`. Kind: P -/
theorem map_returns {lo up : ℕ} {own : Owner} (hvfn : pfnToAddr vfn = lo) (hup : lo + length = up)
    (hpages : FreshPages pages) (h : InHalf lo up off) (hlo : 2 ^ 12 ∣ lo)
    (hok : TablesOk pages AnyLeaf own t) (hroot : Pte.present t.root = true)
    (hclear : ∀ x, lo - off ≤ x → x < up - off →
      pageRadix.walk pteView t.mem 4 t.root x = none)
    (halloc : mapMemory pages vfn pfn length t ≠ .error .noPage) (hend : GoodEnd lo up)
    (hfree : ∀ b, 2 ^ 21 ∣ b → WholeBlock lo (pageEnd up) b → BlockFree t b) :
    ∃ t', mapMemory pages vfn pfn length t = .ok t' ∧ ∀ va, x86Leaf t' va =
      if lo ≤ va ∧ va < pageEnd up
      then some (mappedLeaf (mapTraversal hpages pfn h hlo) lo pfn (va - off)) else x86Leaf t va := by
  have hout := mapMemory_outcome hpages h hlo hvfn hup hok hroot hclear halloc
  cases hres : mapMemory pages vfn pfn length t with
  | error a =>
      rw [hres] at hout
      obtain ⟨x, hx, hnot⟩ := hout
      have hle := h.off_le
      have h1 : lo - off ≤ x := hx.1
      have h2 : x < up - off := hx.2
      exact (hnot (map_passable hpages h hlo hend hfree (hclear x h1 h2) (by omega) (by omega))).elim
  | ok t' =>
      rw [hres] at hout
      refine ⟨t', rfl, fun va => ?_⟩
      rw [← map_end_eq pfn hpages h hlo hend]
      exact map_leaf hpages h hlo hroot hout va

/-- **`map_memory` maps the pages of the range, and no other, exactly when it is mappable**: the range
lies in one half, every page that is not in a 2 MB block that is found passes the test of level 0 and
no block is found that is too large (`GoodEnd`), and the 2 MB blocks wholly inside it have no table.
Source: `sys/vmem.cpp` `map_memory`
Kind: C
Hyps: `htree`, `hunmapped`: tables in which nothing of the range is mapped; `halloc`: `Alloc` has the pages
that are asked for -/
theorem mapMemory_maps_exactlyWhen (pages : ℕ → Option ℕ) (vfn pfn length : ℕ) (t : Tables)
    (hpages : FreshPages pages) (htree : RuntimeTree pages t) (hlength : 1 ≤ length)
    (hunmapped : ∀ va, pfnToAddr vfn ≤ va → va < pfnToAddr vfn + pageCount length * pageSize →
      ¬ Mapped t va)
    (halloc : mapMemory pages vfn pfn length t ≠ .error .noPage) :
    MapsPages vfn length t (mapMemory pages vfn pfn length t) ↔ Mappable vfn length t := by
  obtain ⟨⟨own, hok⟩, hroot⟩ := htree
  have hlo := dvd_pfnToAddr vfn
  rw [← pageEnd_add] at hunmapped
  have hle := le_pageEnd (pfnToAddr vfn + length)
  constructor
  · intro hmaps
    cases hres : mapMemory pages vfn pfn length t with
    | error a =>
        rw [hres] at hmaps
        exact hmaps.elim
    | ok t' =>
        rw [hres] at hmaps
        unfold MapsPages at hmaps
        rw [← pageEnd_add] at hmaps
        obtain ⟨off, hpageHalf⟩ : ∃ off, InHalf (pfnToAddr vfn) (pageEnd (pfnToAddr vfn + length)) off := by
          refine half_of_canonical (by omega) fun va h1 h2 => ?_
          have hmapped := (hmaps va).mpr (Or.inr ⟨h1, h2⟩)
          by_contra hva
          unfold Mapped at hmapped
          rw [x86Leaf_of_not_canonical hva] at hmapped
          cases hmapped
        have h : InHalf (pfnToAddr vfn) (pfnToAddr vfn + length) off :=
          ⟨by omega, by have := hpageHalf.half; omega⟩
        have hclear : ∀ x, pfnToAddr vfn - off ≤ x → x < pfnToAddr vfn + length - off →
            pageRadix.walk pteView t.mem 4 t.root x = none := fun x h1 h2 =>
          h.clear hroot (fun va h3 h4 => hunmapped va h3 (h4.trans_le hle)) h1 h2
        have hout := mapMemory_outcome hpages h hlo rfl rfl hok hroot hclear halloc
        rw [hres] at hout
        have hpass : ∀ x, pfnToAddr vfn - off ≤ x → x < pfnToAddr vfn + length - off →
            (mapTraversal hpages pfn h hlo).Passable t 4 t.root x := hout.2.1
        have hlast : (mapTraversal hpages pfn h hlo).visitedEnd + off
            ≤ pageEnd (pfnToAddr vfn + length) := by
          by_contra hover
          have hleaf := map_leaf hpages h hlo hroot hout (pageEnd (pfnToAddr vfn + length))
          rw [if_pos ⟨by omega, by omega⟩] at hleaf
          have hstop := h.first_lt
          have hnone := map_clear hpages h hlo hroot (hpass _ (by omega) (by omega))
            (hclear _ (by omega) (by omega))
            (show pfnToAddr vfn + length - 1 ≤ pageEnd (pfnToAddr vfn + length) by omega) (by omega)
          have hmapped := (hmaps (pageEnd (pfnToAddr vfn + length))).mp (by
            unfold Mapped
            rw [hleaf]
            rfl)
          unfold Mapped at hmapped
          rw [hnone] at hmapped
          rcases hmapped with hcon | hcon
          · cases hcon
          · omega
        have hend := map_goodEnd hpages h hlo hpass hlast
        exact ⟨by have := h.half; omega, hend, fun b hb hwhole =>
          map_blockFree hpages h hlo hpass hend hb hwhole⟩
  · rintro ⟨hhalf, hend, hfree⟩
    obtain ⟨off, h⟩ : ∃ off, InHalf (pfnToAddr vfn) (pfnToAddr vfn + length) off := by
      rcases hhalf with hhalf | hhalf
      · exact ⟨0, by omega, Or.inl ⟨rfl, hhalf⟩⟩
      · exact ⟨_, by omega, Or.inr ⟨rfl, hhalf⟩⟩
    obtain ⟨t', hres, hleaf⟩ := map_returns rfl rfl hpages h hlo hok hroot
      (fun x h1 h2 => h.clear hroot (fun va h3 h4 => hunmapped va h3 (h4.trans_le hle)) h1 h2) halloc
      hend hfree
    rw [hres]
    unfold MapsPages
    rw [← pageEnd_add]
    intro va
    unfold Mapped
    rw [hleaf va]
    by_cases hin : pfnToAddr vfn ≤ va ∧ va < pageEnd (pfnToAddr vfn + length)
    · rw [if_pos hin]
      exact ⟨fun _ => Or.inr hin, fun _ => rfl⟩
    · rw [if_neg hin]
      exact ⟨Or.inl, fun hor => hor.resolve_right hin⟩

end Pages

/-! ## A tree without entries -/

/-- A table at the address 0x1000 with no entries.
Source: none: infrastructure
Kind: D -/
def bareTree : Tables := ⟨Pte.setNormal 0x1000, fun _ _ => 0, 0, []⟩

/-- Source: none: infrastructure. Kind: L -/
theorem bareTree_root : pteView 4 bareTree.root = .table 0x1000 :=
  pteView_setNormal (by decide) (by decide)

/-- It is a tree for every stream without its page. Source: none: infrastructure. Kind: L -/
theorem bareTree_isTree {pages : ℕ → Option ℕ}
    (h : ∀ n page, pages n = some page → pfnToAddr page ≠ 0x1000) : IsTree pages bareTree := by
  have hown : ∀ p x, (if p = 0x1000 then some ((3, 0) : ℕ × ℕ) else none) = some x → x = (3, 0) := by
    intro p x h
    split at h
    · exact (Option.some.inj h).symm
    · cases h
  refine ⟨fun p => if p = 0x1000 then some (3, 0) else none, ⟨?_, ?_⟩, ?_, ?_⟩
  · intro p k b h
    cases hown p _ h
    exact dvd_zero _
  · intro p k b h idx _
    show EntryOk _ AnyLeaf k _ (pteView k 0)
    rw [pteView_zero]
    trivial
  · rw [bareTree_root]
    exact ⟨3, rfl, rfl⟩
  · exact fun n page _ hpage => if_neg (h n page hpage)

/-- Source: none: infrastructure. Kind: L -/
theorem bareTree_runtime : RuntimeTree firstPages bareTree := by
  refine ⟨bareTree_isTree fun n page hpage => ?_, by decide⟩
  have hlt := freshPages_firstPages.2 _ _ hpage
  unfold firstPages at hpage
  split at hpage
  · have hpage := Option.some.inj hpage
    rw [pfnToAddr_eq hlt]
    omega
  · cases hpage

/-- Source: none: infrastructure. Kind: L -/
theorem bareTree_trace (va : ℕ) :
    pageRadix.trace pteView bareTree.mem 4 bareTree.root va = [(4, bareTree.root), (3, 0)] := by
  have hslot : bareTree.mem 0x1000 (pageRadix.digit 3 va) = 0 := rfl
  rw [pageRadix.trace_table bareTree_root, hslot, pageRadix.trace_end (pteView_zero_ne_table 3)]

/-- Source: none: infrastructure. Kind: L -/
theorem bareTree_not_mapped (va : ℕ) : ¬ Mapped bareTree va := by
  unfold Mapped
  by_cases hva : canonical va = va
  · have hmem : ((3, 0) : ℕ × ℕ) ∈ pageRadix.trace pteView bareTree.mem 4 bareTree.root (va % 2 ^ 48) := by
      rw [bareTree_trace]
      simp
    rw [x86Leaf_eq (by decide) hva, pageRadix.walk_absent hmem (pteView_zero 3)]
    simp
  · rw [x86Leaf_of_not_canonical hva]
    simp

/-- Source: none: infrastructure. Kind: L -/
theorem bareTree_blockFree (b : ℕ) : BlockFree bareTree b := by
  intro y hy h1
  rw [bareTree_trace] at hy
  simp only [List.mem_cons, List.not_mem_nil, or_false] at hy
  rcases hy with rfl | rfl <;> cases h1

/-- A call with a result that is known not to be for lack of a page.
Source: none: infrastructure
Kind: L -/
theorem ne_noPage_of_stopOf {res : Except Abort Tables} {o : Option Abort} (h : stopOf res = o)
    (ho : o ≠ some .noPage) : res ≠ .error .noPage := by
  rintro rfl
  exact ho h.symm

/-- The last page below a 2 MB block, the block, and the page above it are mapped.
Source: `sys/vmem.cpp` `map_memory`
Kind: C -/
theorem mapMemory_maps_exactlyWhen_around :
    MapsPages 0x1ff 0x202000 bareTree (mapMemory firstPages 0x1ff 0x345 0x202000 bareTree) := by
  have hstop : stopOf (mapMemory firstPages 0x1ff 0x345 0x202000 bareTree) = none := by
    decide +kernel
  exact (mapMemory_maps_exactlyWhen firstPages 0x1ff 0x345 0x202000 bareTree freshPages_firstPages
    bareTree_runtime (by decide) (fun va _ _ => bareTree_not_mapped va)
    (ne_noPage_of_stopOf hstop (by decide))).mpr
    ⟨Or.inl (by decide), Or.inl ⟨by decide, Or.inl (by decide)⟩, fun b _ _ => bareTree_blockFree b⟩

/-- A region of 256 bytes, as the registers of a device may be: the traversal goes below level 0.
Source: `sys/pci.cpp` `pci_bar::map`
Kind: C -/
theorem mapMemory_maps_not_always :
    ¬ ∀ (pages : ℕ → Option ℕ) (vfn pfn length : ℕ) (t : Tables), FreshPages pages →
      RuntimeTree pages t → 1 ≤ length →
      (∀ va, pfnToAddr vfn ≤ va → va < pfnToAddr vfn + pageCount length * pageSize → ¬ Mapped t va) →
      mapMemory pages vfn pfn length t ≠ .error .noPage →
        MapsPages vfn length t (mapMemory pages vfn pfn length t) := by
  intro hall
  have hstop : stopOf (mapMemory firstPages 0xffff800000000 0xfebd1 0x100 bareTree)
      = some .undefined := by
    decide +kernel
  have hmaps := hall firstPages 0xffff800000000 0xfebd1 0x100 bareTree freshPages_firstPages
    bareTree_runtime (by decide) (fun va _ _ => bareTree_not_mapped va)
    (ne_noPage_of_stopOf hstop (by decide))
  cases hres : mapMemory firstPages 0xffff800000000 0xfebd1 0x100 bareTree with
  | error a =>
      rw [hres] at hmaps
      exact hmaps
  | ok t' =>
      rw [hres] at hstop
      cases hstop

end EbbRT
