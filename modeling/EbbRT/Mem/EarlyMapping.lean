import EbbRT.Mem.PageTableTraverse

/-!
# Runs of early mapping and unmapping

`early_map_memory` and `early_unmap_memory` in any order from an empty page table. Where a call
covers a 2 MB block wholly, `early_map_memory` expects that the block is not mapped by a table of
4 KB pages, and where it covers a part of one, both functions expect that it is not mapped by one
2 MB page. `earlyMapping_always`: in runs that respect this every call returns, and the tables
translate every address as the last call that covered its page left it.
-/

namespace EbbRT

open EbbRT.Lib EbbRT.Lib.Radix

/-! ## The system -/

/-- Which of the two functions is called.
Source: `sys/vmem.cpp` `early_map_memory`, `early_unmap_memory`
Kind: D -/
inductive MapOp
  | map
  | unmap
  deriving DecidableEq, Repr

/-- A call and its arguments.
Source: `sys/vmem.cpp` `early_map_memory`, `early_unmap_memory`
Kind: D -/
structure MapCall where
  /-- The function. -/
  op : MapOp
  /-- `addr`. -/
  addr : ℕ
  /-- `length`. -/
  length : ℕ
  deriving DecidableEq, Repr

/-- The tables, and for each page the last call that covered it.
Source: none: infrastructure
Kind: D -/
structure EarlyState where
  /-- The page tables. -/
  tables : Tables
  /-- The last call that covered the page, if any did. -/
  lastOp : ℕ → Option MapOp

/-- The call covers an address of the page.
Source: none: infrastructure
Kind: D -/
def MapCall.Covers (r : MapCall) (page : ℕ) : Prop :=
  page * pageSize < r.addr + r.length ∧ r.addr < (page + 1) * pageSize

instance (r : MapCall) (page : ℕ) : Decidable (r.Covers page) :=
  inferInstanceAs (Decidable (_ ∧ _))

/-- The call on the tables.
Source: `sys/vmem.cpp` `early_map_memory`, `early_unmap_memory`
Kind: D -/
def MapCall.run (pages : ℕ → Option ℕ) (r : MapCall) (t : Tables) : Except Abort Tables :=
  match r.op with
  | .map => earlyMapMemory pages r.addr r.length t
  | .unmap => earlyUnmapMemory r.addr r.length t

/-- One call.
Source: none: infrastructure
Kind: D -/
def earlyStep (pages : ℕ → Option ℕ) (s : EarlyState) (r : MapCall) : Except Abort EarlyState := do
  let t ← r.run pages s.tables
  .ok ⟨t, fun page => if r.Covers page then some r.op else s.lastOp page⟩

/-- A range of the lower half with at least one address; only mapped memory is unmapped.
Source: `sys/acpi.cpp` `AcpiOsMapMemory`, `AcpiOsUnmapMemory`
Kind: D -/
def EarlyLegal (s : EarlyState) (r : MapCall) : Prop :=
  1 ≤ r.length ∧ r.addr + r.length ≤ 2 ^ 47 ∧
    (r.op = .unmap → ∀ page < (r.addr + r.length - 1) / pageSize + 1,
      r.Covers page → s.lastOp page = some .map)

/-- Source: `sys/vmem.cpp` `early_map_memory`, `early_unmap_memory`
Kind: D -/
def earlySystem (pages : ℕ → Option ℕ) : System EarlyState MapCall where
  legal := EarlyLegal
  step s r := (earlyStep pages s r).toOption

/-- `page_table_root` is cleared and nothing is mapped; what the pages hold is arbitrary.
Source: `sys/vmem.cpp` `page_table_root`
Kind: D -/
def EarlyState.empty (mem : ℕ → ℕ → ℕ) : EarlyState := ⟨⟨0, mem, 0, []⟩, fun _ => none⟩

/-- The start of the `i`-th 2 MB block that the call touches.
Source: `sys/vmem.hpp` `traverse_page_table`
Kind: D -/
def MapCall.blockBase (r : MapCall) (i : ℕ) : ℕ := (alignedAddr r.addr / 2 ^ 21 + i) * 2 ^ 21

/-- How many 2 MB blocks the call touches.
Source: `sys/vmem.hpp` `traverse_page_table`
Kind: D -/
def MapCall.blockCount (r : MapCall) : ℕ :=
  (alignedEnd r.addr r.length - 1) / 2 ^ 21 + 1 - alignedAddr r.addr / 2 ^ 21

/-- No 2 MB block that is to be mapped wholly has a table, and no block of which the call covers a
part is a large page: `x` is the level 1 entry that the tables have for the block, if they have one.
Source: `sys/vmem.hpp` `traverse_page_table`
Kind: D -/
def Handled (s : EarlyState) (r : MapCall) : Prop :=
  ∀ i < r.blockCount, ∀ x ∈ pageRadix.trace pteView s.tables.mem 4 s.tables.root (r.blockBase i),
    x.1 = 1 →
      if alignedAddr r.addr ≤ r.blockBase i ∧
          r.blockBase i + 2 ^ 21 ≤ alignedEnd r.addr r.length then
        r.op = .map → (pteView 1 x.2).isTable = false
      else (pteView 1 x.2).isLeaf = false

instance (s : EarlyState) (r : MapCall) : Decidable (EarlyLegal s r) :=
  inferInstanceAs (Decidable (_ ∧ _ ∧ _))

instance (s : EarlyState) (r : MapCall) : Decidable (Handled s r) :=
  inferInstanceAs (Decidable (∀ i < r.blockCount, ∀ x ∈ _, _))

/-- Every address (of 48 bits) is mapped to itself if the last call that covered its page mapped it,
and not mapped otherwise.
Source: `sys/vmem.cpp` `early_map_memory`, `early_unmap_memory`
Kind: D -/
def EarlyState.Identity (s : EarlyState) : Prop :=
  ∀ va < 2 ^ 48, x86Walk s.tables va =
    if s.lastOp (va / pageSize) = some .map then some va else none

/-- How a call ends when all is well: it returns with tables that are as they should be and without
having followed a large page, unless `early_allocate_page` did not return.
Source: `sys/vmem.cpp` `early_map_memory`, `early_unmap_memory`
Kind: D -/
def EarlyGood : Except Abort EarlyState → Prop
  | .ok s => s.Identity ∧ ∀ d ∈ s.tables.descents, (pteView d.1 d.2).isLeaf = false
  | .error a => a = .noPage

/-! ## Ranges -/

/-- Source: `sys/vmem.cpp` `early_map_memory`. Kind: L -/
theorem alignedAddr_eq {addr : ℕ} (h : addr < 2 ^ 47) :
    alignedAddr addr = addr / 2 ^ 12 * 2 ^ 12 :=
  @alignDown_two_pow addr 12 (h.trans (by decide)) (by norm_num)

/-- Source: `sys/vmem.cpp` `early_map_memory`. Kind: L -/
theorem alignedEnd_eq {addr length : ℕ} (h : 1 ≤ length) (hle : addr + length ≤ 2 ^ 47) :
    alignedEnd addr length = (addr + length + 2 ^ 12 - 1) / 2 ^ 12 * 2 ^ 12 := by
  have hword : (2 : ℕ) ^ 48 < word := by decide
  have hoff : (length + wsub addr (alignedAddr addr)) % word = length + addr % 2 ^ 12 := by
    rw [alignedAddr_eq (by omega), wsub_eq (by omega) (by omega), Nat.mod_eq_of_lt (by omega)]
    omega
  have hup : alignUp (length + addr % 2 ^ 12) pageSize
      = (length + addr % 2 ^ 12 + 2 ^ 12 - 1) / 2 ^ 12 * 2 ^ 12 :=
    @alignUp_two_pow (length + addr % 2 ^ 12) 12 (by omega) (by norm_num)
  show (alignedAddr addr + alignUp ((length + wsub addr (alignedAddr addr)) % word) pageSize) % word
    = _
  rw [hoff, hup, alignedAddr_eq (by omega), Nat.mod_eq_of_lt (by omega)]
  omega

section Range

variable {s : EarlyState} {r : MapCall}

/-- The range of a legal call: pages, not empty, in the lower half.
Source: `sys/vmem.cpp` `early_map_memory`
Kind: L -/
theorem EarlyLegal.range (h : EarlyLegal s r) :
    2 ^ 12 ∣ alignedAddr r.addr ∧ 2 ^ 12 ∣ alignedEnd r.addr r.length ∧
      alignedAddr r.addr < alignedEnd r.addr r.length ∧ alignedEnd r.addr r.length ≤ 2 ^ 47 := by
  obtain ⟨h1, h2, _⟩ := h
  rw [alignedAddr_eq (by omega), alignedEnd_eq h1 h2]
  refine ⟨Nat.dvd_mul_left _ _, Nat.dvd_mul_left _ _, ?_, ?_⟩ <;> omega

/-- The range has the addresses of the pages that the call covers.
Source: none: infrastructure
Kind: L -/
theorem EarlyLegal.covers_iff (h : EarlyLegal s r) (va : ℕ) :
    r.Covers (va / pageSize) ↔ alignedAddr r.addr ≤ va ∧ va < alignedEnd r.addr r.length := by
  obtain ⟨h1, h2, _⟩ := h
  rw [alignedAddr_eq (by omega), alignedEnd_eq h1 h2]
  unfold MapCall.Covers
  rw [pageSize_eq]
  omega

end Range

/-! ## The callbacks keep the contract -/

/-- The pages of the early mapping map their own addresses.
Source: `sys/vmem.cpp` `early_map_memory`
Kind: D -/
def IdentityLeaf (level base raw : ℕ) : Prop :=
  level < numPageSizes ∧ raw = Pte.set base (0 < level)

/-- A page maps its own addresses. Source: `sys/vmem.hpp` `pte::set`. Kind: L -/
theorem blockTranslate_set {level base va : ℕ} (hlevel : level < numPageSizes)
    (hb : pageRadix.width level ∣ base) (hlt : base < 2 ^ 52)
    (hva : pageRadix.InBlock level base va) :
    blockTranslate level (Pte.set base (0 < level)) va = some va := by
  have hb12 := width_dvd_page hb
  have hview := pteView_set hlevel hb12
  have hset := Pte.set_eq hb12 hlt (0 < level)
  unfold numPageSizes at hlevel
  unfold blockTranslate leafOf
  rw [hview]
  show some (physAddr level (Pte.set base (0 < level)) va) = some va
  unfold physAddr
  rw [pageRadix_width] at hb
  unfold InBlock at hva
  rw [pageRadix_width] at hva
  rw [hset]
  obtain rfl | rfl : level = 0 ∨ level = 1 := by omega
  · simp only [lt_self_iff_false, decide_false, Bool.toNat_false]
    congr 1
    omega
  · simp only [Nat.lt_one_iff, decide_true, Bool.toNat_true]
    congr 1
    omega

/-- What `pteView` calls a page is the entry itself. Source: `sys/vmem.hpp` `pte`. Kind: L -/
theorem pteView_leaf {level raw a : ℕ} (h : pteView level raw = .leaf a) : a = raw := by
  unfold pteView at h
  split at h
  · cases h
  · split at h
    · cases h
      rfl
    · cases h

/-- **Mapping keeps the contract**: a page that is already there is the same page.
Source: `sys/vmem.cpp` `early_map_memory`
Kind: P -/
theorem earlyMap_contract (pages : ℕ → Option ℕ) {virtStart virtEnd : ℕ}
    (hve : virtEnd ≤ 2 ^ 47) :
    Contract pages IdentityLeaf virtStart virtEnd
      (fun level raw => (pteView level raw).isTable = false)
      (fun level raw => (pteView level raw).isLeaf = false) some (· = .noPage)
      ⟨earlyMapFound, installTable pages⟩ where
  found := by
    intro own t e level base hwhole hal hfit hfound
    obtain ⟨hlevel, hvs, hvend⟩ := hwhole
    have hw := pageRadix.width_pos level
    have hlt : base < 2 ^ 52 := by omega
    have hview := pteView_set hlevel (width_dvd_page hal)
    refine ⟨Pte.set base (0 < level), ?_, ?_, fun va => blockTranslate_set hlevel hal hlt⟩
    · show earlyMapFound e base level t = _
      unfold earlyMapFound
      cases hv : pteView level (t.read e) with
      | table pt => exact (View.isTable_eq_false.mp hfound pt hv).elim
      | absent =>
          rw [pteView_absent.mp hv]
          rfl
      | leaf a =>
          rw [hv] at hfit
          have hraw := (pteView_leaf hv).symm.trans hfit.2
          have haddr : Pte.addr (Pte.set base (0 < level)) (0 < level) = base := by
            apply Pte.addr_set _ hlt
            rw [pageRadix_width] at hal
            have : level * 9 = 9 * (decide (0 < level)).toNat := by
              unfold numPageSizes at hlevel
              obtain rfl | rfl : level = 0 ∨ level = 1 := by omega
              · rfl
              · rfl
            rw [← this]
            exact hal
          have hpres := Pte.present_set (width_dvd_page hal) (0 < level)
          rw [hraw, hpres, haddr, if_pos rfl, if_pos rfl, ← hraw, write_read]
    · intro own'
      rw [hview]
      exact ⟨hlevel, rfl⟩
  empty := by
    intro t e level _ _
    show (∃ a, installTable pages e t = _ ∧ _) ∨ ∃ page, _ ∧ installTable pages e t = _
    unfold installTable
    cases hpage : pages t.allocated with
    | none => exact Or.inl ⟨.noPage, rfl, rfl⟩
    | some page => exact Or.inr ⟨page, rfl, rfl⟩
  enter := by
    intro level raw henter
    exact View.isLeaf_eq_false.mp henter
  below := by
    intro level raw _ _ k
    rw [pteView_zero]
    exact ⟨rfl, rfl⟩

/-- **Unmapping keeps the contract.** Source: `sys/vmem.cpp` `early_unmap_memory`. Kind: P -/
theorem earlyUnmap_contract (pages : ℕ → Option ℕ) {virtStart virtEnd : ℕ} :
    Contract pages IdentityLeaf virtStart virtEnd
      (fun level raw => pteView level raw ≠ .absent)
      (fun level raw => (pteView level raw).isTable = true) (fun _ => none) (fun _ => False)
      ⟨earlyUnmapFound, earlyUnmapEmpty⟩ where
  found := by
    intro own t e level base _ _ _ hfound
    have hpres : Pte.present (t.read e) = true := by
      by_contra hnot
      exact hfound (pteView_absent.mpr (by simpa using hnot))
    have hview : pteView level (Pte.setPresent (t.read e) false) = .absent :=
      pteView_absent.mpr (Pte.present_setPresent_false _)
    refine ⟨Pte.setPresent (t.read e) false, ?_, ?_, ?_⟩
    · show earlyUnmapFound e base level t = _
      unfold earlyUnmapFound
      rw [if_pos hpres]
    · intro own'
      rw [hview]
      trivial
    · intro va _
      unfold blockTranslate leafOf
      simp [hview]
  empty := by
    intro t e level habsent htable
    rw [habsent] at htable
    cases htable
  enter := by
    intro level raw htable a hleaf
    rw [hleaf] at htable
    cases htable
  below := by
    intro level raw habsent htable
    rw [habsent] at htable
    cases htable

/-! ## One call -/

/-- The tables are a tree of identity mappings, they translate as the last calls say, and only
pointers to tables were followed.
Source: `sys/vmem.cpp` `early_map_memory`, `early_unmap_memory`
Kind: D -/
structure EarlyInv (pages : ℕ → Option ℕ) (s : EarlyState) (own : Owner) : Prop where
  ok : TablesOk pages IdentityLeaf own s.tables
  translated : ∀ va < 2 ^ 48, translate s.tables 4 s.tables.root va =
    if s.lastOp (va / pageSize) = some .map then some va else none
  descents : ∀ d ∈ s.tables.descents, ∃ pt, pteView d.1 d.2 = .table pt

section Step

variable {pages : ℕ → Option ℕ} {s : EarlyState} {own : Owner} {r : MapCall} {va : ℕ} {x : ℕ × ℕ}

/-- Every address of 48 bits lies in the block of the root.
Source: none: infrastructure
Kind: L -/
theorem inBlock_root (hva : va < 2 ^ 48) : pageRadix.InBlock 4 0 va := by
  unfold InBlock
  rw [pageRadix_width]
  omega

/-- The start of the 2 MB block of an address. Source: none: infrastructure. Kind: L -/
theorem width_one : pageRadix.width 1 = 2 ^ 21 := pageRadix_width 1

/-- What `Handled` says of the block of an address in the range.
Source: `sys/vmem.hpp` `traverse_page_table`
Kind: L -/
theorem Handled.at_addr (hok : Handled s r) (hlo : alignedAddr r.addr ≤ va)
    (hup : va < alignedEnd r.addr r.length)
    (hx : x ∈ pageRadix.trace pteView s.tables.mem 4 s.tables.root va) (h1 : x.1 = 1) :
    (Whole (alignedAddr r.addr) (alignedEnd r.addr r.length) 1
        (va / pageRadix.width 1 * pageRadix.width 1) →
      r.op = .map → (pteView 1 x.2).isTable = false) ∧
    (¬ Whole (alignedAddr r.addr) (alignedEnd r.addr r.length) 1
        (va / pageRadix.width 1 * pageRadix.width 1) → (pteView 1 x.2).isLeaf = false) := by
  have hbase : r.blockBase (va / 2 ^ 21 - alignedAddr r.addr / 2 ^ 21) = va / 2 ^ 21 * 2 ^ 21 := by
    unfold MapCall.blockBase
    congr 1
    omega
  have hdigit : ∀ k, 1 ≤ k →
      pageRadix.digit k va = pageRadix.digit k (va / 2 ^ 21 * 2 ^ 21) := by
    intro k hk
    apply pageRadix.digit_block hk
    · rw [width_one]
      exact Nat.dvd_mul_left _ _
    · unfold InBlock
      rw [width_one]
      omega
  have hx' := pageRadix.mem_trace_congr hdigit hx (by omega)
  rw [← hbase] at hx'
  have h := hok (va / 2 ^ 21 - alignedAddr r.addr / 2 ^ 21)
    (by unfold MapCall.blockCount; omega) x hx' h1
  rw [hbase] at h
  have hiff : Whole (alignedAddr r.addr) (alignedEnd r.addr r.length) 1
      (va / pageRadix.width 1 * pageRadix.width 1) ↔
      alignedAddr r.addr ≤ va / 2 ^ 21 * 2 ^ 21 ∧
        va / 2 ^ 21 * 2 ^ 21 + 2 ^ 21 ≤ alignedEnd r.addr r.length := by
    unfold Whole
    rw [width_one]
    exact and_iff_right (by decide)
  constructor
  · intro hwhole
    rw [if_pos (hiff.mp hwhole)] at h
    exact h
  · intro hwhole
    rw [if_neg fun hw => hwhole (hiff.mpr hw)] at h
    exact h

/-- A page of 4 KB that the range overlaps lies wholly inside it.
Source: `sys/vmem.cpp` `early_map_memory`
Kind: L -/
theorem whole_zero (hlegal : EarlyLegal s r) (hlo : alignedAddr r.addr ≤ va)
    (hup : va < alignedEnd r.addr r.length) :
    Whole (alignedAddr r.addr) (alignedEnd r.addr r.length) 0
      (va / pageRadix.width 0 * pageRadix.width 0) := by
  obtain ⟨hs, he, _, _⟩ := hlegal.range
  have h0 : pageRadix.width 0 = 2 ^ 12 := pageRadix_width 0
  unfold Whole
  rw [h0]
  exact ⟨by decide, by omega, by omega⟩

/-- No entry that is followed is a page. Source: `sys/vmem.hpp` `traverse_page_table`. Kind: L -/
theorem not_leaf (hinv : EarlyInv pages s own) (hlegal : EarlyLegal s r) (hok : Handled s r)
    (hlo : alignedAddr r.addr ≤ va) (hup : va < alignedEnd r.addr r.length)
    (hx : x ∈ pageRadix.trace pteView s.tables.mem 4 s.tables.root va)
    (hwhole : ¬ Whole (alignedAddr r.addr) (alignedEnd r.addr r.length) x.1
      (va / pageRadix.width x.1 * pageRadix.width x.1)) :
    (pteView x.1 x.2).isLeaf = false := by
  have hva : va < 2 ^ 48 := by
    have := hlegal.range.2.2.2
    omega
  have hfit := trace_entryOk _ hinv.ok.wf hinv.ok.root (dvd_zero _) (inBlock_root hva) hx
  by_cases h1 : x.1 = 1
  · rw [h1] at hwhole ⊢
    exact (hok.at_addr hlo hup hx h1).2 hwhole
  · apply View.isLeaf_eq_false.mpr
    intro a ha
    rw [ha] at hfit
    obtain ⟨hlevel, _⟩ := hfit
    have h0 : x.1 = 0 := by
      unfold numPageSizes at hlevel
      omega
    rw [h0] at hwhole
    exact hwhole (whole_zero hlegal hlo hup)

/-- Mapping can handle the addresses of its range. Source: `sys/vmem.cpp` `early_map_memory`. Kind: L -/
theorem ready_map (hinv : EarlyInv pages s own) (hlegal : EarlyLegal s r) (hok : Handled s r)
    (hop : r.op = .map) (hlo : alignedAddr r.addr ≤ va) (hup : va < alignedEnd r.addr r.length) :
    Ready (alignedAddr r.addr) (alignedEnd r.addr r.length)
      (fun level raw => (pteView level raw).isTable = false)
      (fun level raw => (pteView level raw).isLeaf = false) s.tables 4 s.tables.root va := by
  intro x hx
  refine ⟨fun hwhole => ?_, not_leaf hinv hlegal hok hlo hup hx⟩
  have hva : va < 2 ^ 48 := by
    have := hlegal.range.2.2.2
    omega
  have hlevel : x.1 < 2 := hwhole.1
  obtain h0 | h1 : x.1 = 0 ∨ x.1 = 1 := by omega
  · have hfit := trace_entryOk _ hinv.ok.wf hinv.ok.root (dvd_zero _) (inBlock_root hva) hx
    apply View.isTable_eq_false.mpr
    intro pt hpt
    rw [hpt] at hfit
    obtain ⟨k, hk, _⟩ := hfit
    omega
  · rw [h1] at hwhole ⊢
    exact (hok.at_addr hlo hup hx h1).1 hwhole hop

/-- Unmapping can handle the addresses of its range: they are mapped, so that nothing on their way
is absent.
Source: `sys/vmem.cpp` `early_unmap_memory`
Kind: L -/
theorem ready_unmap (hinv : EarlyInv pages s own) (hlegal : EarlyLegal s r) (hok : Handled s r)
    (hop : r.op = .unmap) (hlo : alignedAddr r.addr ≤ va) (hup : va < alignedEnd r.addr r.length) :
    Ready (alignedAddr r.addr) (alignedEnd r.addr r.length)
      (fun level raw => pteView level raw ≠ .absent)
      (fun level raw => (pteView level raw).isTable = true) s.tables 4 s.tables.root va := by
  have hva : va < 2 ^ 48 := by
    have := hlegal.range.2.2.2
    omega
  have hcov := (hlegal.covers_iff va).mpr ⟨hlo, hup⟩
  have hmapped : s.lastOp (va / pageSize) = some .map := by
    apply hlegal.2.2 hop _ _ hcov
    have := hcov.1
    have hlen := hlegal.1
    rw [pageSize_eq] at this ⊢
    omega
  intro x hx
  have hpresent : pteView x.1 x.2 ≠ .absent := by
    intro habsent
    have h := hinv.translated va hva
    rw [if_pos hmapped] at h
    unfold translate at h
    rw [walk_absent _ hx habsent] at h
    cases h
  refine ⟨fun _ => hpresent, fun hwhole => ?_⟩
  have hleaf := not_leaf hinv hlegal hok hlo hup hx hwhole
  cases hv : pteView x.1 x.2 with
  | absent => exact (hpresent hv).elim
  | leaf a =>
      rw [hv] at hleaf
      cases hleaf
  | table pt =>
      show (pteView x.1 x.2).isTable = true
      rw [hv]
      rfl

/-- A call that returned leaves tables that are as they should be, with a table at the root.
Source: `sys/vmem.cpp` `early_map_memory`, `early_unmap_memory`
Kind: D -/
def EarlyStepped (pages : ℕ → Option ℕ) : Except Abort EarlyState → Prop
  | .ok s' => (∃ own', EarlyInv pages s' own') ∧ ∃ pt, pteView 4 s'.tables.root = .table pt
  | .error a => a = .noPage

/-- A call whose callbacks keep a contract that gives the range what the call is for.
Source: `sys/vmem.cpp` `early_map_memory`, `early_unmap_memory`
Kind: L -/
theorem traversed_step {foundOk enterOk : ℕ → ℕ → Prop} {target : ℕ → Option ℕ}
    {stop : Abort → Prop} {c : Callbacks} (hpages : FreshPages pages)
    (hinv : EarlyInv pages s own) (hlegal : EarlyLegal s r)
    (hc : Contract pages IdentityLeaf (alignedAddr r.addr) (alignedEnd r.addr r.length) foundOk
      enterOk target stop c)
    (hready : ∀ va, alignedAddr r.addr ≤ va → va < alignedEnd r.addr r.length →
      Ready (alignedAddr r.addr) (alignedEnd r.addr r.length) foundOk enterOk s.tables 4
        s.tables.root va)
    (htarget : ∀ va, target va = if r.op = .map then some va else none)
    (hstop : ∀ a, stop a → a = .noPage)
    (hrun : r.run pages s.tables = traversePageTable c (alignedAddr r.addr)
      (alignedEnd r.addr r.length) 4 .root 0 s.tables) :
    EarlyStepped pages (earlyStep pages s r) := by
  obtain ⟨hs, he, hlt, hve⟩ := hlegal.range
  have hw : pageRadix.width 4 = 2 ^ 48 := pageRadix_width 4
  have hnot : ¬ Whole (alignedAddr r.addr) (alignedEnd r.addr r.length) 4 0 :=
    fun h => absurd h.1 (by decide)
  have hspec := traversePageTable_spec hpages hc hs he hlt hve 4 0 .root le_rfl hnot own s.tables
    hinv.ok ⟨rfl, rfl⟩ (by omega) (by omega) (by omega) (fun va _ h1 h2 => hready va h1 h2)
  unfold earlyStep
  rw [hrun]
  cases hcall : traversePageTable c (alignedAddr r.addr) (alignedEnd r.addr r.length) 4 .root 0
      s.tables with
  | error a =>
      rw [hcall] at hspec
      exact hstop a hspec
  | ok t' =>
      rw [hcall] at hspec
      obtain ⟨own', heff, htr, htable⟩ := hspec
      refine ⟨⟨own', heff.ok, ?_, ?_⟩, htable hnot⟩
      · intro va hva
        have h := htr va (inBlock_root hva)
        unfold Retargeted at h
        refine h.trans ?_
        show _ = if (if r.Covers (va / pageSize) then some r.op else s.lastOp (va / pageSize))
          = some MapOp.map then some va else none
        by_cases hcov : r.Covers (va / pageSize)
        · rw [if_pos hcov, if_pos ⟨by omega, (hlegal.covers_iff va).mp hcov⟩, htarget]
          simp
        · rw [if_neg hcov, if_neg fun h => hcov ((hlegal.covers_iff va).mpr h.2)]
          exact hinv.translated va hva
      · intro d hd
        exact (heff.descents d hd).elim (hinv.descents d) id

/-- **One call.** Source: `sys/vmem.cpp` `early_map_memory`, `early_unmap_memory`. Kind: P -/
theorem early_step (hpages : FreshPages pages) (hinv : EarlyInv pages s own)
    (hlegal : EarlyLegal s r) (hok : Handled s r) :
    EarlyStepped pages (earlyStep pages s r) := by
  cases hop : r.op with
  | map =>
      apply traversed_step hpages hinv hlegal (earlyMap_contract pages hlegal.range.2.2.2)
        (fun va h1 h2 => ready_map hinv hlegal hok hop h1 h2)
      · intro va
        rw [if_pos hop]
      · exact fun a ha => ha
      · unfold MapCall.run
        rw [hop]
        rfl
  | unmap =>
      apply traversed_step hpages hinv hlegal (earlyUnmap_contract pages)
        (fun va h1 h2 => ready_unmap hinv hlegal hok hop h1 h2)
      · intro va
        rw [hop]
        rfl
      · exact fun a ha => ha.elim
      · unfold MapCall.run
        rw [hop]
        rfl

/-- With a table at the root the processor finds what the tables translate.
Source: `sys/vmem.cpp` `enable_runtime_page_table`
Kind: L -/
theorem x86Walk_eq {t : Tables} {pt : ℕ} (h : pteView 4 t.root = .table pt) (va : ℕ) :
    x86Walk t va = translate t 4 t.root va := by
  have hdigit : pageRadix.digit 3 va = va / 2 ^ 39 % 512 := pageRadix_digit 3 va
  unfold x86Walk
  rw [x86WalkFrom_eq, bits_of_pteView_table h, ← hdigit]
  unfold translate
  rw [walk_table _ h]

end Step

/-! ## Runs -/

/-- Before any call. Source: `sys/vmem.cpp` `page_table_root`. Kind: L -/
theorem earlyInv_empty (pages : ℕ → Option ℕ) (mem : ℕ → ℕ → ℕ) :
    EarlyInv pages (EarlyState.empty mem) fun _ => none := by
  have hroot : pteView 4 (EarlyState.empty mem).tables.root = .absent := pteView_zero 4
  refine ⟨⟨⟨?_, ?_⟩, ?_, fun _ _ _ _ => rfl⟩, fun va _ => ?_, fun d hd => absurd hd List.not_mem_nil⟩
  · intro p k b h
    cases h
  · intro p k b h
    cases h
  · rw [hroot]
    trivial
  · rw [if_neg (fun h => by cases h)]
    unfold translate
    rw [walk_end _ (by simp [hroot])]
    simp [leafOf, hroot]

/-- In runs that respect the large pages the tables are as they should be after every call.
Source: `sys/vmem.cpp` `early_map_memory`, `early_unmap_memory`
Kind: P -/
theorem earlyInv_run {pages : ℕ → Option ℕ} {mem : ℕ → ℕ → ℕ} (hpages : FreshPages pages)
    {calls : List MapCall} {s : EarlyState}
    (hrun : ((earlySystem pages).guard Handled).Run (EarlyState.empty mem) calls s) :
    ∃ own, EarlyInv pages s own := by
  refine hrun.invariant (I := fun s => ∃ own, EarlyInv pages s own) ⟨_, earlyInv_empty pages mem⟩ ?_
  rintro s r s' ⟨own, hinv⟩ ⟨hlegal, hok⟩ hstep
  have h := early_step hpages hinv hlegal hok
  have hstep : (earlyStep pages s r).toOption = some s' := hstep
  cases hcall : earlyStep pages s r with
  | error a =>
      rw [hcall] at hstep
      cases hstep
  | ok t =>
      rw [hcall] at hstep h
      cases hstep
      exact h.1

/-- **Early mapping and unmapping.** In every run of calls that find every 2 MB block they map
wholly without a table and every block they touch in part not mapped by a large page, the next such
call returns (if `early_allocate_page` does), no large page has been followed as a pointer, and the
processor translates every address as the last call that covered its page left it.
Source: `sys/vmem.cpp` `early_map_memory`, `early_unmap_memory`
Kind: C
Fidelity: weaker than the code promises: `Handled` leaves out a large page over a table, and a part of a
large page
Hyps: `hpages`: `early_allocate_page` returns pages that nobody has -/
theorem earlyMapping_always (pages : ℕ → Option ℕ) (mem : ℕ → ℕ → ℕ) (calls : List MapCall)
    (s : EarlyState) (r : MapCall) (hpages : FreshPages pages)
    (hrun : ((earlySystem pages).guard Handled).Run (EarlyState.empty mem) calls s)
    (hlegal : EarlyLegal s r) (hok : Handled s r) : EarlyGood (earlyStep pages s r) := by
  obtain ⟨own, hinv⟩ := earlyInv_run hpages hrun
  have h := early_step hpages hinv hlegal hok
  cases hcall : earlyStep pages s r with
  | error a =>
      rw [hcall] at h
      exact h
  | ok s' =>
      rw [hcall] at h
      obtain ⟨⟨own', hinv'⟩, pt, hpt⟩ := h
      refine ⟨fun va hva => ?_, fun d hd => ?_⟩
      · rw [x86Walk_eq hpt]
        exact hinv'.translated va hva
      · obtain ⟨pt, hd⟩ := hinv'.descents d hd
        rw [hd]
        rfl

instance (pages : ℕ → Option ℕ) (s : EarlyState) (r : MapCall) :
    Decidable ((earlySystem pages).legal s r) :=
  inferInstanceAs (Decidable (EarlyLegal s r))

/-- A page, a large page, the page again, and its unmapping: the next call maps a range that starts
within the page.
Source: `sys/vmem.cpp` `early_map_memory`, `early_unmap_memory`
Kind: C -/
theorem earlyMapping_always_overlapping :
    ∃ s, ((earlySystem firstPages).guard Handled).Run (EarlyState.empty fun _ _ => 0)
        [⟨.map, 0x1000, 0x1000⟩, ⟨.map, 0x200000, 0x200000⟩, ⟨.map, 0x1234, 1⟩,
          ⟨.unmap, 0x1000, 0x1000⟩] s ∧
      EarlyGood (earlyStep firstPages s ⟨.map, 0x1800, 0x2000⟩) := by
  have hadmits : ((earlySystem firstPages).guard Handled).Admits (EarlyState.empty fun _ _ => 0)
      ([⟨.map, 0x1000, 0x1000⟩, ⟨.map, 0x200000, 0x200000⟩, ⟨.map, 0x1234, 1⟩,
        ⟨.unmap, 0x1000, 0x1000⟩] ++ [⟨.map, 0x1800, 0x2000⟩]) := by
    decide +kernel
  obtain ⟨s, _, _, hrun, ⟨hlegal, hok⟩, _⟩ := hadmits.last
  exact ⟨s, hrun, earlyMapping_always firstPages _ _ s _ freshPages_firstPages hrun hlegal hok⟩

/-- Mapping a page and then the 2 MB block around it stops at the `kassert` in `early_map_memory`:
the entry of the block is the pointer to a table.
Source: `sys/vmem.cpp` `early_map_memory`
Kind: C -/
theorem earlyMapping_not_always :
    ¬ ∀ (pages : ℕ → Option ℕ) (mem : ℕ → ℕ → ℕ) (calls : List MapCall) (s : EarlyState)
        (r : MapCall), FreshPages pages →
      (earlySystem pages).Run (EarlyState.empty mem) calls s → EarlyLegal s r →
        EarlyGood (earlyStep pages s r) := by
  intro hall
  have hadmits : (earlySystem firstPages).Admits (EarlyState.empty fun _ _ => 0)
      [⟨.map, 0x1000, 0x1000⟩] := by
    decide +kernel
  obtain ⟨s, hexec, hrun⟩ := System.Run.of_admits hadmits
  have hgood := hall firstPages _ _ s ⟨.map, 0, 0x200000⟩ freshPages_firstPages hrun
    ⟨by decide, by decide, fun h => by cases h⟩
  have hstop : ((earlySystem firstPages).exec (EarlyState.empty fun _ _ => 0)
      [⟨.map, 0x1000, 0x1000⟩]).map (fun s => stopOf (earlyStep firstPages s ⟨.map, 0, 0x200000⟩))
      = some (some .kassert) := by
    decide +kernel
  rw [hexec] at hstop
  have hstop : stopOf (earlyStep firstPages s ⟨.map, 0, 0x200000⟩) = some .kassert :=
    Option.some.inj hstop
  cases hcall : earlyStep firstPages s ⟨.map, 0, 0x200000⟩ with
  | ok s' =>
      rw [hcall] at hstop
      cases hstop
  | error a =>
      rw [hcall] at hstop hgood
      cases hstop
      cases hgood

end EbbRT
