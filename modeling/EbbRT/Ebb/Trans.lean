import EbbRT.Mem.PageTableTraverse
import EbbRT.Mem.VMemAllocator

/-!
# The local translation table

The last `2 ^ 32` bytes of the address space are for the translation table: for each Ebb id an entry
with the address of the core's representative, which `EbbRef` reads and `cache_ref` writes. Each core
maps a page of its own there, `trans_init` on the first core and `trans_ap_init` on the others.
`transMapped_transInit` and `transMapped_transApInit` say what is mapped afterwards: the first page of
the region, with the entries of the ids below `idsMapped`, and nothing else.
-/

namespace EbbRT

open VMemAllocator (localTransVmemStart)

/-! ## Entries -/

/-- Source: `sys/trans.hpp` `LocalEntry`
Kind: D -/
def sizeofLocalEntry : ℕ := 8

/-- How many ids there are.
Source: `sys/trans.hpp` `EbbId`
Kind: D -/
def ebbIds : ℕ := 2 ^ 32

/-- Source: `sys/trans.hpp` `event_manager_id`
Kind: D -/
def eventManagerId : ℕ := 4

/-- Source: `sys/trans.hpp` `FIRST_FREE_ID`
Kind: D -/
def firstFreeId : ℕ := 8

/-- The address of the entry for an id, in 64 bits.
Source: `sys/trans.hpp` `EbbRef`, `cache_ref`
Kind: D -/
def localEntry (id : ℕ) : ℕ := (localTransVmemStart + sizeofLocalEntry * id) % word

/-- The id that `EbbRef` passes to `HandleFault`.
Source: `sys/trans.hpp` `EbbRef`
Kind: D -/
def entryId (ref : ℕ) : ℕ := wsub ref localTransVmemStart / sizeofLocalEntry % ebbIds

/-- It is the id that the `EbbRef` was made for.
Source: `sys/trans.hpp` `EbbRef`
Kind: L -/
theorem entryId_localEntry {id : ℕ} (h : id < ebbIds) : entryId (localEntry id) = id := by
  unfold ebbIds at h
  unfold entryId localEntry wsub sizeofLocalEntry localTransVmemStart word ebbIds
  omega

/-! ## The first core -/

/-- The address after the page that is mapped.
Source: `sys/trans.cpp` `trans_init`
Kind: D -/
def transEnd : ℕ := localTransVmemStart + pageSize

section Code

variable (pages : ℕ → Option ℕ)

/-- What `found` sets the entry to.
Source: `sys/trans.cpp` `trans_init`, `trans_ap_init`
Kind: D -/
def transEntry (page baseVirt level : ℕ) : ℕ :=
  Pte.set ((pfnToAddr page + wsub baseVirt localTransVmemStart) % word) (0 < level)

/-- `page` is the page to map.
Source: `sys/trans.cpp` `trans_init`
Kind: D -/
def transFound (page : ℕ) (entry : Entry) (baseVirt level : ℕ) (t : Tables) :
    Except Abort Tables :=
  if Pte.present (t.read entry) then .error .kassert
  else .ok (t.write (transEntry page baseVirt level) entry)

/-- Source: `sys/trans.cpp` `trans_init`
Kind: D -/
def transInit (t : Tables) : Except Abort Tables :=
  match pages t.allocated with
  | none => .error .noPage
  | some page => do
      let t := { t with allocated := t.allocated + 1 }
      let t ← traversePageTable ⟨transFound page, installTable pages⟩ localTransVmemStart transEnd
        4 .root 0 t
      .ok (t.clearPage (pfnToAddr page))

/-! ## The other cores -/

/-- Source: `sys/trans.cpp` `trans_ap_init`
Kind: D -/
def transApFound (entry : Entry) (baseVirt level : ℕ) (t : Tables) : Except Abort Tables :=
  if Pte.present (t.read entry) then .error .kassert
  else
    match pages t.allocated with
    | none => .error .noPage
    | some page =>
        let t := { t with allocated := t.allocated + 1 }
        let t := t.clearPage (pfnToAddr page)
        .ok (t.write (transEntry page baseVirt level) entry)

/-- `t.root` is the core's page table root, a copy of the first core's. `pages` are the pages that
`PageAllocator::Alloc` returns.
Source: `sys/trans.cpp` `trans_ap_init`
Kind: D
Fidelity: the code does not look for `NO_PFN`, which `Alloc` returns when it has no page; the model stops
there with `noPage`. -/
def transApInit (t : Tables) : Except Abort Tables :=
  let idx := ptIndex localTransVmemStart 3
  let pt := Pte.addr t.root false
  let t := t.write 0 (.slot pt idx)
  traversePageTable ⟨transApFound pages, installTable pages⟩ localTransVmemStart transEnd 4 .root 0 t

end Code

/-! ## What is mapped -/

/-- The entries on the way to the page at `d`, in the tables at `a`, `b` and `c`.
Source: `sys/trans.cpp` `trans_init`
Kind: D -/
structure TransPath (t : Tables) (a b c d : ℕ) : Prop where
  top : t.mem (Pte.addr t.root false) 511 = Pte.setNormal a
  second : ∀ i, t.mem a i = if i = 508 then Pte.setNormal b else 0
  third : ∀ i, t.mem b i = if i = 0 then Pte.setNormal c else 0
  fourth : ∀ i, t.mem c i = if i = 0 then Pte.set d false else 0
  aligned : ∀ x ∈ [a, b, c, d], 2 ^ 12 ∣ x ∧ x < 2 ^ 52

/-- The walk in a table with one entry. Source: none: infrastructure. Kind: L -/
theorem walk_single {mem : ℕ → ℕ → ℕ} {pt i e level va : ℕ} (h : ∀ j, mem pt j = if j = i then e else 0)
    (idx : ℕ) : x86WalkFrom mem level (mem pt idx) va =
      if idx = i then x86WalkFrom mem level e va else none := by
  rw [h]
  by_cases hi : idx = i
  · rw [if_pos hi, if_pos hi]
  · rw [if_neg hi, if_neg hi]
    cases level <;> simp [x86WalkFrom, pteView_zero]

/-- The walk from the entry of a table. Source: `sys/vmem.hpp` `pte::set_normal`. Kind: L -/
theorem walk_setNormal {mem : ℕ → ℕ → ℕ} {pt level va : ℕ} (h : 2 ^ 12 ∣ pt ∧ pt < 2 ^ 52) :
    x86WalkFrom mem (level + 1) (Pte.setNormal pt) va =
      x86WalkFrom mem level (mem pt (va / 2 ^ (12 + level * 9) % 512)) va := by
  rw [x86WalkFrom, pteView_setNormal h.1 h.2]

/-- The page maps its own addresses. Source: `sys/vmem.hpp` `pte::set`. Kind: L -/
theorem walk_set {mem : ℕ → ℕ → ℕ} {d va : ℕ} (h : 2 ^ 12 ∣ d ∧ d < 2 ^ 52) :
    x86WalkFrom mem 0 (Pte.set d false) va = some (d + va % 2 ^ 12) := by
  have hview : pteView 0 (Pte.set d false) = .leaf (Pte.set d false) := pteView_set (by decide) h.1
  rw [x86WalkFrom, hview]
  dsimp only
  unfold physAddr
  obtain ⟨q, hq⟩ := h.1
  have hlt := h.2
  rw [Pte.set_eq h.1 h.2 false, Bool.toNat_false]
  congr 1
  omega

/-- **What the processor finds in the region**: the first page is mapped, and nothing else.
Source: `sys/trans.cpp` `trans_init`
Kind: P -/
theorem TransPath.walk {t : Tables} {a b c d off : ℕ} (h : TransPath t a b c d) (hoff : off < 2 ^ 32) :
    x86Walk t (localTransVmemStart + off) = if off < pageSize then some (d + off) else none := by
  obtain ⟨va, hva⟩ : ∃ va, va = localTransVmemStart + off := ⟨_, rfl⟩
  have hstart : localTransVmemStart = 0xFFFFFFFF00000000 := rfl
  have htop : va / 2 ^ 39 % 512 = 511 := by omega
  have ha := h.aligned a (by simp)
  have hb := h.aligned b (by simp)
  have hc := h.aligned c (by simp)
  have hd := h.aligned d (by simp)
  unfold x86Walk
  rw [← hva, htop, ← Pte.addr_false, h.top, walk_setNormal ha, walk_single h.second, walk_setNormal hb,
    walk_single h.third, walk_setNormal hc, walk_single h.fourth, walk_set hd]
  have hsecond : va / 2 ^ (12 + 2 * 9) % 512 = 508 + off / 2 ^ 30 := by omega
  have hthird : va / 2 ^ (12 + 1 * 9) % 512 = off / 2 ^ 21 % 512 := by omega
  have hfourth : va / 2 ^ (12 + 0 * 9) % 512 = off / 2 ^ 12 % 512 := by omega
  have hlow : va % 2 ^ 12 = off % 2 ^ 12 := by omega
  rw [hsecond, hthird, hfourth, hlow, pageSize_eq]
  by_cases hpage : off < 4096
  · rw [if_pos (by omega), if_pos (by omega), if_pos (by omega), if_pos hpage,
      Nat.mod_eq_of_lt (by omega)]
  · rw [if_neg hpage]
    by_cases h1 : 508 + off / 2 ^ 30 = 508
    · rw [if_pos h1]
      by_cases h2 : off / 2 ^ 21 % 512 = 0
      · rw [if_pos h2, if_neg (by omega)]
      · rw [if_neg h2]
    · rw [if_neg h1]

/-! ## The traversal of the page -/

section Traverse

variable {pages : ℕ → Option ℕ} {found : Entry → ℕ → ℕ → Tables → Except Abort Tables}
  {t t' : Tables} {e : Entry} {k base next i page pt idx : ℕ}

/-- The tables after a slot was written. Source: none: infrastructure. Kind: L -/
theorem write_slot (t : Tables) (raw pt idx q j : ℕ) :
    (t.write raw (.slot pt idx)).mem q j = if q = pt ∧ j = idx then raw else t.mem q j := by
  rw [write_mem]
  by_cases h : q = pt ∧ j = idx
  · rw [if_pos h, if_pos (by rw [h.1, h.2])]
  · rw [if_neg h, if_neg (by rintro ⟨⟩; exact h ⟨rfl, rfl⟩)]

/-- The tables after a page was installed in a slot. Source: `sys/trans.cpp` `trans_init`. Kind: L -/
theorem install_slot (t : Tables) (page pt idx : ℕ) (descents : List (ℕ × ℕ)) :
    ∃ t1, t1 = { t.install page (.slot pt idx) with descents := descents } ∧
      t1.allocated = t.allocated + 1 ∧ t1.root = t.root ∧
      ∀ q j, t1.mem q j = if q = pt ∧ j = idx then Pte.setNormal (pfnToAddr page)
        else if q = pfnToAddr page then 0 else t.mem q j := by
  refine ⟨_, rfl, rfl, rfl, fun q j => ?_⟩
  show (t.install page (.slot pt idx)).mem q j = _
  unfold Tables.install
  rw [write_slot]
  by_cases hpt : q = pfnToAddr page
  · rw [if_pos hpt, hpt]
    congr 1
    exact clearPage_self _ _ _
  · rw [if_neg hpt]
    congr 1
    exact clearPage_of_ne _ hpt _

/-- Different pages of the stream have different addresses. Source: none: infrastructure. Kind: L -/
theorem pfnToAddr_ne {m n page page' : ℕ} (hpages : FreshPages pages) (h : pages m = some page)
    (h' : pages n = some page') (hne : m ≠ n) : pfnToAddr page ≠ pfnToAddr page' := by
  rw [pfnToAddr_eq (hpages.2 _ _ h), pfnToAddr_eq (hpages.2 _ _ h')]
  intro heq
  obtain rfl : page = page' := by omega
  exact hne (hpages.1 _ _ _ h h')

/-- The loop when the range meets one slot of the table.
Source: `sys/vmem.hpp` `traverse_page_table`
Kind: L -/
theorem traverse_one {c : Callbacks} {virtStart virtEnd : ℕ} {t1 : Tables}
    (h : enter c e t = .ok (true, t1)) (hk : k ≤ 3) (hi : ptIndex (max virtStart base) k = i)
    (hj : ptIndex (min (wsub virtEnd 1)
      (canonical (wsub ((base + pageRadix.width k * 512) % word) 1))) k = i)
    (hnext : (base + canonical (i * pageRadix.width k % word)) % word = next) :
    traversePageTable c virtStart virtEnd (k + 1) e base t =
      visitSlot c virtStart virtEnd k (pageRadix.width k) (Pte.addr (t1.read e) false) i next
        { t1 with descents := (k + 1, t1.read e) :: t1.descents } := by
  rw [traversePageTable_enter h (stepAt_eq hk) hi hj, hnext, Nat.add_sub_cancel_left, forSlots]
  generalize visitSlot c virtStart virtEnd k (pageRadix.width k) (Pte.addr (t1.read e) false) i next
    { t1 with descents := (k + 1, t1.read e) :: t1.descents } = r
  cases r <;> rfl

/-- A slot that is not for a page in the range is gone down from.
Source: `sys/vmem.hpp` `traverse_page_table`
Kind: L -/
theorem visitSlot_down {c : Callbacks} {virtStart virtEnd step : ℕ}
    (h : ¬ (k < numPageSizes ∧ virtStart ≤ base ∧ virtEnd ≥ (base + step) % word)) :
    visitSlot c virtStart virtEnd k step pt idx base t =
      traversePageTable c virtStart virtEnd k (.slot pt idx) base t := by
  unfold visitSlot
  rw [if_neg h]

/-- Going down from an absent entry: a page is installed, and one slot of it visited.
Source: `sys/trans.cpp` `trans_init`
Kind: L -/
theorem traverse_absent (hpages : FreshPages pages)
    (h : traversePageTable ⟨found, installTable pages⟩ localTransVmemStart transEnd (k + 1) e base t =
      .ok t')
    (habsent : Pte.present (t.read e) = false) (hk : k ≤ 3)
    (hi : ptIndex (max localTransVmemStart base) k = i)
    (hj : ptIndex (min (wsub transEnd 1)
      (canonical (wsub ((base + pageRadix.width k * 512) % word) 1))) k = i)
    (hnext : (base + canonical (i * pageRadix.width k % word)) % word = next) :
    ∃ page, pages t.allocated = some page ∧
      visitSlot ⟨found, installTable pages⟩ localTransVmemStart transEnd k (pageRadix.width k)
        (pfnToAddr page) i next
        { t.install page e with
          descents := (k + 1, Pte.setNormal (pfnToAddr page)) :: t.descents } = .ok t' := by
  have henter : enter ⟨found, installTable pages⟩ e t =
      match pages t.allocated with
      | none => .error .noPage
      | some page => .ok (true, t.install page e) := by
    unfold enter
    rw [if_neg (by rw [habsent]; exact Bool.false_ne_true)]
    rfl
  cases hpage : pages t.allocated with
  | none =>
      rw [hpage] at henter
      rw [traversePageTable, henter] at h
      cases h
  | some page =>
      rw [hpage] at henter
      have hlt := hpages.2 _ _ hpage
      have haddr := pfnToAddr_eq hlt
      have hread : (t.install page e).read e = Pte.setNormal (pfnToAddr page) := by
        unfold Tables.install
        exact read_write _ _ _
      have hpt : Pte.addr (Pte.setNormal (pfnToAddr page)) false = pfnToAddr page :=
        Pte.addr_set_false (by rw [haddr]; exact Dvd.intro_left page rfl) (by omega) false
      have hdescents : (t.install page e).descents = t.descents := by
        unfold Tables.install
        rw [write_descents]
        rfl
      rw [traverse_one henter hk hi hj hnext, hread, hpt, hdescents] at h
      exact ⟨page, rfl, h⟩

/-- The tables are gone down to the slot for the page. `t3` has the three tables installed on the way.
Source: `sys/trans.cpp` `trans_init`
Kind: P -/
theorem traverse_region (hpages : FreshPages pages) (hroot : Pte.present t.root = true)
    (habsent : Pte.present (t.mem (Pte.addr t.root false) 511) = false)
    (hfree : ∀ n page, t.allocated ≤ n → pages n = some page →
      pfnToAddr page ≠ Pte.addr t.root false)
    (h : traversePageTable ⟨found, installTable pages⟩ localTransVmemStart transEnd 4 .root 0 t =
      .ok t') :
    ∃ a b c t3, pages t.allocated = some a ∧ pages (t.allocated + 1) = some b ∧
      pages (t.allocated + 2) = some c ∧ t3.allocated = t.allocated + 3 ∧ t3.root = t.root ∧
      t3.mem (Pte.addr t.root false) 511 = Pte.setNormal (pfnToAddr a) ∧
      (∀ j, t3.mem (pfnToAddr a) j = if j = 508 then Pte.setNormal (pfnToAddr b) else 0) ∧
      (∀ j, t3.mem (pfnToAddr b) j = if j = 0 then Pte.setNormal (pfnToAddr c) else 0) ∧
      (∀ j, t3.mem (pfnToAddr c) j = 0) ∧
      found (.slot (pfnToAddr c) 0) localTransVmemStart 0 t3 = .ok t' := by
  obtain ⟨r, hr⟩ : ∃ r, r = Pte.addr t.root false := ⟨_, rfl⟩
  rw [← hr] at habsent hfree ⊢
  have henter : enter ⟨found, installTable pages⟩ .root t = .ok (true, t) := by
    unfold enter
    exact if_pos hroot
  rw [@traverse_one t .root 3 0 0xFFFFFF8000000000 511 _ _ _ t henter (by decide) (by decide +kernel)
    (by decide +kernel) (by decide +kernel), visitSlot_down (by decide)] at h
  rw [show Pte.addr (t.read .root) false = r from hr.symm] at h
  obtain ⟨a, ha, h⟩ := @traverse_absent pages found _ t' (.slot r 511) 2 0xFFFFFF8000000000
    localTransVmemStart 508 hpages h habsent (by decide) (by decide +kernel) (by decide +kernel)
    (by decide +kernel)
  rw [visitSlot_down (by decide)] at h
  obtain ⟨t1, ht1, halloc1, hroot1, hmem1⟩ := install_slot
    { t with descents := (4, t.read .root) :: t.descents } a r 511
    ((3, Pte.setNormal (pfnToAddr a)) :: (4, t.read .root) :: t.descents)
  rw [← ht1] at h
  replace ha : pages t.allocated = some a := ha
  replace halloc1 : t1.allocated = t.allocated + 1 := halloc1
  have hra : pfnToAddr a ≠ r := hfree _ _ le_rfl ha
  have hclear1 : ∀ j, t1.mem (pfnToAddr a) j = 0 := by
    intro j
    rw [hmem1, if_neg fun h => hra h.1, if_pos rfl]
  obtain ⟨b, hb, h⟩ := @traverse_absent pages found _ t' (.slot (pfnToAddr a) 508) 1
    localTransVmemStart localTransVmemStart 0 hpages h (by rw [Tables.read, hclear1]; rfl) (by decide)
    (by decide +kernel) (by decide +kernel) (by decide +kernel)
  rw [visitSlot_down (by decide +kernel)] at h
  obtain ⟨t2, ht2, halloc2, hroot2, hmem2⟩ := install_slot t1 b (pfnToAddr a) 508
    ((2, Pte.setNormal (pfnToAddr b)) :: t1.descents)
  rw [← ht2] at h
  rw [halloc1] at hb
  have hrb : pfnToAddr b ≠ r := hfree _ _ (Nat.le_succ _) hb
  have hab : pfnToAddr a ≠ pfnToAddr b := pfnToAddr_ne hpages ha hb (by omega)
  have hclear2 : ∀ j, t2.mem (pfnToAddr b) j = 0 := by
    intro j
    rw [hmem2, if_neg fun h => hab h.1.symm, if_pos rfl]
  obtain ⟨c, hc, h⟩ := @traverse_absent pages found _ t' (.slot (pfnToAddr b) 0) 0
    localTransVmemStart localTransVmemStart 0 hpages h (by rw [Tables.read, hclear2]; rfl) (by decide)
    (by decide +kernel) (by decide +kernel) (by decide +kernel)
  obtain ⟨t3, ht3, halloc3, hroot3, hmem3⟩ := install_slot t2 c (pfnToAddr b) 0
    ((1, Pte.setNormal (pfnToAddr c)) :: t2.descents)
  rw [← ht3] at h
  rw [halloc2, halloc1] at hc
  have hrc : pfnToAddr c ≠ r := hfree _ _ (by omega) hc
  have hac : pfnToAddr a ≠ pfnToAddr c := pfnToAddr_ne hpages ha hc (by omega)
  have hbc : pfnToAddr b ≠ pfnToAddr c := pfnToAddr_ne hpages hb hc (by omega)
  have hfound : visitSlot ⟨found, installTable pages⟩ localTransVmemStart transEnd 0
      (pageRadix.width 0) (pfnToAddr c) 0 localTransVmemStart t3 =
        found (.slot (pfnToAddr c) 0) localTransVmemStart 0 t3 := by
    unfold visitSlot
    rw [if_pos (by decide +kernel)]
  rw [hfound] at h
  refine ⟨a, b, c, t3, ha, hb, hc, ?_, ?_, ?_, ?_, ?_, ?_, h⟩
  · rw [halloc3, halloc2, halloc1]
  · rw [hroot3, hroot2, hroot1]
  · rw [hmem3, if_neg fun h => hrb h.1.symm, if_neg hrc.symm, hmem2, if_neg fun h => hra h.1.symm,
      if_neg hrb.symm, hmem1, if_pos ⟨rfl, rfl⟩]
  · intro j
    rw [hmem3, if_neg fun h => hab h.1, if_neg hac, hmem2]
    by_cases hj : j = 508
    · rw [if_pos ⟨rfl, hj⟩, if_pos hj]
    · rw [if_neg fun h => hj h.2, if_neg hab, hclear1, if_neg hj]
  · intro j
    rw [hmem3]
    by_cases hj : j = 0
    · rw [if_pos ⟨rfl, hj⟩, if_pos hj]
    · rw [if_neg fun h => hj h.2, if_neg hbc, hclear2, if_neg hj]
  · intro j
    rw [hmem3, if_neg fun h => hbc h.1.symm, if_pos rfl]

/-- What holds of the tables when the page is mapped: the root leads to a table, and the pages still
to be allocated are others.
Source: `sys/main.cpp` `kmain`, `sys/smp.cpp` `smp_main`
Kind: D -/
structure TransReady (pages : ℕ → Option ℕ) (t : Tables) : Prop where
  fresh : FreshPages pages
  root : Pte.present t.root = true
  free : ∀ n page, t.allocated ≤ n → pages n = some page → pfnToAddr page ≠ Pte.addr t.root false

/-- The region: its first page is mapped to a cleared page, and the rest is not mapped.
Source: `sys/trans.cpp` `trans_init`, `trans_ap_init`
Kind: D -/
structure TransMapped (t : Tables) (page : ℕ) : Prop where
  walk : ∀ off < 2 ^ 32, x86Walk t (localTransVmemStart + off) =
    if off < pageSize then some (pfnToAddr page + off) else none
  null : ∀ idx, t.mem (pfnToAddr page) idx = 0

/-- The page is cleared, and the entry for it set, in either order. `ia`, `ib`, `ic` and `id` are the
places of the pages in the stream.
Source: `sys/trans.cpp` `trans_init`, `trans_ap_init`
Kind: L -/
theorem transMapped_of_found {a b c d ia ib ic id : ℕ} {t3 : Tables} (h : TransReady pages t)
    (ha : pages ia = some a) (hb : pages ib = some b) (hc : pages ic = some c)
    (hd : pages id = some d) (hplaces : (ia ≠ ib ∧ ia ≠ ic ∧ ia ≠ id) ∧ (ib ≠ ic ∧ ib ≠ id) ∧ ic ≠ id)
    (hic : t.allocated ≤ ic) (hid : t.allocated ≤ id) (hroot3 : t3.root = t.root) (hroot : t'.root = t3.root)
    (hmem : ∀ q j, t'.mem q j = if q = pfnToAddr d then 0
      else if q = pfnToAddr c ∧ j = 0 then Pte.set (pfnToAddr d) false else t3.mem q j)
    (htop : t3.mem (Pte.addr t.root false) 511 = Pte.setNormal (pfnToAddr a))
    (hsecond : ∀ j, t3.mem (pfnToAddr a) j = if j = 508 then Pte.setNormal (pfnToAddr b) else 0)
    (hthird : ∀ j, t3.mem (pfnToAddr b) j = if j = 0 then Pte.setNormal (pfnToAddr c) else 0)
    (hfourth : ∀ j, t3.mem (pfnToAddr c) j = 0) : TransMapped t' d := by
  obtain ⟨⟨-, hac, had⟩, ⟨hbc, hbd⟩, hcd⟩ := hplaces
  have hpath : TransPath t' (pfnToAddr a) (pfnToAddr b) (pfnToAddr c) (pfnToAddr d) := by
    refine ⟨?_, fun j => ?_, fun j => ?_, fun j => ?_, ?_⟩
    · rw [hroot, hroot3, hmem, if_neg (h.free _ _ hid hd).symm,
        if_neg fun heq => h.free _ _ hic hc heq.1.symm, htop]
    · rw [hmem, if_neg (pfnToAddr_ne h.fresh ha hd had),
        if_neg fun heq => pfnToAddr_ne h.fresh ha hc hac heq.1, hsecond]
    · rw [hmem, if_neg (pfnToAddr_ne h.fresh hb hd hbd),
        if_neg fun heq => pfnToAddr_ne h.fresh hb hc hbc heq.1, hthird]
    · rw [hmem, if_neg (pfnToAddr_ne h.fresh hc hd hcd), hfourth]
      by_cases hj : j = 0
      · rw [if_pos ⟨rfl, hj⟩, if_pos hj]
      · rw [if_neg fun heq => hj heq.2, if_neg hj]
    · intro x hx
      obtain ⟨q, n, hq, rfl⟩ : ∃ q n, pages n = some q ∧ pfnToAddr q = x := by
        simp only [List.mem_cons, List.not_mem_nil, or_false] at hx
        rcases hx with rfl | rfl | rfl | rfl
        · exact ⟨a, ia, ha, rfl⟩
        · exact ⟨b, ib, hb, rfl⟩
        · exact ⟨c, ic, hc, rfl⟩
        · exact ⟨d, id, hd, rfl⟩
      have h40 := h.fresh.2 _ _ hq
      rw [pfnToAddr_eq h40]
      exact ⟨Dvd.intro_left q rfl, by omega⟩
  refine ⟨fun off hoff => hpath.walk hoff, fun idx => ?_⟩
  rw [hmem, if_pos rfl]

/-- The entry for the page. Source: `sys/trans.cpp` `trans_init`. Kind: L -/
theorem transEntry_eq {d : ℕ} (h : d < 2 ^ 40) :
    transEntry d localTransVmemStart 0 = Pte.set (pfnToAddr d) false := by
  have hsub : wsub localTransVmemStart localTransVmemStart = 0 := by decide
  unfold transEntry
  rw [hsub, Nat.add_zero, pfnToAddr_eq h, Nat.mod_eq_of_lt (by unfold word; omega)]
  rfl

/-- **The first core** maps the first page of the region and nothing else of it.
Source: `sys/trans.cpp` `trans_init`
Kind: P -/
theorem transMapped_transInit (h : TransReady pages t)
    (habsent : Pte.present (t.mem (Pte.addr t.root false) 511) = false)
    (hok : transInit pages t = .ok t') : ∃ d, TransMapped t' d := by
  unfold transInit at hok
  cases hd : pages t.allocated with
  | none =>
      rw [hd] at hok
      cases hok
  | some d =>
      rw [hd] at hok
      dsimp only at hok
      cases h4 : traversePageTable ⟨transFound d, installTable pages⟩ localTransVmemStart transEnd 4
          .root 0 { t with allocated := t.allocated + 1 } with
      | error e =>
          rw [h4] at hok
          cases hok
      | ok t4 =>
          rw [h4, ok_bind] at hok
          cases hok
          obtain ⟨a, b, c, t3, ha, hb, hc, -, hroot, htop, hsecond, hthird, hfourth, hfound⟩ :=
            @traverse_region pages (transFound d) { t with allocated := t.allocated + 1 } t4 h.fresh
              h.root habsent (fun n page hn => h.free n page ((Nat.le_succ _).trans hn)) h4
          replace ha : pages (t.allocated + 1) = some a := ha
          replace hb : pages (t.allocated + 1 + 1) = some b := hb
          replace hc : pages (t.allocated + 1 + 2) = some c := hc
          replace hroot : t3.root = t.root := hroot
          unfold transFound at hfound
          rw [if_neg (by rw [Tables.read, hfourth]; decide), transEntry_eq (h.fresh.2 _ _ hd)] at hfound
          cases hfound
          refine ⟨d, @transMapped_of_found pages t _ a b c d _ _ _ _ t3 h ha hb hc hd (by omega)
            (by omega) le_rfl hroot rfl (fun q j => ?_) htop hsecond hthird hfourth⟩
          by_cases hq : q = pfnToAddr d
          · rw [if_pos hq, hq]
            exact clearPage_self _ _ _
          · rw [if_neg hq, clearPage_of_ne _ hq, write_slot]

/-- **The other cores** clear what they have copied of the region, and map a page of their own.
Source: `sys/trans.cpp` `trans_ap_init`
Kind: P -/
theorem transMapped_transApInit (h : TransReady pages t) (hok : transApInit pages t = .ok t') :
    ∃ d, TransMapped t' d := by
  have hidx : ptIndex localTransVmemStart 3 = 511 := by decide +kernel
  unfold transApInit at hok
  dsimp only at hok
  rw [hidx] at hok
  have habsent : Pte.present ((t.write 0 (.slot (Pte.addr t.root false) 511)).mem
      (Pte.addr t.root false) 511) = false := by
    rw [write_mem, if_pos rfl]
    rfl
  obtain ⟨a, b, c, t3, ha, hb, hc, halloc, hroot, htop, hsecond, hthird, hfourth, hfound⟩ :=
    @traverse_region pages (transApFound pages) (t.write 0 (.slot (Pte.addr t.root false) 511)) t'
      h.fresh h.root habsent h.free hok
  replace ha : pages t.allocated = some a := ha
  replace hb : pages (t.allocated + 1) = some b := hb
  replace hc : pages (t.allocated + 2) = some c := hc
  replace halloc : t3.allocated = t.allocated + 3 := halloc
  replace hroot : t3.root = t.root := hroot
  unfold transApFound at hfound
  rw [if_neg (by rw [Tables.read, hfourth]; decide), halloc] at hfound
  cases hd : pages (t.allocated + 3) with
  | none =>
      rw [hd] at hfound
      cases hfound
  | some d =>
      rw [hd] at hfound
      dsimp only at hfound
      rw [transEntry_eq (h.fresh.2 _ _ hd)] at hfound
      cases hfound
      refine ⟨d, @transMapped_of_found pages t _ a b c d _ _ _ _ t3 h ha hb hc hd (by omega)
        (by omega) (by omega) hroot rfl (fun q j => ?_) htop hsecond hthird hfourth⟩
      rw [write_slot]
      have hcd : pfnToAddr c ≠ pfnToAddr d := pfnToAddr_ne h.fresh hc hd (by omega)
      by_cases hq : q = pfnToAddr d
      · rw [if_pos hq, if_neg fun heq => hcd (heq.1.symm.trans hq), hq]
        exact clearPage_self _ _ _
      · rw [if_neg hq, clearPage_of_ne _ hq]

end Traverse

/-! ## Usable ids -/

/-- How many entries there are on the page that is mapped.
Source: `sys/trans.cpp` `trans_init`
Kind: D -/
def idsMapped : ℕ := pageSize / sizeofLocalEntry

/-- All bytes of the entry for the id are mapped.
Source: `sys/trans.hpp` `EbbRef`, `cache_ref`
Kind: D -/
def EntryMapped (t : Tables) (id : ℕ) : Prop :=
  ∀ i < sizeofLocalEntry, (x86Walk t (localEntry id + i)).isSome = true

/-- **The ids that can be used** are those with an entry on the page.
Source: `sys/trans.hpp` `EbbRef`, `sys/trans.cpp` `trans_init`
Kind: P -/
theorem TransMapped.entryMapped_iff {t : Tables} {page id : ℕ} (h : TransMapped t page)
    (hid : id < 2 ^ 29) : EntryMapped t id ↔ id < idsMapped := by
  have hids : idsMapped = 512 := by decide
  have hentry : ∀ i < sizeofLocalEntry,
      localEntry id + i = localTransVmemStart + (sizeofLocalEntry * id + i) := by
    intro i _
    unfold localEntry sizeofLocalEntry localTransVmemStart word
    omega
  have hwalk : ∀ i < sizeofLocalEntry, (x86Walk t (localEntry id + i)).isSome = true ↔
      sizeofLocalEntry * id + i < pageSize := by
    intro i hi
    have hoff : sizeofLocalEntry * id + i < 2 ^ 32 := by
      unfold sizeofLocalEntry at hi ⊢
      omega
    rw [hentry i hi, h.walk _ hoff]
    by_cases hlt : sizeofLocalEntry * id + i < pageSize
    · simp [hlt]
    · simp [hlt]
  rw [hids]
  constructor
  · intro hmapped
    have hfirst := (hwalk 0 (by decide)).mp (hmapped 0 (by decide))
    unfold sizeofLocalEntry at hfirst
    rw [pageSize_eq] at hfirst
    omega
  · intro hlt i hi
    refine (hwalk i hi).mpr ?_
    unfold sizeofLocalEntry at hi ⊢
    rw [pageSize_eq]
    omega

end EbbRT
