import EbbRT.Mem.PageTableEntry

/-!
# What a traversal does to the page tables

`traversePageTable_spec`: from an entry that fits its block, a traversal with callbacks that keep a
contract either stops for a reason the contract allows, or gives every address of the range in the
block the translation that the contract promises and leaves every other translation as it was. The
induction is on the level; inside it `forSlots_spec` runs over the slots.
-/

namespace EbbRT

open EbbRT.Lib EbbRT.Lib.Radix

/-! ## The invariant -/

/-- The table at an address is for the block of the level above that starts there.
Source: none: infrastructure
Kind: D -/
abbrev Owner := ℕ → Option (ℕ × ℕ)

/-- The entry is the one for the block at `level` that starts at `base`.
Source: none: infrastructure
Kind: D -/
def Located (own : Owner) (level base : ℕ) : Entry → Prop
  | .root => level = 4 ∧ base = 0
  | .slot pt idx => idx < 512 ∧ ∃ c, own pt = some (level, c) ∧
      base = c + idx * pageRadix.width level

/-- The pages of the stream are distinct and have physical addresses (52 bits).
Source: `sys/early_page_allocator.hpp` `early_allocate_page`
Kind: D -/
def FreshPages (pages : ℕ → Option ℕ) : Prop :=
  (∀ m n page, pages m = some page → pages n = some page → m = n) ∧
    ∀ n page, pages n = some page → page < 2 ^ 40

/-- The tables are a tree as `own` says, with blocks as `leafOk` wants them, and the pages that are
still to be allocated are no tables.
Source: `sys/vmem.cpp` `page_table_root`
Kind: D -/
structure TablesOk (pages : ℕ → Option ℕ) (leafOk : ℕ → ℕ → ℕ → Prop) (own : Owner) (t : Tables) :
    Prop where
  wf : pageRadix.Wf pteView own leafOk t.mem
  root : EntryOk own leafOk 4 0 (pteView 4 t.root)
  fresh : ∀ n page, t.allocated ≤ n → pages n = some page → own (pfnToAddr page) = none

/-- From one state of the tables to another: tables keep their blocks, only slots at level `top` at
most and in `[lo, up)` changed, and only pointers to tables were followed.
Source: `sys/vmem.hpp` `traverse_page_table`
Kind: D -/
structure Effect (pages : ℕ → Option ℕ) (leafOk : ℕ → ℕ → ℕ → Prop) (own own' : Owner)
    (t t' : Tables) (top lo up : ℕ) : Prop where
  owned : Extends own own'
  ok : TablesOk pages leafOk own' t'
  changes : pageRadix.Changes own' t.mem t'.mem top lo up
  root : top < 4 → t'.root = t.root
  descents : ∀ d ∈ t'.descents, d ∈ t.descents ∨ ∃ pt, pteView d.1 d.2 = .table pt

section Effects

variable {pages : ℕ → Option ℕ} {leafOk : ℕ → ℕ → ℕ → Prop} {own own' own'' : Owner}
  {t t' t'' : Tables} {top lo up level base raw va : ℕ} {e : Entry}

/-- What is read where an entry is located fits its block. Source: none: infrastructure. Kind: L -/
theorem TablesOk.located (h : TablesOk pages leafOk own t) (he : Located own level base e) :
    EntryOk own leafOk level base (pteView level (t.read e)) := by
  cases e with
  | root =>
      obtain ⟨rfl, rfl⟩ := he
      exact h.root
  | slot pt idx =>
      obtain ⟨hidx, c, hpt, rfl⟩ := he
      exact h.wf.entry pt level c hpt idx hidx

/-- Blocks of entries are aligned. Source: none: infrastructure. Kind: L -/
theorem TablesOk.aligned (h : TablesOk pages leafOk own t) (he : Located own level base e) :
    pageRadix.width level ∣ base := by
  cases e with
  | root =>
      obtain ⟨rfl, rfl⟩ := he
      exact dvd_zero _
  | slot pt idx =>
      obtain ⟨hidx, c, hpt, rfl⟩ := he
      exact pageRadix.dvd_slot (h.wf.aligned pt level c hpt)

/-- Source: none: infrastructure. Kind: L -/
theorem Located.mono (h : Extends own own') (he : Located own level base e) :
    Located own' level base e := by
  cases e with
  | root => exact he
  | slot pt idx =>
      obtain ⟨hidx, c, hpt, hb⟩ := he
      exact ⟨hidx, c, h pt _ hpt, hb⟩

/-- Source: none: infrastructure. Kind: L -/
theorem Effect.refl (h : TablesOk pages leafOk own t) :
    Effect pages leafOk own own t t top lo up :=
  ⟨Extends.refl own, h, pageRadix.changes_refl, fun _ => rfl, fun _ hd => Or.inl hd⟩

/-- Effects one after another. Source: none: infrastructure. Kind: L -/
theorem Effect.trans (h : Effect pages leafOk own own' t t' top lo up)
    (h' : Effect pages leafOk own' own'' t' t'' top lo up) :
    Effect pages leafOk own own'' t t'' top lo up where
  owned := h.owned.trans h'.owned
  ok := h'.ok
  changes := Changes.trans _ h'.owned h.changes h'.changes
  root ht := (h'.root ht).trans (h.root ht)
  descents d hd := (h'.descents d hd).elim (h.descents d) Or.inr

/-- Source: none: infrastructure. Kind: L -/
theorem Effect.mono {top' lo' up' : ℕ} (h : Effect pages leafOk own own' t t' top lo up)
    (ht : top ≤ top') (hlo : lo' ≤ lo) (hup : up ≤ up') :
    Effect pages leafOk own own' t t' top' lo' up' where
  owned := h.owned
  ok := h.ok
  changes := Changes.mono _ h.changes ht hlo hup
  root ht' := h.root (ht.trans_lt ht')
  descents := h.descents

/-- An entry outside the changes is as it was. Source: none: infrastructure. Kind: L -/
theorem Effect.read_eq (h : Effect pages leafOk own own' t t' top lo up)
    (he : Located own level base e)
    (hout : top < level ∨ base < lo ∨ up < base + pageRadix.width level) :
    (e = .root → top < 4) → t'.read e = t.read e := by
  intro hroot
  cases e with
  | root => exact h.root (hroot rfl)
  | slot pt idx =>
      obtain ⟨hidx, c, hpt, rfl⟩ := he
      apply Changes.slot_eq _ h.owned h.changes hpt hidx
      rw [Nat.succ_mul, ← Nat.add_assoc]
      exact hout

/-- Addresses outside the changes are translated as before. Source: none: infrastructure. Kind: L -/
theorem Effect.translate_eq (hok : TablesOk pages leafOk own t)
    (h : Effect pages leafOk own own' t t' top lo up)
    (he : EntryOk own leafOk level base (pteView level raw))
    (hin : pageRadix.InBlock level base va) (hout : va < lo ∨ up ≤ va) :
    translate t' level raw va = translate t level raw va := by
  unfold translate
  rw [walk_frame _ hok.wf h.owned h.changes hout he hin]

/-- The address of a page of the stream. Source: `sys/pfn.hpp` `pfn_to_addr`. Kind: L -/
theorem pfnToAddr_eq {page : ℕ} (h : page < 2 ^ 40) : pfnToAddr page = page * 2 ^ 12 :=
  pfnToAddr_of_lt (h.trans (by decide))

/-- A slot after a write. Source: none: infrastructure. Kind: L -/
theorem write_mem (t : Tables) (raw : ℕ) (e : Entry) (pt idx : ℕ) :
    (t.write raw e).mem pt idx = if e = .slot pt idx then raw else t.mem pt idx := by
  cases e with
  | root => simp [Tables.write]
  | slot pt' idx' =>
      unfold Tables.write
      by_cases hpt : pt = pt'
      · subst hpt
        by_cases hidx : idx = idx'
        · subst hidx
          simp
        · simp [hidx, Ne.symm hidx]
      · simp [hpt, Ne.symm hpt]

/-- Source: none: infrastructure. Kind: L -/
@[simp]
theorem read_write (t : Tables) (raw : ℕ) (e : Entry) : (t.write raw e).read e = raw := by
  cases e with
  | root => rfl
  | slot pt idx =>
      show (t.write raw (.slot pt idx)).mem pt idx = raw
      rw [write_mem, if_pos rfl]

/-- Writing what is there changes nothing. Source: none: infrastructure. Kind: L -/
theorem write_read (t : Tables) (e : Entry) : t.write (t.read e) e = t := by
  cases e with
  | root => rfl
  | slot pt idx =>
      unfold Tables.write Tables.read
      simp

/-- Source: none: infrastructure. Kind: L -/
@[simp]
theorem write_allocated (t : Tables) (raw : ℕ) (e : Entry) :
    (t.write raw e).allocated = t.allocated := by
  cases e <;> rfl

/-- Source: none: infrastructure. Kind: L -/
@[simp]
theorem write_descents (t : Tables) (raw : ℕ) (e : Entry) :
    (t.write raw e).descents = t.descents := by
  cases e <;> rfl

/-- Source: none: infrastructure. Kind: L -/
theorem write_root (t : Tables) (raw : ℕ) (e : Entry) :
    (t.write raw e).root = if e = .root then raw else t.root := by
  cases e <;> simp [Tables.write]

/-- Source: `sys/vmem.cpp` `early_map_memory`. Kind: L -/
theorem clearPage_self (t : Tables) (pt idx : ℕ) : (t.clearPage pt).mem pt idx = 0 := by
  unfold Tables.clearPage
  simp

/-- Source: `sys/vmem.cpp` `early_map_memory`. Kind: L -/
theorem clearPage_of_ne (t : Tables) {pt pt' : ℕ} (h : pt' ≠ pt) (idx : ℕ) :
    (t.clearPage pt).mem pt' idx = t.mem pt' idx := by
  unfold Tables.clearPage
  simp [h]

/-- Only the entry changes. Source: none: infrastructure. Kind: L -/
theorem changes_write {pt idx : ℕ} (he : Located own level base e)
    (hne : (t.write raw e).mem pt idx ≠ t.mem pt idx) :
    ∃ c, own pt = some (level, c) ∧ base = c + idx * pageRadix.width level := by
  rw [write_mem] at hne
  by_cases heq : e = .slot pt idx
  · subst heq
    exact he.2
  · rw [if_neg heq] at hne
    exact (hne rfl).elim

/-- **A write of an entry that fits its place.** Source: none: infrastructure. Kind: P -/
theorem Effect.write (h : TablesOk pages leafOk own t) (he : Located own level base e)
    (hraw : EntryOk own leafOk level base (pteView level raw)) :
    Effect pages leafOk own own t (t.write raw e) level base
      (base + pageRadix.width level) where
  owned := Extends.refl own
  ok := {
    wf := {
      aligned := h.wf.aligned
      entry := by
        intro pt k c hpt idx hidx
        rw [write_mem]
        by_cases heq : e = .slot pt idx
        · subst heq
          obtain ⟨_, c', hpt', hb⟩ := he
          rw [hpt] at hpt'
          cases hpt'
          rw [if_pos rfl, ← hb]
          exact hraw
        · rw [if_neg heq]
          exact h.wf.entry pt k c hpt idx hidx }
    root := by
      rw [write_root]
      by_cases heq : e = .root
      · subst heq
        obtain ⟨rfl, rfl⟩ := he
        rw [if_pos rfl]
        exact hraw
      · rw [if_neg heq]
        exact h.root
    fresh := by
      intro n page hn
      rw [write_allocated] at hn
      exact h.fresh n page hn }
  changes := by
    intro pt idx hidx hne
    obtain ⟨c, hpt, hb⟩ := changes_write he hne
    refine ⟨level, c, hpt, le_rfl, hb.le, ?_⟩
    rw [Nat.succ_mul, ← Nat.add_assoc, hb]
  root := by
    intro hlt
    rw [write_root, if_neg]
    rintro rfl
    obtain ⟨rfl, _⟩ := he
    omega
  descents := by
    intro d hd
    rw [write_descents] at hd
    exact Or.inl hd

/-- Following a pointer is recorded, and changes nothing else.
Source: `sys/vmem.hpp` `traverse_page_table`
Kind: L -/
theorem Effect.descend {d : ℕ × ℕ} {pt : ℕ} (h : TablesOk pages leafOk own t)
    (hd : pteView d.1 d.2 = .table pt) :
    Effect pages leafOk own own t { t with descents := d :: t.descents } top lo up where
  owned := Extends.refl own
  ok := ⟨h.wf, h.root, h.fresh⟩
  changes := pageRadix.changes_refl
  root _ := rfl
  descents d' hd' := by
    rcases List.mem_cons.mp hd' with rfl | hd'
    · exact Or.inr ⟨pt, hd⟩
    · exact Or.inl hd'

/-- **A fresh page becomes a table.** Source: `sys/vmem.cpp` `early_map_memory`. Kind: P -/
theorem Effect.install {page k : ℕ} (hpages : FreshPages pages) (h : TablesOk pages leafOk own t)
    (he : Located own (k + 1) base e) (hpage : pages t.allocated = some page) :
    Effect pages leafOk own (Function.update own (pfnToAddr page) (some (k, base))) t
      (t.install page e) (k + 1) base (base + pageRadix.width (k + 1)) := by
  have hnone : own (pfnToAddr page) = none := h.fresh _ _ le_rfl hpage
  have hext : Extends own (Function.update own (pfnToAddr page) (some (k, base))) := by
    intro p x hp
    have hne : p ≠ pfnToAddr page := by
      rintro rfl
      rw [hnone] at hp
      cases hp
    rw [Function.update_of_ne hne]
    exact hp
  have hlt := hpages.2 _ _ hpage
  have haddr := pfnToAddr_eq hlt
  -- the page is cleared and owned first; the entry is then one write
  have hclear : Effect pages leafOk own (Function.update own (pfnToAddr page) (some (k, base))) t
      (Tables.clearPage { t with allocated := t.allocated + 1 } (pfnToAddr page)) (k + 1) base
      (base + pageRadix.width (k + 1)) := by
    refine ⟨hext, ⟨⟨?_, ?_⟩, h.root.mono hext, ?_⟩, ?_, fun _ => rfl, fun _ hd => Or.inl hd⟩
    · intro p k' c hp
      by_cases heq : p = pfnToAddr page
      · subst heq
        rw [Function.update_self] at hp
        cases hp
        exact h.aligned he
      · rw [Function.update_of_ne heq] at hp
        exact h.wf.aligned p k' c hp
    · intro p k' c hp idx hidx
      by_cases heq : p = pfnToAddr page
      · subst heq
        rw [clearPage_self, pteView_zero]
        trivial
      · rw [Function.update_of_ne heq] at hp
        rw [clearPage_of_ne _ heq]
        exact (h.wf.entry p k' c hp idx hidx).mono hext
    · intro n page' hn hpage'
      have hn : t.allocated + 1 ≤ n := hn
      have hne : pfnToAddr page' ≠ pfnToAddr page := by
        rw [haddr, pfnToAddr_eq (hpages.2 _ _ hpage')]
        intro heq
        have : page' = page := by omega
        subst this
        have := hpages.1 _ _ _ hpage hpage'
        omega
      rw [Function.update_of_ne hne]
      exact h.fresh n page' (by omega) hpage'
    · intro p idx hidx hne
      by_cases heq : p = pfnToAddr page
      · subst heq
        exact ⟨k, base, Function.update_self _ _ _, Nat.le_succ k, Nat.le_add_right _ _,
          pageRadix.slot_le hidx⟩
      · exact (hne (clearPage_of_ne _ heq idx)).elim
  have hentry : EntryOk (Function.update own (pfnToAddr page) (some (k, base))) leafOk (k + 1) base
      (pteView (k + 1) (Pte.setNormal (pfnToAddr page))) := by
    rw [pteView_setNormal (by rw [haddr]; exact Dvd.intro_left page rfl) (by omega)]
    exact ⟨k, rfl, Function.update_self _ _ _⟩
  exact hclear.trans (Effect.write hclear.ok (he.mono hext) hentry)

/-- Source: `sys/vmem.cpp` `early_map_memory`. Kind: L -/
theorem install_read {page k : ℕ} (hpages : FreshPages pages) (hpage : pages t.allocated = some page) :
    pteView (k + 1) ((t.install page e).read e) = .table (pfnToAddr page) := by
  have hlt := hpages.2 _ _ hpage
  have haddr := pfnToAddr_eq hlt
  unfold Tables.install
  rw [read_write]
  exact pteView_setNormal (by rw [haddr]; exact Dvd.intro_left page rfl) (by omega)

/-- The slots of the new table are clear. Source: `sys/vmem.cpp` `early_map_memory`. Kind: L -/
theorem install_mem {page idx : ℕ} (h : TablesOk pages leafOk own t) (he : Located own level base e)
    (hpage : pages t.allocated = some page) : (t.install page e).mem (pfnToAddr page) idx = 0 := by
  unfold Tables.install
  rw [write_mem, if_neg]
  · exact clearPage_self _ _ _
  · rintro rfl
    obtain ⟨_, b, hb, _⟩ := he
    rw [h.fresh _ _ le_rfl hpage] at hb
    cases hb

/-- A cleared slot is no pointer. Source: `sys/vmem.hpp` `pte::pte`. Kind: L -/
theorem pteView_zero_ne_table (level p : ℕ) : pteView level 0 ≠ .table p := by
  rw [pteView_zero]
  simp

end Effects

/-! ## A stream of pages -/

/-- A stream of pages from `0x100` on. Source: none: infrastructure. Kind: D -/
def firstPages (n : ℕ) : Option ℕ := if n < 2 ^ 20 then some (0x100 + n) else none

/-- Source: none: infrastructure. Kind: L -/
theorem freshPages_firstPages : FreshPages firstPages := by
  constructor
  · intro m n page hm hn
    unfold firstPages at hm hn
    split at hm
    · split at hn
      · simp only [Option.some.injEq] at hm hn
        omega
      · cases hn
    · cases hm
  · intro n page hn
    unfold firstPages at hn
    split at hn
    · simp only [Option.some.injEq] at hn
      omega
    · cases hn

/-- Why a call did not return, if it did not. Source: none: infrastructure. Kind: D -/
def stopOf {α : Type} : Except Abort α → Option Abort
  | .ok _ => none
  | .error a => some a

/-! ## The contract of the callbacks -/

/-- The block is a page wholly inside the range: `found` is called for it.
Source: `sys/vmem.hpp` `traverse_page_table`
Kind: D -/
def Whole (virtStart virtEnd level base : ℕ) : Prop :=
  level < numPageSizes ∧ virtStart ≤ base ∧ base + pageRadix.width level ≤ virtEnd

/-- On entries that meet `foundOk`, `found` writes an entry that translates the block as `target`
does; on absent entries that meet `enterOk`, `empty` installs a table or stops as it may.
Source: `sys/vmem.hpp` `traverse_page_table`
Kind: D -/
structure Contract (pages : ℕ → Option ℕ) (leafOk : ℕ → ℕ → ℕ → Prop) (virtStart virtEnd : ℕ)
    (foundOk enterOk : ℕ → ℕ → Prop) (target : ℕ → Option ℕ) (stop : Abort → Prop)
    (c : Callbacks) : Prop where
  found : ∀ own t e level base, Whole virtStart virtEnd level base → pageRadix.width level ∣ base →
    EntryOk own leafOk level base (pteView level (t.read e)) → foundOk level (t.read e) →
    ∃ raw, c.found e base level t = .ok (t.write raw e) ∧
      (∀ own', EntryOk own' leafOk level base (pteView level raw)) ∧
      ∀ va, pageRadix.InBlock level base va → blockTranslate level raw va = target va
  empty : ∀ t e level, pteView level (t.read e) = .absent → enterOk level (t.read e) →
    (∃ a, c.empty e t = .error a ∧ stop a) ∨
      ∃ page, pages t.allocated = some page ∧ c.empty e t = .ok (true, t.install page e)
  enter : ∀ level raw, enterOk level raw → ∀ a, pteView level raw ≠ .leaf a
  below : ∀ level raw, pteView level raw = .absent → enterOk level raw →
    ∀ k, foundOk k 0 ∧ enterOk k 0

/-- Every entry that resolving the address passes is one the traversal can handle.
Source: `sys/vmem.hpp` `traverse_page_table`
Kind: D -/
def Ready (virtStart virtEnd : ℕ) (foundOk enterOk : ℕ → ℕ → Prop) (t : Tables)
    (level raw va : ℕ) : Prop :=
  ∀ x ∈ pageRadix.trace pteView t.mem level raw va,
    (Whole virtStart virtEnd x.1 (va / pageRadix.width x.1 * pageRadix.width x.1) →
      foundOk x.1 x.2) ∧
    (¬ Whole virtStart virtEnd x.1 (va / pageRadix.width x.1 * pageRadix.width x.1) →
      enterOk x.1 x.2)

/-- The addresses of the range that lie in `[lo, up)` are translated as `target` does, the others as
before.
Source: none: infrastructure
Kind: D -/
def Retargeted (virtStart virtEnd : ℕ) (target : ℕ → Option ℕ) (lo up va : ℕ)
    (before after : Option ℕ) : Prop :=
  after = if (lo ≤ va ∧ va < up) ∧ virtStart ≤ va ∧ va < virtEnd then target va else before

/-- How a call may end: it stops as it may, or it returns tables as `P` wants them.
Source: none: infrastructure
Kind: D -/
def Outcome (stop : Abort → Prop) (P : Owner → Tables → Prop) : Except Abort Tables → Prop
  | .error a => stop a
  | .ok t' => ∃ own', P own' t'

/-- Source: none: infrastructure. Kind: L -/
theorem Outcome.mono {stop : Abort → Prop} {P Q : Owner → Tables → Prop} {r : Except Abort Tables}
    (h : Outcome stop P r) (hPQ : ∀ own' t', P own' t' → Q own' t') : Outcome stop Q r := by
  cases r with
  | error a => exact h
  | ok t' =>
      obtain ⟨own', hP⟩ := h
      exact ⟨own', hPQ own' t' hP⟩

section Traverse

variable {pages : ℕ → Option ℕ} {leafOk : ℕ → ℕ → ℕ → Prop} {virtStart virtEnd : ℕ}
  {foundOk enterOk : ℕ → ℕ → Prop} {target : ℕ → Option ℕ} {stop : Abort → Prop} {c : Callbacks}

/-- What is promised of a call for the entry `e` of the block at `level` that starts at `base`.
Source: none: infrastructure
Kind: D -/
def EntrySpec (pages : ℕ → Option ℕ) (leafOk : ℕ → ℕ → ℕ → Prop) (virtStart virtEnd : ℕ)
    (foundOk enterOk : ℕ → ℕ → Prop) (target : ℕ → Option ℕ) (stop : Abort → Prop) (level base : ℕ)
    (e : Entry) (call : Tables → Except Abort Tables) : Prop :=
  ∀ own t, TablesOk pages leafOk own t → Located own level base e →
    virtStart < base + pageRadix.width level → base < virtEnd →
    base + pageRadix.width level ≤ 2 ^ 48 →
    (∀ va, pageRadix.InBlock level base va → virtStart ≤ va → va < virtEnd →
      Ready virtStart virtEnd foundOk enterOk t level (t.read e) va) →
    Outcome stop
      (fun own' t' =>
        Effect pages leafOk own own' t t' level base (base + pageRadix.width level) ∧
          (∀ va, pageRadix.InBlock level base va →
            Retargeted virtStart virtEnd target base (base + pageRadix.width level) va
              (translate t level (t.read e) va) (translate t' level (t'.read e) va)) ∧
          (¬ Whole virtStart virtEnd level base → ∃ pt, pteView level (t'.read e) = .table pt))
      (call t)

/-- A call that is promised for one slot of a table, seen from the whole table: the other slots
translate as before.
Source: `sys/vmem.hpp` `traverse_page_table`
Kind: L -/
theorem retargeted_table {own own' : Owner} {t t' : Tables} {k pt idx b va : ℕ}
    (hok : TablesOk pages leafOk own t) (hpt : own pt = some (k, b)) (hidx : idx < 512)
    (heff : Effect pages leafOk own own' t t' k (b + idx * pageRadix.width k)
      (b + idx * pageRadix.width k + pageRadix.width k))
    (hslot : ∀ va, pageRadix.InBlock k (b + idx * pageRadix.width k) va →
      Retargeted virtStart virtEnd target (b + idx * pageRadix.width k)
        (b + idx * pageRadix.width k + pageRadix.width k) va
        (translate t k (t.mem pt idx) va) (translate t' k (t'.mem pt idx) va))
    (hva : pageRadix.InBlock (k + 1) b va) :
    Retargeted virtStart virtEnd target (b + idx * pageRadix.width k)
      (b + idx * pageRadix.width k + pageRadix.width k) va
      (translate t k (t.mem pt (pageRadix.digit k va)) va)
      (translate t' k (t'.mem pt (pageRadix.digit k va)) va) := by
  have hal := hok.wf.aligned pt k b hpt
  have hin := pageRadix.inBlock_digit hal hva
  by_cases heq : pageRadix.digit k va = idx
  · rw [heq] at hin ⊢
    exact hslot va hin
  · have hout : va < b + idx * pageRadix.width k ∨
        b + idx * pageRadix.width k + pageRadix.width k ≤ va := by
      by_contra hcon
      exact heq (pageRadix.digit_add hal hidx ⟨by omega, by omega⟩)
    have hsame : t'.mem pt (pageRadix.digit k va) = t.mem pt (pageRadix.digit k va) := by
      apply Changes.slot_eq _ heff.owned heff.changes hpt (pageRadix.digit_lt k va)
      have := hin.1
      have := hin.2
      rw [Nat.succ_mul]
      omega
    unfold Retargeted
    rw [if_neg (by omega), hsame]
    exact heff.translate_eq hok (hok.wf.entry pt k b hpt _ (pageRadix.digit_lt k va)) hin hout

/-- First `[lo, mid)`, then `[mid, up)`. Source: none: infrastructure. Kind: L -/
theorem Retargeted.trans {lo mid up va : ℕ} {r r' r'' : Option ℕ} (hlo : lo ≤ mid) (hup : mid ≤ up)
    (h : Retargeted virtStart virtEnd target lo mid va r r')
    (h' : Retargeted virtStart virtEnd target mid up va r' r'') :
    Retargeted virtStart virtEnd target lo up va r r'' := by
  unfold Retargeted at *
  rw [h', h]
  by_cases h1 : mid ≤ va
  · by_cases h2 : (mid ≤ va ∧ va < up) ∧ virtStart ≤ va ∧ va < virtEnd
    · rw [if_pos h2, if_pos (by omega)]
    · rw [if_neg h2, if_neg (by omega), if_neg (by omega)]
  · rw [if_neg (by omega)]
    by_cases h2 : (lo ≤ va ∧ va < mid) ∧ virtStart ≤ va ∧ va < virtEnd
    · rw [if_pos h2, if_pos (by omega)]
    · rw [if_neg h2, if_neg (by omega)]

/-- Slots whose blocks do not overlap the changes are still ready.
Source: none: infrastructure
Kind: L -/
theorem Ready.frame {own own' : Owner} {t t' : Tables} {top lo up level base raw va : ℕ}
    (hok : TablesOk pages leafOk own t) (heff : Effect pages leafOk own own' t t' top lo up)
    (he : EntryOk own leafOk level base (pteView level raw))
    (hin : pageRadix.InBlock level base va) (hout : va < lo ∨ up ≤ va)
    (h : Ready virtStart virtEnd foundOk enterOk t level raw va) :
    Ready virtStart virtEnd foundOk enterOk t' level raw va := by
  unfold Ready
  rw [trace_frame _ hok.wf heff.owned heff.changes hout he hin]
  exact h

/-- **The loop over the slots.** By induction on the number of slots left: the first one is promised
by `hslot`, and what it changes is outside the blocks of the others.
Source: `sys/vmem.hpp` `traverse_page_table`
Kind: P -/
theorem forSlots_spec {k pt b : ℕ} {slot : ℕ → ℕ → Tables → Except Abort Tables}
    (hve : virtEnd ≤ 2 ^ 47) (hb : b + pageRadix.width (k + 1) ≤ 2 ^ 48)
    (hslot : ∀ idx, EntrySpec pages leafOk virtStart virtEnd foundOk enterOk target stop k
      (b + idx * pageRadix.width k) (.slot pt idx) (slot idx (b + idx * pageRadix.width k)))
    (n idx base : ℕ) (own : Owner) (t : Tables) (hok : TablesOk pages leafOk own t)
    (hpt : own pt = some (k, b)) (hn : idx + n ≤ 512)
    (hbase : 0 < n → base = b + idx * pageRadix.width k)
    (hover : ∀ i, idx ≤ i → i < idx + n →
      virtStart < b + i * pageRadix.width k + pageRadix.width k ∧
        b + i * pageRadix.width k < virtEnd)
    (hready : ∀ va, pageRadix.InBlock (k + 1) b va → b + idx * pageRadix.width k ≤ va →
      virtStart ≤ va → va < virtEnd →
      Ready virtStart virtEnd foundOk enterOk t k (t.mem pt (pageRadix.digit k va)) va) :
    Outcome stop
      (fun own' t' =>
        Effect pages leafOk own own' t t' k (b + idx * pageRadix.width k)
          (b + (idx + n) * pageRadix.width k) ∧
          ∀ va, pageRadix.InBlock (k + 1) b va →
            Retargeted virtStart virtEnd target (b + idx * pageRadix.width k)
              (b + (idx + n) * pageRadix.width k) va
              (translate t k (t.mem pt (pageRadix.digit k va)) va)
              (translate t' k (t'.mem pt (pageRadix.digit k va)) va))
      (forSlots slot (pageRadix.width k) n idx base t) := by
  induction n generalizing idx base own t with
  | zero =>
      refine ⟨own, Effect.refl hok, fun va _ => ?_⟩
      unfold Retargeted
      rw [Nat.add_zero, if_neg (by omega)]
  | succ n ih =>
      have hbase := hbase (Nat.succ_pos n)
      obtain ⟨hvs, hve'⟩ := hover idx le_rfl (by omega)
      have hidx : idx < 512 := by omega
      have hal := hok.wf.aligned pt k b hpt
      have hslotle : b + (idx + 1) * pageRadix.width k ≤ b + pageRadix.width (k + 1) :=
        pageRadix.slot_le hidx
      have hsucc : b + (idx + 1) * pageRadix.width k
          = b + idx * pageRadix.width k + pageRadix.width k := by
        rw [Nat.succ_mul]
        omega
      have hfirst := hslot idx own t hok ⟨hidx, b, hpt, rfl⟩ hvs hve' (by omega) (by
        intro va hva h1 h2
        have hin : pageRadix.InBlock (k + 1) b va := by
          have := hva.1
          have := hva.2
          exact ⟨by omega, by omega⟩
        have := hready va hin hva.1 h1 h2
        rw [pageRadix.digit_add hal hidx hva] at this
        exact this)
      unfold forSlots
      rw [hbase]
      cases hcall : slot idx (b + idx * pageRadix.width k) t with
      | error a =>
          rw [hcall] at hfirst
          exact hfirst
      | ok t1 =>
          rw [hcall] at hfirst
          obtain ⟨own1, heff1, htr1, _⟩ := hfirst
          have htable := fun va (hva : pageRadix.InBlock (k + 1) b va) =>
            retargeted_table hok hpt hidx heff1 htr1 hva
          have hmono : (idx + 1) * pageRadix.width k ≤ (idx + 1 + n) * pageRadix.width k :=
            Nat.mul_le_mul_right _ (by omega)
          have hrest := ih (idx + 1)
            (canonical ((b + idx * pageRadix.width k + pageRadix.width k) % word)) own1 t1 heff1.ok
            (heff1.owned pt _ hpt) (by omega)
            (by
              intro hn0
              have := (hover (idx + 1) (by omega) (by omega)).2
              rw [hsucc] at this ⊢
              rw [Nat.mod_eq_of_lt (by unfold word; omega), canonical_eq (by omega)])
            (fun i h1 h2 => hover i (by omega) (by omega))
            (by
              intro va hva h1 h2 h3
              have hlt := pageRadix.digit_lt k va
              have hin := pageRadix.inBlock_digit hal hva
              have hne : pageRadix.digit k va ≠ idx := by
                intro heq
                have := hin.2
                rw [heq] at this
                omega
              have hsame : t1.mem pt (pageRadix.digit k va) = t.mem pt (pageRadix.digit k va) := by
                apply Changes.slot_eq _ heff1.owned heff1.changes hpt hlt
                have := hin.2
                rw [Nat.succ_mul]
                omega
              rw [hsame]
              exact (hready va hva (by omega) h2 h3).frame hok heff1
                (hok.wf.entry pt k b hpt _ hlt) hin (Or.inr (by omega)))
          refine hrest.mono ?_
          rintro own' t' ⟨heff2, htr2⟩
          have hend : (idx + 1 + n) * pageRadix.width k = (idx + (n + 1)) * pageRadix.width k := by
            congr 1
            omega
          rw [hend] at heff2 hmono
          refine ⟨(heff1.mono le_rfl le_rfl (by omega)).trans (heff2.mono le_rfl (by omega) le_rfl),
            fun va hva => ?_⟩
          have h2 := htr2 va hva
          rw [hsucc, hend] at h2
          exact (htable va hva).trans (by omega) (by omega) h2

/-- In a block the range overlaps, an address of both. Source: none: infrastructure. Kind: L -/
theorem exists_overlap {level base : ℕ} (hlt : virtStart < virtEnd)
    (h1 : virtStart < base + pageRadix.width level) (h2 : base < virtEnd) :
    pageRadix.InBlock level base (max virtStart base) ∧ virtStart ≤ max virtStart base ∧
      max virtStart base < virtEnd := by
  have := pageRadix.width_pos level
  exact ⟨⟨le_max_right _ _, max_lt h1 (by omega)⟩, le_max_left _ _, max_lt hlt h2⟩

/-- What a ready address says of the entry itself. Source: none: infrastructure. Kind: L -/
theorem Ready.self {t : Tables} {level base raw va : ℕ} (hal : pageRadix.width level ∣ base)
    (hin : pageRadix.InBlock level base va)
    (h : Ready virtStart virtEnd foundOk enterOk t level raw va) :
    (Whole virtStart virtEnd level base → foundOk level raw) ∧
      (¬ Whole virtStart virtEnd level base → enterOk level raw) := by
  have h := h (level, raw) (pageRadix.mem_trace_self)
  rw [pageRadix.base_eq hal hin] at h
  exact h

/-- A block wholly inside the range. Source: `sys/vmem.hpp` `traverse_page_table`. Kind: L -/
theorem found_spec (hc : Contract pages leafOk virtStart virtEnd foundOk enterOk target stop c)
    {level base : ℕ} {e : Entry} (hlt : virtStart < virtEnd)
    (hwhole : Whole virtStart virtEnd level base) :
    EntrySpec pages leafOk virtStart virtEnd foundOk enterOk target stop level base e
      (c.found e base level) := by
  intro own t hok hloc h1 h2 _ hready
  have hal := hok.aligned hloc
  obtain ⟨hin, h3, h4⟩ := exists_overlap hlt h1 h2
  have hfound := ((hready _ hin h3 h4).self hal hin).1 hwhole
  obtain ⟨raw, hcall, hfit, htarget⟩ := hc.found own t e level base hwhole hal (hok.located hloc) hfound
  rw [hcall]
  refine ⟨own, Effect.write hok hloc (hfit own), fun va hva => ?_, fun hnot => (hnot hwhole).elim⟩
  have hend : ∀ p, pteView level raw ≠ .table p := by
    intro p hp
    have := hfit fun _ => none
    rw [hp] at this
    obtain ⟨_, _, hnone⟩ := this
    cases hnone
  obtain ⟨_, h5, h6⟩ := hwhole
  unfold Retargeted
  rw [if_pos ⟨hva, by have := hva.1; omega, by have := hva.2; omega⟩, read_write, ← htarget va hva]
  unfold translate blockTranslate
  rw [pageRadix.walk_end hend]

/-- Going down from an entry that is not for a whole block: it leads to a table for the block
afterwards, nothing is translated otherwise than before, and the slots are ready.
Source: `sys/vmem.hpp` `traverse_page_table`
Kind: L -/
theorem enter_spec (hpages : FreshPages pages)
    (hc : Contract pages leafOk virtStart virtEnd foundOk enterOk target stop c)
    {k base : ℕ} {e : Entry} {own : Owner} {t : Tables} (hlt : virtStart < virtEnd)
    (hwhole : ¬ Whole virtStart virtEnd (k + 1) base) (hok : TablesOk pages leafOk own t)
    (hloc : Located own (k + 1) base e) (h1 : virtStart < base + pageRadix.width (k + 1))
    (h2 : base < virtEnd)
    (hready : ∀ va, pageRadix.InBlock (k + 1) base va → virtStart ≤ va → va < virtEnd →
      Ready virtStart virtEnd foundOk enterOk t (k + 1) (t.read e) va) :
    (∃ a, enter c e t = .error a ∧ stop a) ∨
      ∃ own1 t1 pt, enter c e t = .ok (true, t1) ∧
        Effect pages leafOk own own1 t t1 (k + 1) base (base + pageRadix.width (k + 1)) ∧
        pteView (k + 1) (t1.read e) = .table pt ∧ own1 pt = some (k, base) ∧
        (∀ va, pageRadix.InBlock (k + 1) base va →
          translate t1 (k + 1) (t1.read e) va = translate t (k + 1) (t.read e) va) ∧
        ∀ va, pageRadix.InBlock (k + 1) base va → virtStart ≤ va → va < virtEnd →
          Ready virtStart virtEnd foundOk enterOk t1 k (t1.mem pt (pageRadix.digit k va)) va := by
  have hal := hok.aligned hloc
  obtain ⟨hin, h3, h4⟩ := exists_overlap hlt h1 h2
  have henter := ((hready _ hin h3 h4).self hal hin).2 hwhole
  have hfit := hok.located hloc
  unfold enter
  cases hv : pteView (k + 1) (t.read e) with
  | leaf a => exact (hc.enter _ _ henter a hv).elim
  | table pt =>
      have hpres : Pte.present (t.read e) = true := by
        by_contra hnot
        rw [pteView_absent.mpr (by simpa using hnot)] at hv
        cases hv
      rw [if_pos hpres]
      rw [hv] at hfit
      obtain ⟨k', hk', hpt⟩ := hfit
      cases hk'
      refine Or.inr ⟨own, t, pt, rfl, Effect.refl hok, hv, hpt, fun _ _ => rfl, ?_⟩
      intro va hva hs he x hx
      apply hready va hva hs he x
      rw [pageRadix.trace_table hv]
      exact List.mem_cons_of_mem _ hx
  | absent =>
      have hpres : Pte.present (t.read e) = false := pteView_absent.mp hv
      rw [if_neg (by rw [hpres]; exact Bool.false_ne_true)]
      obtain ⟨a, ha, hstop⟩ | ⟨page, hpage, hcall⟩ := hc.empty t e (k + 1) hv henter
      · exact Or.inl ⟨a, ha, hstop⟩
      · right
        have heff := Effect.install hpages hok hloc hpage
        have htable : pteView (k + 1) ((t.install page e).read e) = .table (pfnToAddr page) :=
          install_read hpages hpage
        have hclear : ∀ idx, (t.install page e).mem (pfnToAddr page) idx = 0 :=
          fun _ => install_mem hok hloc hpage
        refine ⟨_, _, _, hcall, heff, htable, Function.update_self _ _ _, ?_, ?_⟩
        · intro va _
          unfold translate
          rw [pageRadix.walk_table htable, hclear, pageRadix.walk_end (pteView_zero_ne_table k),
            pageRadix.walk_end (by simp [hv])]
          simp [leafOf, hv, pteView_zero]
        · intro va _ _ _ x hx
          rw [hclear, pageRadix.trace_end (pteView_zero_ne_table k)] at hx
          rw [List.mem_singleton.mp hx]
          have hbelow := hc.below _ _ hv henter k
          exact ⟨fun _ => hbelow.1, fun _ => hbelow.2⟩

/-- The last address of the block, as the code compares it with the end of the range.
Source: `sys/vmem.hpp` `traverse_page_table`
Kind: L -/
theorem min_last {k base : ℕ} (hlt : virtStart < virtEnd) (hve : virtEnd ≤ 2 ^ 47)
    (hb : base + pageRadix.width (k + 1) ≤ 2 ^ 48) :
    min (wsub virtEnd 1) (canonical (wsub ((base + pageRadix.width k * 512) % word) 1))
      = min (virtEnd - 1) (base + pageRadix.width (k + 1) - 1) := by
  have hw := pageRadix.width_pos (k + 1)
  have hwidth : pageRadix.width k * 512 = pageRadix.width (k + 1) := by
    rw [pageRadix.width_succ, Nat.mul_comm]
    rfl
  have hword : (2 : ℕ) ^ 48 < word := by decide
  rw [hwidth, Nat.mod_eq_of_lt (by omega), wsub_eq (by omega) (by omega), wsub_eq (by omega)
    (by omega)]
  by_cases h : base + pageRadix.width (k + 1) - 1 < 2 ^ 47
  · rw [canonical_eq h]
  · have := le_canonical (a := base + pageRadix.width (k + 1) - 1) (by omega)
    omega

/-- Where the loop starts. Source: `sys/vmem.hpp` `traverse_page_table`. Kind: L -/
theorem first_base {k base i lo : ℕ} (hlo : lo < 2 ^ 47)
    (hin : pageRadix.InBlock k (base + i * pageRadix.width k) lo) :
    (base + canonical (i * pageRadix.width k % word)) % word = base + i * pageRadix.width k := by
  have := hin.1
  have hword : (2 : ℕ) ^ 47 < word := by decide
  have hmod : i * pageRadix.width k % word = i * pageRadix.width k := Nat.mod_eq_of_lt (by omega)
  rw [hmod, canonical_eq (by omega)]
  exact Nat.mod_eq_of_lt (by omega)

/-- Slots are in the order of their addresses. Source: none: infrastructure. Kind: L -/
theorem slot_mono {k base i j lo up : ℕ} (hlo : pageRadix.InBlock k (base + i * pageRadix.width k) lo)
    (hup : pageRadix.InBlock k (base + j * pageRadix.width k) up) (h : lo ≤ up) : i ≤ j := by
  by_contra hlt
  have : (j + 1) * pageRadix.width k ≤ i * pageRadix.width k := Nat.mul_le_mul_right _ (by omega)
  rw [Nat.succ_mul] at this
  have := hlo.1
  have := hup.2
  omega

/-- The body of the loop: what is called for a slot.
Source: `sys/vmem.hpp` `traverse_page_table`
Kind: D -/
def visitSlot (c : Callbacks) (virtStart virtEnd level step pt idx baseVirt : ℕ) (t : Tables) :
    Except Abort Tables :=
  if level < numPageSizes ∧ virtStart ≤ baseVirt ∧ virtEnd ≥ (baseVirt + step) % word then
    c.found (.slot pt idx) baseVirt level t
  else traversePageTable c virtStart virtEnd level (.slot pt idx) baseVirt t

/-- A result that is there is passed on. Source: none: infrastructure. Kind: L -/
theorem ok_bind {α β : Type} (x : α) (f : α → Except Abort β) : (Except.ok x >>= f) = f x := rfl

/-- The traversal once the entry is entered. Source: `sys/vmem.hpp` `traverse_page_table`. Kind: L -/
theorem traversePageTable_enter {k base step i j : ℕ} {e : Entry} {t t1 : Tables}
    (h : enter c e t = .ok (true, t1)) (hstep : (1 <<< (12 + k * 9)) % word = step)
    (hi : ptIndex (max virtStart base) k = i)
    (hj : ptIndex (min (wsub virtEnd 1) (canonical (wsub ((base + step * 512) % word) 1))) k = j) :
    traversePageTable c virtStart virtEnd (k + 1) e base t =
      forSlots (visitSlot c virtStart virtEnd k step (Pte.addr (t1.read e) false)) step (j + 1 - i) i
        ((base + canonical (i * step % word)) % word)
        { t1 with descents := (k + 1, t1.read e) :: t1.descents } := by
  rw [traversePageTable, h, ok_bind]
  dsimp only
  rw [if_neg (show ¬ (!true) = true by decide), hstep, hj, hi]
  unfold visitSlot
  rfl

/-- A call at level 0 once the entry is entered. Source: `sys/vmem.hpp` `traverse_page_table`. Kind: L -/
theorem traverseBottom_enter {base i j : ℕ} {e : Entry} {t t1 : Tables}
    (h : enter c e t = .ok (true, t1)) (hi : ptIndexWrapped (max virtStart base) = i)
    (hj : ptIndexWrapped (min (wsub virtEnd 1) (canonical (wsub ((base + 2 ^ 12) % word) 1))) = j) :
    traverseBottom c virtStart virtEnd e base t =
      forSlots (fun idx _ t => traverseWrapped c (.slot (Pte.addr (t1.read e) false) idx) t) 8 (j + 1 - i) i
        ((base + canonical (i * 8 % word)) % word) { t1 with descents := (0, t1.read e) :: t1.descents } := by
  rw [traverseBottom, h, ok_bind]
  dsimp only
  rw [if_neg (show ¬ (!true) = true by decide), show (1 <<< wrappedShift) % word = 8 from rfl,
    show 8 * 512 = 2 ^ 12 from rfl, hj, hi]

/-- The loop body for the blocks of one level. Source: `sys/vmem.hpp` `traverse_page_table`. Kind: L -/
theorem visitSlot_spec (hc : Contract pages leafOk virtStart virtEnd foundOk enterOk target stop c)
    {k pt idx base : ℕ} (hlt : virtStart < virtEnd)
    (htraverse : ¬ Whole virtStart virtEnd k base →
      EntrySpec pages leafOk virtStart virtEnd foundOk enterOk target stop k base (.slot pt idx)
        (traversePageTable c virtStart virtEnd k (.slot pt idx) base)) :
    EntrySpec pages leafOk virtStart virtEnd foundOk enterOk target stop k base (.slot pt idx)
      (visitSlot c virtStart virtEnd k (pageRadix.width k) pt idx base) := by
  intro own t hok hloc h1 h2 hb hready
  have hword : (2 : ℕ) ^ 48 < word := by decide
  unfold visitSlot
  rw [Nat.mod_eq_of_lt (show base + pageRadix.width k < word by omega)]
  by_cases hwhole : Whole virtStart virtEnd k base
  · rw [if_pos (show k < numPageSizes ∧ virtStart ≤ base ∧ _ from hwhole)]
    exact found_spec hc hlt hwhole own t hok hloc h1 h2 hb hready
  · rw [if_neg (show ¬ (k < numPageSizes ∧ virtStart ≤ base ∧ _) from hwhole)]
    exact htraverse hwhole own t hok hloc h1 h2 hb hready

/-- **What a traversal does.** By induction on the level: at level 0 every block that the range
overlaps is wholly inside it; above, the entry leads to a table whose slots are either whole blocks
(`found_spec`) or traversed one level down (`forSlots_spec`).
Source: `sys/vmem.hpp` `traverse_page_table`
Kind: P -/
theorem traversePageTable_spec (hpages : FreshPages pages)
    (hc : Contract pages leafOk virtStart virtEnd foundOk enterOk target stop c)
    (hs : 2 ^ 12 ∣ virtStart) (he : 2 ^ 12 ∣ virtEnd) (hlt : virtStart < virtEnd)
    (hve : virtEnd ≤ 2 ^ 47) (level base : ℕ) (e : Entry) (hlevel : level ≤ 4)
    (hwhole : ¬ Whole virtStart virtEnd level base) :
    EntrySpec pages leafOk virtStart virtEnd foundOk enterOk target stop level base e
      (traversePageTable c virtStart virtEnd level e base) := by
  induction level generalizing base e with
  | zero =>
      intro own t hok hloc h1 h2 _ _
      have hal := hok.aligned hloc
      have hw : pageRadix.width 0 = 2 ^ 12 := pageRadix_width 0
      rw [hw] at hal h1
      refine (hwhole ⟨by decide, ?_, ?_⟩).elim
      · omega
      · rw [hw]
        omega
  | succ k ih =>
      intro own t hok hloc h1 h2 hb hready
      have hal := hok.aligned hloc
      obtain ⟨a, ha, hstop⟩ | ⟨own1, t1, pt, hcall, heff1, htable, hpt, htr1, hready1⟩ :=
        enter_spec hpages hc hlt hwhole hok hloc h1 h2 hready
      · rw [traversePageTable, ha]
        exact hstop
      have heff2 : Effect pages leafOk own1 own1 t1
          { t1 with descents := (k + 1, t1.read e) :: t1.descents } (k + 1) base
          (base + pageRadix.width (k + 1)) := Effect.descend heff1.ok htable
      obtain ⟨hinlo, hslo, hloe⟩ := exists_overlap hlt h1 h2
      have hw := pageRadix.width_pos (k + 1)
      have hinup : pageRadix.InBlock (k + 1) base
          (min (virtEnd - 1) (base + pageRadix.width (k + 1) - 1)) := ⟨by omega, by omega⟩
      have hlo := pageRadix.inBlock_digit hal hinlo
      have hup := pageRadix.inBlock_digit hal hinup
      have hij := slot_mono hlo hup (by omega)
      have hjlt : pageRadix.digit k (min (virtEnd - 1) (base + pageRadix.width (k + 1) - 1)) < 512 :=
        pageRadix.digit_lt k _
      generalize hi : pageRadix.digit k (max virtStart base) = i at hlo hij ⊢
      generalize hj : pageRadix.digit k (min (virtEnd - 1) (base + pageRadix.width (k + 1) - 1)) = j
        at hup hij hjlt ⊢
      rw [traversePageTable_enter hcall (stepAt_eq (by omega)) (by rw [ptIndex_eq, hi])
        (by rw [ptIndex_eq, min_last hlt hve hb, hj]), first_base (by omega) hlo,
        pteView_table htable]
      have hlast : i + (j + 1 - i) = j + 1 := by omega
      have hmul : ∀ {m n : ℕ}, m ≤ n → m * pageRadix.width k ≤ n * pageRadix.width k :=
        fun h => Nat.mul_le_mul_right _ h
      have hloop := forSlots_spec hve hb
        (fun idx => visitSlot_spec hc hlt fun hnot => ih _ (.slot pt idx) (by omega) hnot)
        (j + 1 - i) i (base + i * pageRadix.width k) own1 _ heff2.ok hpt (by omega)
        (fun _ => rfl)
        (by
          intro i' h3 h4
          have := hmul h3
          have := hmul (show i' ≤ j by omega)
          have := hlo.2
          have := hup.1
          omega)
        (fun va hva _ => hready1 va hva)
      rw [hlast] at hloop
      refine hloop.mono ?_
      rintro own' t' ⟨heff3, htr3⟩
      have hsucc : (j + 1) * pageRadix.width k = j * pageRadix.width k + pageRadix.width k :=
        Nat.succ_mul _ _
      have hslotle : base + (j + 1) * pageRadix.width k ≤ base + pageRadix.width (k + 1) :=
        pageRadix.slot_le hjlt
      have heff := (heff1.trans heff2).trans (heff3.mono (Nat.le_succ k) (Nat.le_add_right _ _) hslotle)
      -- the entry itself is not touched by the loop, so that the walk goes through the same table
      have hread : t'.read e = t1.read e := by
        apply heff3.read_eq (hloc.mono heff1.owned) (Or.inl (Nat.lt_succ_self k))
        intro _
        omega
      refine ⟨heff, fun va hva => ?_, fun _ => ⟨pt, by rw [hread, htable]⟩⟩
      have hthrough : translate t' (k + 1) (t'.read e) va
          = translate t' k (t'.mem pt (pageRadix.digit k va)) va := by
        unfold translate
        rw [hread, pageRadix.walk_table htable]
      have hbefore : translate t (k + 1) (t.read e) va
          = translate t1 k (t1.mem pt (pageRadix.digit k va)) va := by
        rw [← htr1 va hva]
        unfold translate
        rw [pageRadix.walk_table htable]
      have hafter := htr3 va hva
      unfold Retargeted at hafter ⊢
      rw [hthrough, hbefore, hafter]
      by_cases hrange : virtStart ≤ va ∧ va < virtEnd
      · have := hlo.1
        have := hup.2
        have := hva.1
        have := hva.2
        rw [if_pos ⟨⟨by omega, by omega⟩, hrange⟩, if_pos ⟨⟨by omega, by omega⟩, hrange⟩]
      · rw [if_neg fun h => hrange h.2, if_neg fun h => hrange h.2]
        rfl

end Traverse

end EbbRT
