import EbbRT.Lib.Tiling
import EbbRT.Mem.PageTableTraverse

/-!
# The blocks that a traversal visits

`traverseLogged` is `traversePageTable` with a record of the calls of `found`
(`traverseLogged_tables`). The addresses of a block are counted by their low 48 bits, its position;
`canonical` takes positions to addresses and keeps their order. What one call does is said for both
ways it can end (`Visited`): it returns exactly where every address of the range is `Passable`, and
then the recorded blocks tile the range, each found in the slot that the processor's walk reads.
-/

namespace EbbRT

open EbbRT.Lib EbbRT.Lib.Radix

/-! ## Positions and addresses -/

/-- Only the low 48 bits count. Source: `sys/vmem.hpp` `canonical`. Kind: L -/
theorem canonical_congr {a b : ℕ} (h : a % 2 ^ 48 = b % 2 ^ 48) : canonical a = canonical b := by
  unfold canonical
  rw [h]

/-- Positions from 2 ^ 47 on are the addresses of the upper half.
Source: `sys/vmem.hpp` `canonical`
Kind: L -/
theorem canonical_upper {x : ℕ} (h : 2 ^ 47 ≤ x) (hx : x < 2 ^ 48) :
    canonical x = x + (2 ^ 64 - 2 ^ 48) := by
  show (if x % 2 ^ 48 < 2 ^ 47 then _ else _) = _
  rw [Nat.mod_eq_of_lt hx, if_neg (by omega)]
  rfl

/-- The two halves of the address space. Source: `sys/vmem.hpp` `canonical`. Kind: L -/
theorem canonical_halves {x : ℕ} (hx : x < 2 ^ 48) :
    x < 2 ^ 47 ∧ canonical x = x ∨ 2 ^ 47 ≤ x ∧ canonical x = x + (2 ^ 64 - 2 ^ 48) := by
  rcases Nat.lt_or_ge x (2 ^ 47) with h | h
  · exact Or.inl ⟨h, canonical_eq h⟩
  · exact Or.inr ⟨h, canonical_upper h hx⟩

/-- The position of an address. Source: `sys/vmem.hpp` `canonical`. Kind: L -/
theorem canonical_mod {x : ℕ} (hx : x < 2 ^ 48) : canonical x % 2 ^ 48 = x := by
  rcases canonical_halves hx with ⟨_, h⟩ | ⟨_, h⟩ <;> omega

/-- Addresses are in the order of their positions. Source: `sys/vmem.hpp` `canonical`. Kind: L -/
theorem canonical_le_iff {x y : ℕ} (hx : x < 2 ^ 48) (hy : y < 2 ^ 48) :
    canonical x ≤ canonical y ↔ x ≤ y := by
  rcases canonical_halves hx with ⟨_, h⟩ | ⟨_, h⟩ <;>
    rcases canonical_halves hy with ⟨_, h'⟩ | ⟨_, h'⟩ <;> omega

/-- Source: `sys/vmem.hpp` `canonical`. Kind: L -/
theorem canonical_monotoneOn : MonotoneOn canonical (Set.Iio (2 ^ 48)) :=
  fun _ hx _ hy h => (canonical_le_iff hx hy).mpr h

/-- The slots of the four levels depend on the position only.
Source: `sys/vmem.hpp` `pt_index`
Kind: L -/
theorem digit_congr {a b k : ℕ} (hk : k ≤ 3) (h : a % 2 ^ 48 = b % 2 ^ 48) :
    pageRadix.digit k a = pageRadix.digit k b := by
  unfold digit
  rw [pageRadix_width]
  show a / 2 ^ (12 + k * 9) % 512 = b / 2 ^ (12 + k * 9) % 512
  obtain rfl | rfl | rfl | rfl : k = 0 ∨ k = 1 ∨ k = 2 ∨ k = 3 := by omega
  all_goals
    simp only [Nat.zero_mul, Nat.add_zero, Nat.one_mul, Nat.reduceMul, Nat.reduceAdd]
    omega

/-- The code's slot for an address. Source: `sys/vmem.hpp` `pt_index`. Kind: L -/
theorem ptIndex_canonical {x k : ℕ} (hk : k ≤ 3) (hx : x < 2 ^ 48) :
    ptIndex (canonical x) k = pageRadix.digit k x := by
  rw [ptIndex_eq]
  apply digit_congr hk
  rw [canonical_mod hx, Nat.mod_eq_of_lt hx]

/-- `base_virt = canonical(base_virt + step)`. Source: `sys/vmem.hpp` `traverse_page_table`. Kind: L -/
theorem canonical_next {b w : ℕ} (hb : b < 2 ^ 48) :
    canonical ((canonical b + w) % word) = canonical (b + w) := by
  apply canonical_congr
  have := canonical_mod hb
  unfold word
  omega

/-- `base_virt_end`. Source: `sys/vmem.hpp` `traverse_page_table`. Kind: L -/
theorem canonical_last {b w : ℕ} (hb : b < 2 ^ 48) (hw : 0 < w) :
    canonical (wsub ((canonical b + w) % word) 1) = canonical (b + w - 1) := by
  apply canonical_congr
  have := canonical_mod hb
  unfold wsub word
  omega

/-- Where the loop starts: below the root a block lies in one half.
Source: `sys/vmem.hpp` `traverse_page_table`
Kind: L -/
theorem canonical_first {k b i : ℕ} (hk : k ≤ 3) (hal : pageRadix.width (k + 1) ∣ b)
    (hi : i < 512) (hb : b + pageRadix.width (k + 1) ≤ 2 ^ 48) :
    (canonical b + canonical (i * pageRadix.width k % word)) % word
      = canonical (b + i * pageRadix.width k) := by
  have hslot : i * pageRadix.width k + pageRadix.width k ≤ pageRadix.width (k + 1) := by
    have := pageRadix.slot_le (b := 0) (ℓ := k) hi
    rw [Nat.succ_mul] at this
    omega
  have hw := pageRadix.width_pos k
  rw [Nat.mod_eq_of_lt (show i * pageRadix.width k < word by unfold word; omega)]
  rcases Nat.lt_or_ge k 3 with hlt | hge
  · have hhalf : pageRadix.width (k + 1) ∣ 2 ^ 47 := by
      rw [pageRadix_width]
      exact Nat.pow_dvd_pow 2 (by omega)
    have hsmall : pageRadix.width (k + 1) ≤ 2 ^ 39 := by
      rw [pageRadix_width]
      exact Nat.pow_le_pow_right (by norm_num) (by omega)
    rw [canonical_eq (show i * pageRadix.width k < 2 ^ 47 by omega)]
    -- a multiple of the width below the middle is at least one width below it
    have hside : b + pageRadix.width (k + 1) ≤ 2 ^ 47 ∨ 2 ^ 47 ≤ b := by
      obtain ⟨m, rfl⟩ := hal
      obtain ⟨n, hn⟩ := hhalf
      rw [hn]
      rcases Nat.lt_or_ge m n with h | h
      · left
        calc pageRadix.width (k + 1) * m + pageRadix.width (k + 1)
            = pageRadix.width (k + 1) * (m + 1) := by ring
          _ ≤ _ := Nat.mul_le_mul_left _ h
      · exact Or.inr (Nat.mul_le_mul_left _ h)
    unfold word
    rcases canonical_halves (show b < 2 ^ 48 by omega) with ⟨_, h⟩ | ⟨_, h⟩ <;>
      rcases canonical_halves (show b + i * pageRadix.width k < 2 ^ 48 by omega) with
        ⟨_, h'⟩ | ⟨_, h'⟩ <;> omega
  · obtain rfl : k = 3 := by omega
    have h4 : pageRadix.width (3 + 1) = 2 ^ 48 := pageRadix_width 4
    obtain rfl : b = 0 := by omega
    rw [canonical_eq (show 0 < 2 ^ 47 by norm_num), Nat.zero_add, Nat.zero_add]
    apply Nat.mod_eq_of_lt
    have := canonical_halves (show i * pageRadix.width 3 < 2 ^ 48 by omega)
    unfold word
    omega

/-! ## The traversal with a record of its visits -/

/-- A call `found(entry, base_virt, level)`.
Source: `sys/vmem.hpp` `traverse_page_table`
Kind: D -/
structure Visit where
  /-- `entry`. -/
  entry : Entry
  /-- `base_virt`. -/
  baseVirt : ℕ
  /-- `level`. -/
  level : ℕ
  /-- The tables when the call was made. -/
  tables : Tables

/-- The position of the visited block. Source: none: infrastructure. Kind: D -/
def Visit.pos (v : Visit) : ℕ := v.baseVirt % 2 ^ 48

/-- The number of addresses of the visited block. Source: none: infrastructure. Kind: D -/
def Visit.size (v : Visit) : ℕ := 2 ^ (12 + v.level * 9)

/-- The tables, and the calls of `found` so far, the last one first.
Source: `sys/vmem.hpp` `traverse_page_table`
Kind: D -/
structure Logged where
  /-- The tables. -/
  tables : Tables
  /-- The calls of `found`. -/
  visits : List Visit

/-- A call of `found`, recorded.
Source: `sys/vmem.hpp` `traverse_page_table`
Kind: D -/
def foundLogged (c : Callbacks) (entry : Entry) (baseVirt level : ℕ) (s : Logged) :
    Except Abort Logged := do
  let t ← c.found entry baseVirt level s.tables
  .ok ⟨t, ⟨entry, baseVirt, level, s.tables⟩ :: s.visits⟩

/-- `forSlots` with the record.
Source: `sys/vmem.hpp` `traverse_page_table`
Kind: D -/
def forSlotsLogged (slot : ℕ → ℕ → Logged → Except Abort Logged) (step : ℕ) :
    ℕ → ℕ → ℕ → Logged → Except Abort Logged
  | 0, _, _, s => .ok s
  | n + 1, idx, baseVirt, s => do
      let s ← slot idx baseVirt s
      forSlotsLogged slot step n (idx + 1) (canonical ((baseVirt + step) % word)) s

/-- `traversePageTable` with the record; from level 0 on `found` is not called.
Source: `sys/vmem.hpp` `traverse_page_table`
Kind: D -/
def traverseLogged (c : Callbacks) (virtStart virtEnd : ℕ) :
    ℕ → Entry → ℕ → Logged → Except Abort Logged
  | 0, entry, baseVirt, s => do
      let t ← traverseBottom c virtStart virtEnd entry baseVirt s.tables
      .ok { s with tables := t }
  | level + 1, entry, baseVirt, s => do
      let (goOn, t) ← enter c entry s.tables
      if !goOn then .ok { s with tables := t }
      else
        let raw := t.read entry
        let pt := Pte.addr raw false
        let t := { t with descents := (level + 1, raw) :: t.descents }
        let step := (1 <<< (12 + level * 9)) % word
        let idxBegin := ptIndex (max virtStart baseVirt) level
        let baseVirtEnd := canonical (wsub ((baseVirt + step * 512) % word) 1)
        let idxEnd := ptIndex (min (wsub virtEnd 1) baseVirtEnd) level
        let baseVirt := (baseVirt + canonical (idxBegin * step % word)) % word
        forSlotsLogged
          (fun idx baseVirt s =>
            if level < numPageSizes ∧ virtStart ≤ baseVirt ∧ virtEnd ≥ (baseVirt + step) % word then
              foundLogged c (.slot pt idx) baseVirt level s
            else
              traverseLogged c virtStart virtEnd level (.slot pt idx) baseVirt s)
          step (idxEnd + 1 - idxBegin) idxBegin baseVirt { s with tables := t }

/-- Source: `sys/vmem.hpp` `traverse_page_table`. Kind: L -/
theorem foundLogged_tables (c : Callbacks) (entry : Entry) (baseVirt level : ℕ) (s : Logged) :
    (foundLogged c entry baseVirt level s).map Logged.tables
      = c.found entry baseVirt level s.tables := by
  unfold foundLogged
  cases c.found entry baseVirt level s.tables <;> rfl

/-- The loop with the record, if its body is the body with the record.
Source: `sys/vmem.hpp` `traverse_page_table`
Kind: L -/
theorem forSlotsLogged_tables {slotLogged : ℕ → ℕ → Logged → Except Abort Logged}
    {slot : ℕ → ℕ → Tables → Except Abort Tables}
    (h : ∀ idx base s, (slotLogged idx base s).map Logged.tables = slot idx base s.tables)
    (step n idx base : ℕ) (s : Logged) :
    (forSlotsLogged slotLogged step n idx base s).map Logged.tables
      = forSlots slot step n idx base s.tables := by
  induction n generalizing idx base s with
  | zero => rfl
  | succ n ih =>
      unfold forSlotsLogged forSlots
      rw [← h]
      cases slotLogged idx base s with
      | error a => rfl
      | ok s' => exact ih _ _ s'

/-- The body of the loop.
Source: `sys/vmem.hpp` `traverse_page_table`
Kind: D -/
def visitSlotLogged (c : Callbacks) (virtStart virtEnd level step pt idx baseVirt : ℕ) (s : Logged) :
    Except Abort Logged :=
  if level < numPageSizes ∧ virtStart ≤ baseVirt ∧ virtEnd ≥ (baseVirt + step) % word then
    foundLogged c (.slot pt idx) baseVirt level s
  else traverseLogged c virtStart virtEnd level (.slot pt idx) baseVirt s

/-- The traversal once the entry is entered. Source: `sys/vmem.hpp` `traverse_page_table`. Kind: L -/
theorem traverseLogged_enter {c : Callbacks} {virtStart virtEnd k base step i j : ℕ} {e : Entry}
    {s : Logged} {t : Tables} (h : enter c e s.tables = .ok (true, t))
    (hstep : (1 <<< (12 + k * 9)) % word = step) (hi : ptIndex (max virtStart base) k = i)
    (hj : ptIndex (min (wsub virtEnd 1) (canonical (wsub ((base + step * 512) % word) 1))) k = j) :
    traverseLogged c virtStart virtEnd (k + 1) e base s =
      forSlotsLogged (visitSlotLogged c virtStart virtEnd k step (Pte.addr (t.read e) false)) step
        (j + 1 - i) i ((base + canonical (i * step % word)) % word)
        ⟨{ t with descents := (k + 1, t.read e) :: t.descents }, s.visits⟩ := by
  rw [traverseLogged, h, ok_bind]
  dsimp only
  rw [if_neg (show ¬ (!true) = true by decide), hstep, hj, hi]
  unfold visitSlotLogged
  rfl

/-- **The record changes nothing else.** By induction on the level.
Source: `sys/vmem.hpp` `traverse_page_table`
Kind: P -/
theorem traverseLogged_tables (c : Callbacks) (virtStart virtEnd level : ℕ) (entry : Entry)
    (base : ℕ) (s : Logged) :
    (traverseLogged c virtStart virtEnd level entry base s).map Logged.tables
      = traversePageTable c virtStart virtEnd level entry base s.tables := by
  induction level generalizing entry base s with
  | zero =>
      rw [traverseLogged, traversePageTable]
      cases traverseBottom c virtStart virtEnd entry base s.tables <;> rfl
  | succ k ih =>
      cases henter : enter c entry s.tables with
      | error a =>
          rw [traverseLogged, traversePageTable, henter]
          rfl
      | ok r =>
          obtain ⟨goOn, t⟩ := r
          cases goOn with
          | false =>
              rw [traverseLogged, traversePageTable, henter, ok_bind, ok_bind]
              rfl
          | true =>
              rw [traverseLogged_enter henter rfl rfl rfl, traversePageTable_enter henter rfl rfl rfl]
              apply forSlotsLogged_tables
              intro idx base s
              unfold visitSlotLogged visitSlot
              split
              · exact foundLogged_tables c _ base k s
              · exact ih _ base s

/-! ## The slot that the processor reads -/

/-- The entry that resolving `va` reads at level `k`, from the entry `e` of a level on; `none` if the
walk ends above.
Source: `sys/vmem.hpp` `pt_index`
Kind: D -/
def slotFrom (t : Tables) (k va : ℕ) : ℕ → Entry → Option Entry
  | 0, e => if k = 0 then some e else none
  | level + 1, e =>
      if k = level + 1 then some e
      else
        match pteView (level + 1) (t.read e) with
        | .table pt => slotFrom t k va level (.slot pt (va / 2 ^ (12 + level * 9) % 512))
        | _ => none

/-- The entry that the processor reads at level `k`, from the table that the root points to.
Source: `sys/vmem.cpp` `enable_runtime_page_table`
Kind: D -/
def x86Slot (t : Tables) (k va : ℕ) : Option Entry :=
  slotFrom t k va 3 (.slot (t.root % 2 ^ 52 / 2 ^ 12 * 2 ^ 12) (va / 2 ^ 39 % 512))

section Slots

variable {pages : ℕ → Option ℕ} {leafOk : ℕ → ℕ → ℕ → Prop} {own own' : Owner} {t t' : Tables}
  {k level base va pt : ℕ} {e e' : Entry}

/-- Source: none: infrastructure. Kind: L -/
@[simp]
theorem slotFrom_self : slotFrom t k va k e = some e := by
  cases k <;> simp [slotFrom]

/-- Through a pointer the walk goes on one level down. Source: none: infrastructure. Kind: L -/
theorem slotFrom_table (hk : k ≤ level) (h : pteView (level + 1) (t.read e) = .table pt) :
    slotFrom t k va (level + 1) e = slotFrom t k va level (.slot pt (pageRadix.digit level va)) := by
  rw [slotFrom, if_neg (by omega), h, pageRadix_digit]

/-- A walk that gets below an entry goes through a table. Source: none: infrastructure. Kind: L -/
theorem slotFrom_some (hk : k ≤ level) (h : slotFrom t k va (level + 1) e = some e') :
    ∃ pt, pteView (level + 1) (t.read e) = .table pt ∧
      slotFrom t k va level (.slot pt (pageRadix.digit level va)) = some e' := by
  cases hv : pteView (level + 1) (t.read e) with
  | table pt => exact ⟨pt, rfl, by rw [← slotFrom_table hk hv, h]⟩
  | _ =>
      rw [slotFrom, if_neg (by omega), hv] at h
      cases h

/-- Source: none: infrastructure. Kind: L -/
theorem slotFrom_le (h : slotFrom t k va level e = some e') : k ≤ level := by
  induction level generalizing e with
  | zero =>
      unfold slotFrom at h
      split at h
      · omega
      · cases h
  | succ n ih =>
      by_contra hlt
      have hne : ¬ k = n + 1 := by omega
      rw [slotFrom, if_neg hne] at h
      split at h
      · have := ih h
        omega
      · cases h

/-- The slot depends on the digits from its level on. Source: `sys/vmem.hpp` `pt_index`. Kind: L -/
theorem slotFrom_congr {a b : ℕ} (hk : k ≤ level)
    (h : ∀ j, k ≤ j → j < level → pageRadix.digit j a = pageRadix.digit j b) :
    slotFrom t k a level e = slotFrom t k b level e := by
  induction level generalizing e with
  | zero => rfl
  | succ n ih =>
      obtain rfl | hlt : k = n + 1 ∨ k ≤ n := by omega
      · rw [slotFrom_self, slotFrom_self]
      · rw [slotFrom, slotFrom, ← pageRadix_digit, ← pageRadix_digit, h n hlt (Nat.lt_succ_self n)]
        split
        · rfl
        · split
          · exact ih hlt fun j h1 h2 => h j h1 (h2.trans (Nat.lt_succ_self n))
          · rfl

/-- With a table at the root the processor's walk starts there.
Source: `sys/vmem.cpp` `enable_runtime_page_table`
Kind: L -/
theorem x86Slot_eq (hk : k ≤ 3) (h : pteView 4 t.root = .table pt) :
    x86Slot t k va = slotFrom t k va 4 .root := by
  have hdigit : pageRadix.digit 3 va = va / 2 ^ 39 % 512 := pageRadix_digit 3 va
  have hroot : pteView (3 + 1) (t.read .root) = .table pt := h
  unfold x86Slot
  rw [bits_of_pteView_table h, ← hdigit, slotFrom_table hk hroot]

/-- What the walk makes of the address is decided at the slot.
Source: none: infrastructure
Kind: L -/
theorem walk_slotFrom (h : slotFrom t k va level e = some e') :
    pageRadix.walk pteView t.mem level (t.read e) va
      = pageRadix.walk pteView t.mem k (t.read e') va := by
  induction level generalizing e with
  | zero =>
      have hk := slotFrom_le h
      obtain rfl : k = 0 := by omega
      rw [slotFrom_self] at h
      cases h
      rfl
  | succ n ih =>
      have hk := slotFrom_le h
      obtain rfl | hk : k = n + 1 ∨ k ≤ n := by omega
      · rw [slotFrom_self] at h
        cases h
        rfl
      · obtain ⟨pt, hpt, hslot⟩ := slotFrom_some hk h
        rw [pageRadix.walk_table hpt]
        exact ih hslot

/-- The slot is the one for the block of the address. Source: none: infrastructure. Kind: L -/
theorem slotFrom_located (hok : TablesOk pages leafOk own t) (he : Located own level base e)
    (hin : pageRadix.InBlock level base va) (h : slotFrom t k va level e = some e') :
    Located own k (va / pageRadix.width k * pageRadix.width k) e' := by
  induction level generalizing base e with
  | zero =>
      have hk := slotFrom_le h
      obtain rfl : k = 0 := by omega
      rw [slotFrom_self] at h
      cases h
      rw [pageRadix.base_eq (hok.aligned he) hin]
      exact he
  | succ n ih =>
      have hk := slotFrom_le h
      obtain rfl | hk : k = n + 1 ∨ k ≤ n := by omega
      · rw [slotFrom_self] at h
        cases h
        rw [pageRadix.base_eq (hok.aligned he) hin]
        exact he
      · obtain ⟨pt, hpt, hslot⟩ := slotFrom_some hk h
        have hfit := hok.located he
        rw [hpt] at hfit
        obtain ⟨n', hn', hown⟩ := hfit
        cases hn'
        have hloc : Located own n (base + pageRadix.digit n va * pageRadix.width n)
            (.slot pt (pageRadix.digit n va)) := ⟨pageRadix.digit_lt n va, base, hown, rfl⟩
        exact ih hloc (pageRadix.inBlock_digit (hok.aligned he) hin) hslot

/-- **The frame rule of slots**: an address outside the changes is resolved through the same entries.
By induction on the level.
Source: none: infrastructure
Kind: P -/
theorem slotFrom_frame {top lo up : ℕ} (hok : TablesOk pages leafOk own t)
    (heff : Effect pages leafOk own own' t t' top lo up) (he : Located own level base e)
    (hin : pageRadix.InBlock level base va) (hout : va < lo ∨ up ≤ va)
    (hread : t'.read e = t.read e) :
    slotFrom t' k va level e = slotFrom t k va level e := by
  induction level generalizing base e with
  | zero => rfl
  | succ n ih =>
      by_cases hk : k = n + 1
      · subst hk
        rw [slotFrom_self, slotFrom_self]
      · rw [slotFrom, slotFrom, if_neg hk, if_neg hk, hread]
        cases hv : pteView (n + 1) (t.read e) with
        | table pt =>
            have hfit := hok.located he
            rw [hv] at hfit
            obtain ⟨n', hn', hown⟩ := hfit
            cases hn'
            have hslot := pageRadix.inBlock_digit (hok.aligned he) hin
            have hloc : Located own n (base + pageRadix.digit n va * pageRadix.width n)
                (.slot pt (pageRadix.digit n va)) := ⟨pageRadix.digit_lt n va, base, hown, rfl⟩
            show slotFrom t' k va n (.slot pt (va / 2 ^ (12 + n * 9) % 512))
              = slotFrom t k va n (.slot pt (va / 2 ^ (12 + n * 9) % 512))
            rw [← pageRadix_digit]
            apply ih hloc hslot
            refine heff.read_eq hloc ?_ (fun h => by cases h)
            have := hslot.1
            have := hslot.2
            omega
        | _ => rfl

end Slots

end EbbRT
