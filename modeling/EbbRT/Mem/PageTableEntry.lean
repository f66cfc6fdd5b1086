import EbbRT.Mem.PageTable

/-!
# Entries, levels and translations of the page tables

What the accessors of `pte` read and write, as arithmetic; the page tables as an instance of radix
tables (`pageRadix`); and the walk of the processor as the walk of that library
(`x86WalkFrom_eq`).
-/

namespace EbbRT

open EbbRT.Lib EbbRT.Lib.Radix

/-! ## Bits of an entry -/

namespace Pte

/-- Source: `sys/vmem.hpp` `pte::present`. Kind: L -/
theorem present_eq (raw : ℕ) : present raw = (raw % 2 != 0) := by
  unfold present
  rw [Nat.and_one_is_mod]

/-- Masking a bit that is not set changes nothing. Source: none: infrastructure. Kind: L -/
theorem and_compl_bit {a n : ℕ} (ha : a < word) (hn : n < 64) (h : a.testBit n = false) :
    a &&& compl (1 <<< n) = a := by
  have hlt : 2 ^ n < 2 ^ 64 := Nat.pow_lt_pow_right (by norm_num) hn
  apply Nat.eq_of_testBit_eq
  intro i
  have hc : compl (1 <<< n) = 2 ^ 64 - (2 ^ n + 1) := by
    unfold compl word
    rw [Nat.one_shiftLeft]
    omega
  rw [Nat.testBit_and, hc, Nat.testBit_two_pow_sub_succ hlt, Nat.testBit_two_pow]
  by_cases hin : n = i
  · subst hin
    simp [h]
  · by_cases hi : i < 64
    · simp [hin, hi]
    · have : a.testBit i = false :=
        Nat.testBit_lt_two_pow (ha.trans_le (Nat.pow_le_pow_right (by norm_num) (by omega)))
      simp [this]

/-- The present bit is cleared. Source: `sys/vmem.hpp` `pte::set_present`. Kind: L -/
theorem present_setPresent_false (raw : ℕ) : present (setPresent raw false) = false := by
  have h : (setPresent raw false).testBit 0 = false := by
    have hc : (compl (1 <<< 0)).testBit 0 = false := by decide
    have hz : ((false.toNat) <<< 0).testBit 0 = false := by decide
    unfold setPresent setBit
    rw [Nat.testBit_or, Nat.testBit_and, hc, hz, Bool.and_false, Bool.or_false]
  rw [Nat.testBit_zero] at h
  rw [present_eq]
  simpa using h

/-- Bits below a multiple of `2 ^ 12` are added by `|`. Source: none: infrastructure. Kind: L -/
theorem or_low {p c : ℕ} (hp : 2 ^ 12 ∣ p) (hc : c < 2 ^ 12) : c ||| p = p + c := by
  obtain ⟨q, rfl⟩ := hp
  rw [Nat.or_comm, Nat.two_pow_add_eq_or_of_lt hc]

/-- Source: `sys/vmem.hpp` `pte::set_nx`. Kind: L -/
theorem setNx_false (raw : ℕ) : setNx raw false = raw % 2 ^ 63 := by
  have hand : raw &&& compl (1 <<< 63) = raw % 2 ^ 63 := Nat.and_two_pow_sub_one_eq_mod raw 63
  unfold setNx setBit
  rw [hand]
  simp

/-- The value that `set` writes for a page: present, writable and, for a large page, bit 7; bit 63 of
the address is lost.
Source: `sys/vmem.hpp` `pte::set`
Kind: L -/
theorem set_mod {p : ℕ} (hp : 2 ^ 12 ∣ p) (l : Bool) :
    set p l = (p + (3 + 128 * l.toNat)) % 2 ^ 63 := by
  have hflags : setLarge (setWritable (setPresent 0 true) true) l &&&
      (0x8000000000000fff ||| (l.toNat <<< 12)) = 3 + 128 * l.toNat := by
    cases l <;> decide
  have hlow : 3 + 128 * l.toNat < 2 ^ 12 := by cases l <;> decide
  have haddr : setAddr (setLarge (setWritable (setPresent 0 true) true) l) p l
      = p + (3 + 128 * l.toNat) := by
    show setLarge (setWritable (setPresent 0 true) true) l &&&
      (0x8000000000000fff ||| (l.toNat <<< 12)) ||| p = _
    rw [hflags, or_low hp hlow]
  have hset : set p l = setNx (setAddr (setLarge (setWritable (setPresent 0 true) true) l) p l)
      false := rfl
  rw [hset, haddr, setNx_false]

/-- A physical address has 52 bits. Source: `sys/vmem.hpp` `pte::set`. Kind: L -/
theorem set_eq {p : ℕ} (hp : 2 ^ 12 ∣ p) (hlt : p < 2 ^ 52) (l : Bool) :
    set p l = p + (3 + 128 * l.toNat) := by
  have hl : l.toNat ≤ 1 := Bool.toNat_le l
  rw [set_mod hp, Nat.mod_eq_of_lt (by omega)]

/-- Source: `sys/vmem.hpp` `pte::large`. Kind: L -/
theorem large_eq (raw : ℕ) : large raw = raw.testBit 7 := by
  unfold large
  rw [Nat.one_shiftLeft, Nat.and_two_pow]
  cases raw.testBit 7 <;> simp

/-- Source: `sys/vmem.hpp` `pte::set`. Kind: L -/
theorem present_set {p : ℕ} (hp : 2 ^ 12 ∣ p) (l : Bool) : present (set p l) = true := by
  rw [set_mod hp, present_eq]
  have : (p + (3 + 128 * l.toNat)) % 2 ^ 63 % 2 = 1 := by omega
  rw [this]
  rfl

/-- Source: `sys/vmem.hpp` `pte::set`. Kind: L -/
theorem large_set {p : ℕ} (hp : 2 ^ 12 ∣ p) (l : Bool) : large (set p l) = l := by
  rw [set_mod hp, large_eq, Nat.testBit_eq_decide_div_mod_eq]
  cases l
  · have : (p + (3 + 128 * 0)) % 2 ^ 63 / 2 ^ 7 % 2 = 0 := by omega
    simpa using this
  · have : (p + (3 + 128 * 1)) % 2 ^ 63 / 2 ^ 7 % 2 = 1 := by omega
    simpa using this

/-- Source: `sys/vmem.hpp` `pte::addr`. Kind: L -/
theorem addr_false (raw : ℕ) : addr raw false = raw % 2 ^ 52 / 2 ^ 12 * 2 ^ 12 := by
  have hlt : raw % 2 ^ 52 < 2 ^ 52 := Nat.mod_lt _ (by norm_num)
  have h52 : raw &&& (1 <<< 52 - 1) = raw % 2 ^ 52 := Nat.and_two_pow_sub_one_eq_mod raw 52
  have h12 : raw % 2 ^ 52 &&& compl (1 <<< 12 - 1) = raw % 2 ^ 52 / 2 ^ 12 * 2 ^ 12 :=
    @alignDown_two_pow (raw % 2 ^ 52) 12 (hlt.trans (by decide)) (by norm_num)
  have h64 : raw % 2 ^ 52 / 2 ^ 12 * 2 ^ 12 &&& compl (false.toNat <<< 12)
      = (raw % 2 ^ 52 / 2 ^ 12 * 2 ^ 12) % 2 ^ 64 :=
    Nat.and_two_pow_sub_one_eq_mod _ 64
  show raw &&& (1 <<< 52 - 1) &&& compl (1 <<< 12 - 1) &&& compl (false.toNat <<< 12) = _
  rw [h52, h12, h64, Nat.mod_eq_of_lt]
  have := Nat.div_mul_le_self (raw % 2 ^ 52) (2 ^ 12)
  omega

/-- Where the page bit is clear the large address is the same.
Source: `sys/vmem.hpp` `pte::addr`
Kind: L -/
theorem addr_true {raw : ℕ} (h : addr raw false / 2 ^ 12 % 2 = 0) :
    addr raw true = addr raw false := by
  have hbit : (addr raw false).testBit 12 = false := by
    rw [Nat.testBit_eq_decide_div_mod_eq, h]
    rfl
  have hlt : addr raw false < word := by
    rw [addr_false]
    have := Nat.div_mul_le_self (raw % 2 ^ 52) (2 ^ 12)
    have : raw % 2 ^ 52 < 2 ^ 52 := Nat.mod_lt _ (by norm_num)
    unfold word
    omega
  have heq : addr raw true = addr raw false &&& compl (1 <<< 12) := by
    have h64 : ∀ a < word, a &&& compl (false.toNat <<< 12) = a := fun a ha => by
      have : a &&& compl (false.toNat <<< 12) = a % 2 ^ 64 := Nat.and_two_pow_sub_one_eq_mod a 64
      rw [this]
      exact Nat.mod_eq_of_lt ha
    show raw &&& (1 <<< 52 - 1) &&& compl (1 <<< 12 - 1) &&& compl (true.toNat <<< 12)
      = (raw &&& (1 <<< 52 - 1) &&& compl (1 <<< 12 - 1) &&& compl (false.toNat <<< 12))
        &&& compl (1 <<< 12)
    rw [h64 _ (lt_of_le_of_lt Nat.and_le_left (lt_of_le_of_lt Nat.and_le_right (by decide)))]
    rfl
  rw [heq, and_compl_bit hlt (by norm_num) hbit]

/-- Source: `sys/vmem.hpp` `pte::addr`, `pte::set`. Kind: L -/
theorem addr_set_false {p : ℕ} (hp : 2 ^ 12 ∣ p) (hlt : p < 2 ^ 52) (l : Bool) :
    addr (set p l) false = p := by
  have hl : l.toNat ≤ 1 := Bool.toNat_le l
  rw [set_eq hp hlt, addr_false]
  omega

/-- Source: `sys/vmem.hpp` `pte::addr`, `pte::set`. Kind: L -/
theorem addr_set {p : ℕ} {l : Bool} (hp : 2 ^ (12 + 9 * l.toNat) ∣ p) (hlt : p < 2 ^ 52) :
    addr (set p l) l = p := by
  have hp12 : 2 ^ 12 ∣ p := (Nat.pow_dvd_pow 2 (by omega)).trans hp
  cases l with
  | false => exact addr_set_false hp12 hlt false
  | true =>
      have h : addr (set p true) false = p := addr_set_false hp12 hlt true
      rw [addr_true, h]
      rw [h]
      obtain ⟨q, rfl⟩ := hp
      have : (12 : ℕ) + 9 * true.toNat = 21 := rfl
      rw [this]
      omega

end Pte

/-! ## Levels -/

/-- 4 KB pages, 512 entries in a table.
Source: `sys/vmem.hpp` `pt_index`
Kind: D -/
def pageRadix : Radix := ⟨4096, 512, by decide, by decide⟩

/-- Source: `sys/vmem.hpp` `traverse_page_table`. Kind: L -/
theorem pageRadix_width (level : ℕ) : pageRadix.width level = 2 ^ (12 + level * 9) := by
  unfold width
  show 4096 * 512 ^ level = _
  rw [Nat.pow_add, Nat.mul_comm level 9, pow_mul]
  norm_num

/-- Source: `sys/vmem.hpp` `num_page_sizes`. Kind: L -/
theorem width_dvd_page {level base : ℕ} (h : pageRadix.width level ∣ base) : 2 ^ 12 ∣ base := by
  have h0 : pageRadix.width 0 = 2 ^ 12 := pageRadix_width 0
  rw [← h0]
  exact (pageRadix.width_dvd (Nat.zero_le level)).trans h

/-- Source: `sys/vmem.hpp` `pt_index`. Kind: L -/
theorem pageRadix_digit (level va : ℕ) :
    pageRadix.digit level va = va / 2 ^ (12 + level * 9) % 512 := by
  unfold digit
  rw [pageRadix_width]
  rfl

/-- Source: `sys/vmem.hpp` `pt_index`. Kind: L -/
theorem ptIndex_eq (va level : ℕ) : ptIndex va level = pageRadix.digit level va := by
  unfold ptIndex digit
  rw [pageRadix_width, Nat.shiftRight_eq_div_pow]
  exact Nat.and_two_pow_sub_one_eq_mod _ 9

/-- A slot of 8 bytes. Source: `sys/vmem.hpp` `pt_index`. Kind: L -/
theorem ptIndexWrapped_eq (va : ℕ) : ptIndexWrapped va = va / 8 % 512 := by
  unfold ptIndexWrapped
  rw [show wrappedShift = 3 from rfl, Nat.shiftRight_eq_div_pow]
  exact Nat.and_two_pow_sub_one_eq_mod _ 9

/-- Source: `sys/vmem.hpp` `traverse_page_table`. Kind: L -/
theorem stepAt_eq {level : ℕ} (h : level ≤ 3) :
    (1 <<< (12 + level * 9)) % word = pageRadix.width level := by
  rw [pageRadix_width, Nat.one_shiftLeft]
  apply Nat.mod_eq_of_lt
  exact Nat.pow_lt_pow_right (by norm_num) (by omega)

/-- Addresses of the lower half are canonical. Source: `sys/vmem.hpp` `canonical`. Kind: L -/
theorem canonical_eq {a : ℕ} (h : a < 2 ^ 47) : canonical a = a := by
  show (if a % 2 ^ 48 < 2 ^ 47 then _ else _) = a
  rw [Nat.mod_eq_of_lt (by omega), if_pos h]

/-- An address of 48 bits is at most its canonical form.
Source: `sys/vmem.hpp` `canonical`
Kind: L -/
theorem le_canonical {a : ℕ} (h : a < 2 ^ 48) : a ≤ canonical a := by
  show a ≤ (if a % 2 ^ 48 < 2 ^ 47 then _ else _)
  rw [Nat.mod_eq_of_lt h]
  split <;> omega

/-! ## Translations -/

/-- The physical address that resolving `va` below an entry gives.
Source: none: infrastructure
Kind: D -/
def translate (t : Tables) (level raw va : ℕ) : Option ℕ :=
  (pageRadix.walk pteView t.mem level raw va).map fun x => physAddr x.1 x.2 va

/-- The translation of a block by an entry that is no pointer.
Source: none: infrastructure
Kind: D -/
def blockTranslate (level raw va : ℕ) : Option ℕ :=
  (leafOf pteView (level, raw)).map fun x => physAddr x.1 x.2 va

/-- **The hardware's walk is the library's.** Source: `sys/vmem.hpp` `pt_index`. Kind: P -/
theorem x86WalkFrom_eq (t : Tables) (level raw va : ℕ) :
    x86WalkFrom t.mem level raw va = translate t level raw va := by
  induction level generalizing raw with
  | zero =>
      unfold x86WalkFrom translate Radix.walk
      rw [trace]
      cases hv : pteView 0 raw <;> simp [leafOf, hv]
  | succ k ih =>
      unfold x86WalkFrom
      cases hv : pteView (k + 1) raw with
      | absent =>
          unfold translate
          rw [walk_end _ (by simp [hv])]
          simp [leafOf, hv]
      | leaf a =>
          unfold translate
          rw [walk_end _ (by simp [hv])]
          simp [leafOf, hv]
      | table pt =>
          show x86WalkFrom t.mem k (t.mem pt (va / 2 ^ (12 + k * 9) % 512)) va = _
          rw [← pageRadix_digit, ih]
          unfold translate
          rw [walk_table _ hv]

/-- Source: `sys/vmem.hpp` `pte::present`. Kind: L -/
theorem pteView_absent {level raw : ℕ} :
    pteView level raw = .absent ↔ Pte.present raw = false := by
  unfold pteView
  cases Pte.present raw with
  | false => simp
  | true =>
      simp only [Bool.not_true, Bool.false_eq_true, if_false]
      split <;> simp

/-- An entry that the traversal follows leads to the table that it means.
Source: `sys/vmem.hpp` `pte::addr`
Kind: L -/
theorem pteView_table {level raw pt : ℕ} (h : pteView level raw = .table pt) :
    Pte.addr raw false = pt := by
  unfold pteView at h
  split at h
  · cases h
  · split at h
    · cases h
    · cases h
      exact Pte.addr_false raw

/-- The table is where the processor finds it: in the bits 12 to 51.
Source: `sys/vmem.hpp` `pte::addr`
Kind: L -/
theorem bits_of_pteView_table {level raw pt : ℕ} (h : pteView level raw = .table pt) :
    raw % 2 ^ 52 / 2 ^ 12 * 2 ^ 12 = pt := by
  rw [← Pte.addr_false, pteView_table h]

/-- The entry of a table. Source: `sys/vmem.hpp` `pte::set_normal`. Kind: L -/
theorem pteView_setNormal {level pt : ℕ} (hp : 2 ^ 12 ∣ pt) (hlt : pt < 2 ^ 52) :
    pteView (level + 1) (Pte.setNormal pt) = .table pt := by
  have hpr : Pte.present (Pte.setNormal pt) = true := Pte.present_set hp false
  have hla : Pte.large (Pte.setNormal pt) = false := Pte.large_set hp false
  have haddr : Pte.setNormal pt % 2 ^ 52 / 2 ^ 12 * 2 ^ 12 = pt := by
    rw [← Pte.addr_false]
    exact Pte.addr_set_false hp hlt false
  unfold pteView
  rw [hpr, hla, haddr]
  simp

/-- The entry of a page of either size. Source: `sys/vmem.hpp` `pte::set`. Kind: L -/
theorem pteView_set {level p : ℕ} (hlevel : level < numPageSizes) (hp : 2 ^ 12 ∣ p) :
    pteView level (Pte.set p (0 < level)) = .leaf (Pte.set p (0 < level)) := by
  have hpres := Pte.present_set hp (0 < level)
  have hlarge := Pte.large_set hp (0 < level)
  unfold numPageSizes at hlevel
  unfold pteView
  rw [hpres, hlarge, if_neg (by decide)]
  by_cases h0 : level = 0
  · rw [if_pos (Or.inl h0)]
  · rw [if_pos (Or.inr ⟨by omega, by simpa using by omega⟩)]

/-- A cleared entry. Source: `sys/vmem.hpp` `pte::pte`. Kind: L -/
theorem pteView_zero (level : ℕ) : pteView level 0 = .absent :=
  pteView_absent.mpr (by decide)

end EbbRT
