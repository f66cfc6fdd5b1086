import Mathlib

/-!
# Page frame numbers and alignment

`pfn.hpp` and `align.hpp`: page frame numbers (`pfn_t`) and addresses are 64-bit words, kept here
as naturals with the wrap of the word written out (`word`), and `align_down` masks with the
complement of `alignment - 1`. On a power of two the mask is rounding (`alignDown_two_pow`).
-/

namespace EbbRT

/-- The number of values of a 64-bit word.
Source: none: infrastructure
Kind: D -/
def word : ℕ := 2 ^ 64

/-- Subtraction of 64-bit words.
Source: none: infrastructure
Kind: D -/
def wsub (a b : ℕ) : ℕ := (a + word - b) % word

/-- Without wrap it is subtraction. Source: none: infrastructure. Kind: L -/
theorem wsub_eq {a b : ℕ} (hba : b ≤ a) (ha : a < word) : wsub a b = a - b := by
  rw [wsub, show a + word - b = a - b + word by omega, Nat.add_mod_right,
    Nat.mod_eq_of_lt (by omega)]

/-- Source: `sys/pfn.hpp` `PAGE_SHIFT`
Kind: D -/
def pageShift : ℕ := 12

/-- Page frame numbers of 64-bit addresses are below this bound.
Source: `sys/pfn.hpp` `pfn_down`
Kind: D -/
def maxPfn : ℕ := 2 ^ 52

/-- Source: `sys/pfn.hpp` `PAGE_SIZE`
Kind: D -/
def pageSize : ℕ := 1 <<< pageShift

/-- `(addr + PAGE_SIZE - 1) >> PAGE_SHIFT`, the sum in 64 bits.
Source: `sys/pfn.hpp` `pfn_up`
Kind: D -/
def pfnUp (addr : ℕ) : ℕ := ((addr + pageSize - 1) % word) >>> pageShift

/-- `addr >> PAGE_SHIFT`.
Source: `sys/pfn.hpp` `pfn_down`
Kind: D -/
def pfnDown (addr : ℕ) : ℕ := addr >>> pageShift

/-- `pfn << PAGE_SHIFT`, in 64 bits.
Source: `sys/pfn.hpp` `pfn_to_addr`
Kind: D -/
def pfnToAddr (pfn : ℕ) : ℕ := (pfn <<< pageShift) % word

/-- The address of a page frame does not wrap. Source: `sys/pfn.hpp` `pfn_to_addr`. Kind: L -/
theorem pfnToAddr_of_lt {pfn : ℕ} (h : pfn < maxPfn) : pfnToAddr pfn = pfn * pageSize := by
  unfold pfnToAddr
  rw [Nat.shiftLeft_eq]
  apply Nat.mod_eq_of_lt
  have : maxPfn * 2 ^ pageShift = word := by decide
  rw [← this]
  exact Nat.mul_lt_mul_of_pos_right h (by decide)

/-- `val & ~(alignment - 1)`: the complement in 64 bits is `2 ^ 64 - alignment`.
Source: `sys/align.hpp` `align_down`
Kind: D -/
def alignDown (val alignment : ℕ) : ℕ := val &&& (word - alignment)

/-- `align_down(val + alignment - 1, alignment)`, the sum in 64 bits.
Source: `sys/align.hpp` `align_up`
Kind: D -/
def alignUp (val alignment : ℕ) : ℕ := alignDown ((val + alignment - 1) % word) alignment

/-- The page size is `2 ^ 12`. Source: `sys/pfn.hpp` `PAGE_SIZE`. Kind: L -/
theorem pageSize_eq : pageSize = 4096 := rfl

/-- On a power of two, `align_down` rounds down to a multiple.
Source: `sys/align.hpp` `align_down`
Kind: L -/
theorem alignDown_two_pow {val k : ℕ} (hv : val < word) (hk : k ≤ 64) :
    alignDown val (2 ^ k) = val / 2 ^ k * 2 ^ k := by
  have hmask : word - 2 ^ k = (2 ^ (64 - k) - 1) <<< k := by
    rw [Nat.shiftLeft_eq, Nat.sub_mul, ← Nat.pow_add, Nat.sub_add_cancel hk, one_mul, word]
  have hdiv : val / 2 ^ k < 2 ^ (64 - k) := by
    rw [Nat.div_lt_iff_lt_mul (Nat.two_pow_pos k), ← Nat.pow_add, Nat.sub_add_cancel hk]
    exact hv
  apply Nat.eq_of_testBit_eq
  intro i
  rw [alignDown, hmask, Nat.testBit_and, Nat.testBit_shiftLeft, Nat.testBit_mul_two_pow,
    Nat.testBit_two_pow_sub_one, Nat.testBit_div_two_pow]
  by_cases hik : k ≤ i
  · rw [Nat.sub_add_cancel hik]
    by_cases hi : i - k < 64 - k
    · simp [hik, hi]
    · have : val.testBit i = false :=
        Nat.testBit_lt_two_pow (hv.trans_le (Nat.pow_le_pow_right (by norm_num) (by omega)))
      simp [hik, this]
  · simp [hik]

/-- On a power of two and without wrap, `align_up` rounds up to a multiple.
Source: `sys/align.hpp` `align_up`
Kind: L -/
theorem alignUp_two_pow {val k : ℕ} (hv : val + 2 ^ k - 1 < word) (hk : k ≤ 64) :
    alignUp val (2 ^ k) = (val + 2 ^ k - 1) / 2 ^ k * 2 ^ k := by
  rw [alignUp, Nat.mod_eq_of_lt hv, alignDown_two_pow hv hk]

end EbbRT
