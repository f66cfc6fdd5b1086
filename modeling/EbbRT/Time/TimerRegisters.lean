import EbbRT.Time.ApicTimer

/-!
# What the timer is programmed with

`SetTimer` halves the ticks until they fit in 32 bits and counts the halvings in `divider`, starting
from -1. Up to ratio 16 that number is the code of the ratio in the divide configuration register; from
ratio 32 on bit 2, which is reserved, would have to be skipped and bit 3 set. `setTimer_exactlyWhen`
says for which products of the delay and `ticks_per_us_` the registers that are written stand for the
delay.
-/

namespace EbbRT

namespace ApicTimer

/-- The ratio that the divide configuration register selects; bit 2 is reserved as zero.
Source: none: infrastructure
Kind: D -/
def selectedRatio (dcr : ℕ) : Option ℕ := if dcr / 4 % 2 = 0 then some (divideRatio dcr) else none

/-- The count at the ratio is the number of ticks, rounded down to what the ratio can express.
Source: none: infrastructure
Kind: D -/
def Expresses (ticks ratio count : ℕ) : Prop :=
  count < 2 ^ 32 ∧ count * ratio ≤ ticks ∧ ticks < (count + 1) * ratio

/-- What is written stands for the delay, and a delay that no registers stand for aborts.
Source: `sys/timer.cpp` `ApicTimer::SetTimer`
Kind: D -/
structure Faithful (ticksPerUs fromNow : ℕ) : Prop where
  written : ∀ regs, setTimer ticksPerUs fromNow = some regs →
    ∃ ratio, selectedRatio regs.1 = some ratio ∧ Expresses (fromNow * ticksPerUs) ratio regs.2
  aborts : (∀ dcr ratio count, selectedRatio dcr = some ratio →
    ¬ Expresses (fromNow * ticksPerUs) ratio count) → setTimer ticksPerUs fromNow = none

/-- **The loop.** It halves the ticks until they fit in 32 bits, and no further.
Source: `sys/timer.cpp` `ApicTimer::SetTimer`
Kind: L -/
theorem divideLoop_exact (fuel ticks : ℕ) (divider : ℤ) (h : ticks < 2 ^ (32 + fuel)) :
    ∃ n : ℕ, divideLoop fuel ticks divider = (ticks / 2 ^ n, divider + n) ∧ ticks / 2 ^ n < 2 ^ 32 ∧
      (n ≠ 0 → 2 ^ 31 ≤ ticks / 2 ^ n) := by
  induction fuel generalizing ticks divider with
  | zero =>
      refine ⟨0, by simp [divideLoop], ?_, fun hne => (hne rfl).elim⟩
      rw [pow_zero, Nat.div_one]
      exact h
  | succ fuel ih =>
      unfold divideLoop
      by_cases hbig : 0xFFFFFFFF < ticks
      · rw [if_pos hbig]
        have hhalf : ticks / 2 < 2 ^ (32 + fuel) := by
          rw [← Nat.add_assoc, pow_succ] at h
          omega
        obtain ⟨n, hloop, hlt, hge⟩ := ih (ticks / 2) (divider + 1) hhalf
        have hdiv : ticks / 2 / 2 ^ n = ticks / 2 ^ (n + 1) := by
          rw [Nat.div_div_eq_div_mul, pow_succ']
        refine ⟨n + 1, ?_, hdiv ▸ hlt, fun _ => ?_⟩
        · rw [hloop, hdiv]
          push_cast
          congr 1
          ring
        · rw [← hdiv]
          by_cases hn : n = 0
          · rw [hn, pow_zero, Nat.div_one]
            omega
          · exact hge hn
      · rw [if_neg hbig]
        refine ⟨0, by simp, ?_, fun hne => (hne rfl).elim⟩
        rw [pow_zero, Nat.div_one]
        omega

/-- What is written: the ticks that were halved `n` times.
Source: `sys/timer.cpp` `ApicTimer::SetTimer`
Kind: L -/
theorem setTimer_eq (ticksPerUs fromNow : ℕ) :
    ∃ n : ℕ, (ticksOf ticksPerUs fromNow / 2 ^ n < 2 ^ 32 ∧
        (n ≠ 0 → 2 ^ 31 ≤ ticksOf ticksPerUs fromNow / 2 ^ n)) ∧
      setTimer ticksPerUs fromNow =
        if 8 < n then none
        else some (if n = 0 then 0xb else n - 1, ticksOf ticksPerUs fromNow / 2 ^ n) := by
  have hticks : ticksOf ticksPerUs fromNow < 2 ^ (32 + 32) := Nat.mod_lt _ (by norm_num)
  obtain ⟨n, hloop, hlt, hge⟩ := divideLoop_exact 32 (ticksOf ticksPerUs fromNow) (-1) hticks
  refine ⟨n, ⟨hlt, hge⟩, ?_⟩
  unfold setTimer
  rw [hloop]
  dsimp only
  by_cases hbug : 8 < n
  · rw [if_pos hbug, if_pos (by omega)]
  · have hcode : (-1 + (n : ℤ)).toNat = n - 1 := by omega
    rw [if_neg hbug, if_neg (by omega), hcode]
    by_cases hn : n = 0
    · rw [if_pos hn, if_pos (by omega)]
    · rw [if_neg hn, if_neg (by omega)]

/-- The code that is written for `n` halvings selects ratio `2 ^ n` up to 16, and nothing from 32 on.
Source: `sys/timer.cpp` `ApicTimer::SetTimer`
Kind: L -/
theorem selectedRatio_code {n : ℕ} (hn : n ≤ 8) :
    selectedRatio (if n = 0 then 0xb else n - 1) = if n ≤ 4 then some (2 ^ n) else none := by
  interval_cases n <;> decide

/-- The number of halvings, by the ticks. Source: `sys/timer.cpp` `ApicTimer::SetTimer`. Kind: L -/
theorem halvings_bounds {ticks n : ℕ} (hlt : ticks / 2 ^ n < 2 ^ 32)
    (hge : n ≠ 0 → 2 ^ 31 ≤ ticks / 2 ^ n) : ticks < 2 ^ (32 + n) ∧ (n ≠ 0 → 2 ^ (31 + n) ≤ ticks) := by
  have hpos := Nat.two_pow_pos n
  constructor
  · rw [pow_add]
    exact (Nat.div_lt_iff_lt_mul hpos).mp hlt
  · intro hn
    rw [pow_add]
    exact (Nat.le_div_iff_mul_le hpos).mp (hge hn)

/-- **The registers stand for the delay exactly when** the ticks have at most 36 bits, or their low 64
bits are too many for any divider, so that the call aborts.
Source: `sys/timer.cpp` `ApicTimer::SetTimer`
Kind: C -/
theorem setTimer_exactlyWhen (ticksPerUs fromNow : ℕ) :
    Faithful ticksPerUs fromNow ↔
      fromNow * ticksPerUs < 2 ^ 36 ∨ 2 ^ 40 ≤ fromNow * ticksPerUs % 2 ^ 64 := by
  obtain ⟨n, ⟨hlt, hge⟩, hset⟩ := setTimer_eq ticksPerUs fromNow
  obtain ⟨hupper, hlower⟩ := halvings_bounds hlt hge
  constructor
  · intro hfaithful
    by_contra hnot
    obtain ⟨hlarge, hsmall⟩ := not_or.mp hnot
    rw [not_lt] at hlarge
    rw [not_le] at hsmall
    have hn : n ≤ 8 := by
      by_contra hn
      have hmono : 2 ^ 40 ≤ 2 ^ (31 + n) := Nat.pow_le_pow_right (by norm_num) (by omega)
      exact absurd (hmono.trans (hlower (by omega))) (not_le.mpr hsmall)
    rw [if_neg (not_lt.mpr hn)] at hset
    obtain ⟨ratio, hratio, hcount, -, hend⟩ := hfaithful.written _ hset
    rw [selectedRatio_code hn] at hratio
    by_cases hcode : n ≤ 4
    · rw [if_pos hcode] at hratio
      obtain rfl := Option.some.inj hratio
      -- a 32-bit count at a ratio of at most 16 has at most 36 bits
      have hratio : 2 ^ n ≤ 2 ^ 4 := Nat.pow_le_pow_right (by norm_num) hcode
      have hle : (ticksOf ticksPerUs fromNow / 2 ^ n + 1) * 2 ^ n ≤ 2 ^ 32 * 2 ^ 4 :=
        Nat.mul_le_mul hcount hratio
      exact absurd (hend.trans_le hle) (not_lt.mpr hlarge)
    · rw [if_neg hcode] at hratio
      exact (Option.some_ne_none ratio hratio.symm).elim
  · rintro (hsmall | hlarge)
    · have hticks : ticksOf ticksPerUs fromNow = fromNow * ticksPerUs :=
        Nat.mod_eq_of_lt (hsmall.trans (by norm_num))
      rw [hticks] at hset hlt hlower
      have hn : n ≤ 4 := by
        by_contra hn
        have hmono : 2 ^ 36 ≤ 2 ^ (31 + n) := Nat.pow_le_pow_right (by norm_num) (by omega)
        exact absurd (hmono.trans (hlower (by omega))) (not_le.mpr hsmall)
      have hratio := selectedRatio_code (show n ≤ 8 by omega)
      rw [if_pos hn] at hratio
      rw [if_neg (show ¬ 8 < n by omega)] at hset
      have hpos := Nat.two_pow_pos n
      have hexpresses : Expresses (fromNow * ticksPerUs) (2 ^ n) (fromNow * ticksPerUs / 2 ^ n) := by
        refine ⟨hlt, Nat.div_mul_le_self _ _, ?_⟩
        rw [Nat.add_mul, one_mul]
        exact Nat.lt_div_mul_add hpos
      refine ⟨fun regs hregs => ?_, fun hnone => (hnone _ _ _ hratio hexpresses).elim⟩
      obtain rfl := Option.some.inj (hset.symm.trans hregs)
      exact ⟨_, hratio, hexpresses⟩
    · have hn : 8 < n := by
        by_contra hn
        have hmono : 2 ^ (32 + n) ≤ 2 ^ 40 := Nat.pow_le_pow_right (by norm_num) (by omega)
        exact absurd (hupper.trans_le hmono) (not_lt.mpr hlarge)
      rw [if_pos hn] at hset
      refine ⟨fun regs hregs => ?_, fun _ => hset⟩
      rw [hset] at hregs
      exact (Option.some_ne_none regs hregs.symm).elim

/-- A hundred seconds at a thousand ticks for a microsecond: the ratio would have to be 32, and the code
that is written has bit 2 set.
Source: `sys/timer.cpp` `ApicTimer::SetTimer`
Kind: C -/
theorem setTimer_not_always : ¬ ∀ ticksPerUs fromNow : ℕ, Faithful ticksPerUs fromNow := by
  intro hall
  have hset : setTimer 1000 100000000 = some (4, 3125000000) := by decide
  obtain ⟨ratio, hratio, -⟩ := (hall 1000 100000000).written _ hset
  have hnone : selectedRatio 4 = none := by decide
  exact Option.some_ne_none ratio (hratio.symm.trans hnone)

end ApicTimer

end EbbRT
