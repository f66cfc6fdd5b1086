import EbbRT.Lib.Multimap
import EbbRT.Lib.System

/-!
# The APIC timer

Pending timers stand in a multimap under their deadlines in nanoseconds, and the hardware is armed
for the earliest one: by `Start` when the new timer is the earliest, and at the end of every run of
the interrupt handler. What `SetTimer` gets is a duration in microseconds, rounded down, which it
turns into ticks modulo 2^64; a duration of no ticks writes an initial count of zero, and that stops
the hardware. `timerArmed_exactlyWhen`: this is the only way in which pending timers are left without
an interrupt to come.
-/

namespace EbbRT

open EbbRT.Lib

namespace ApicTimer

/-! ## The code -/

/-- `while (ticks > 0xFFFFFFFF)`: the ticks that are left and the divider. The ticks have 64 bits, so
that 32 rounds are enough.
Source: `sys/timer.cpp` `ApicTimer::SetTimer`
Kind: D -/
def divideLoop : ℕ → ℕ → ℤ → ℕ × ℤ
  | 0, ticks, divider => (ticks, divider)
  | fuel + 1, ticks, divider =>
      if 0xFFFFFFFF < ticks then divideLoop fuel (ticks / 2) (divider + 1) else (ticks, divider)

/-- The ticks of a duration, in a `uint64_t`.
Source: `sys/timer.cpp` `ApicTimer::SetTimer`
Kind: D -/
def ticksOf (ticksPerUs fromNow : ℕ) : ℕ := fromNow * ticksPerUs % 2 ^ 64

/-- What is written to the divide configuration register and to the initial count.
Source: `sys/timer.cpp` `ApicTimer::SetTimer`
Kind: D -/
def setTimer (ticksPerUs fromNow : ℕ) : Option (ℕ × ℕ) :=
  let r := divideLoop 32 (ticksOf ticksPerUs fromNow) (-1)
  if 7 < r.2 then none
  else some (if r.2 = -1 then 0xb else r.2.toNat, r.1)

/-- A running count: when it was written, the divide ratio and the initial count.
Source: none: infrastructure
Kind: D -/
structure Arm where
  since : ℕ
  divide : ℕ
  count : ℕ
  deriving DecidableEq, Repr

/-- The ratio that bits 3, 1 and 0 of the divide configuration register choose.
Source: none: infrastructure
Kind: D -/
def divideRatio (dcr : ℕ) : ℕ :=
  let v := dcr % 4 + 4 * (dcr / 8 % 2)
  if v = 7 then 1 else 2 ^ (v + 1)

/-- A write to the initial count: zero stops the timer, anything else arms it once.
Source: none: infrastructure
Kind: D -/
def arm (now : ℕ) (regs : ℕ × ℕ) : Option Arm :=
  if regs.2 = 0 then none else some ⟨now, divideRatio regs.1, regs.2⟩

/-- Where the core is: outside the timer's code, at the head of the handler's loop, or in a callback
that the loop has called.
Source: `sys/timer.cpp` `ApicTimer::ApicTimer`
Kind: D -/
inductive Pc (β : Type)
  | idle
  | handler
  | callback (f : β)
  deriving DecidableEq

/-- The deadlines are in nanoseconds, `ticks_per_us_` and the periods per and in microseconds; `now`
is the last clock reading.
Source: `sys/timer.hpp` `ApicTimer`
Kind: D -/
structure State (β : Type) where
  ticksPerUs : ℕ
  timers : Multimap ℕ (β × ℕ)
  armed : Option Arm
  now : ℕ
  pc : Pc β

variable {β : Type}

/-- Source: `sys/timer.cpp` `ApicTimer::SetTimer`
Kind: D -/
def State.setTimer (s : State β) (fromNow : ℕ) : Option (State β) :=
  (ApicTimer.setTimer s.ticksPerUs fromNow).map fun regs => { s with armed := arm s.now regs }

/-- `timers_.empty() || timers_.begin()->first > when`
Source: `sys/timer.cpp` `ApicTimer::Start`
Kind: D -/
def State.Earliest (s : State β) (when : ℕ) : Prop := ∀ b, s.timers.begin? = some b → when < b.1

instance (s : State β) (when : ℕ) : Decidable (s.Earliest when) :=
  inferInstanceAs (Decidable (∀ b, s.timers.begin? = some b → when < b.1))

/-- Source: `sys/timer.cpp` `ApicTimer::Start`
Kind: D -/
def State.start (s : State β) (reading timeout : ℕ) (f : β) : Option (State β) :=
  let when := reading + 1000 * timeout
  (if s.Earliest when then { s with now := reading }.setTimer timeout
    else some { s with now := reading }).map fun s =>
      { s with timers := s.timers.emplace when (f, timeout) }

/-- The handler is entered; the count has run out.
Source: `sys/timer.cpp` `ApicTimer::ApicTimer`
Kind: D -/
def State.interrupt (s : State β) (reading : ℕ) : Option (State β) :=
  -- `kassert(!timers_.empty())`
  s.timers.begin?.map fun _ => { s with now := reading, armed := none, pc := .handler }

/-- The head of the handler's loop: call the first timer if it is due, or leave the loop and set the
timer.
Source: `sys/timer.cpp` `ApicTimer::ApicTimer`
Kind: D -/
def State.turn (s : State β) : Option (State β) :=
  match s.timers.begin? with
  | some (deadline, f, period) =>
      if deadline ≤ s.now then
        some { s with
          timers := (s.timers.emplace (s.now + 1000 * period) (f, period)).eraseBegin
          pc := .callback f }
      else
        (s.setTimer ((deadline - s.now) / 1000)).map fun s => { s with pc := .idle }
  | none => some { s with pc := .idle }

/-! ## The system -/

/-- Source: none: infrastructure
Kind: D -/
inductive Op (β : Type)
  | start (reading timeout : ℕ) (f : β)
  | interrupt (reading : ℕ)
  | turn
  | callbackReturn (reading : ℕ)

/-- `Start` comes from outside the handler or from a callback, with a positive timeout; the clock
does not go back.
Source: none: infrastructure
Kind: D -/
def Legal (s : State β) : Op β → Prop
  | .start reading timeout _ => s.pc ≠ .handler ∧ s.now ≤ reading ∧ 0 < timeout
  | .interrupt reading => s.pc = .idle ∧ s.now ≤ reading
  | .turn => s.pc = .handler
  | .callbackReturn reading => s.pc ≠ .idle ∧ s.pc ≠ .handler ∧ s.now ≤ reading

/-- Source: none: infrastructure
Kind: D -/
def step (s : State β) : Op β → Option (State β)
  | .start reading timeout f => s.start reading timeout f
  | .interrupt reading => s.interrupt reading
  | .turn => s.turn
  | .callbackReturn reading => some { s with now := reading, pc := .handler }

/-- Source: `sys/timer.cpp` `ApicTimer`
Kind: D -/
def system (β : Type) : System (State β) (Op β) := ⟨Legal, step⟩

/-- The constructor leaves the timer stopped.
Source: `sys/timer.cpp` `ApicTimer::ApicTimer`
Kind: D -/
def init (β : Type) (ticksPerUs now : ℕ) : State β := ⟨ticksPerUs, Multimap.empty, none, now, .idle⟩

/-- Every pending timer has an interrupt to come that is not later than its deadline: the count that
runs is not zero, and in units of a thousandth of a tick it ends before the deadline.
Source: none: infrastructure
Kind: D -/
def State.Alive (s : State β) : Prop :=
  ∀ e ∈ s.timers.entries, ∃ a, s.armed = some a ∧ a.count ≠ 0 ∧
    a.since * s.ticksPerUs + 1000 * (a.count * a.divide) ≤ e.1 * s.ticksPerUs

/-- Once a `Start` or a run of the handler is over, the timer is armed for what is pending.
Source: none: infrastructure
Kind: D -/
def ArmedAfter (_ : State β) (_ : Op β) (s' : State β) : Prop := s'.pc = .idle → s'.Alive

/-- The steps that the code handles. A `Start` outside the handler whose timer is the earliest has a
timeout of some ticks; when the handler's loop ends with timers pending, the whole microseconds to
the earliest deadline are some ticks.
Source: `sys/timer.cpp` `ApicTimer::SetTimer`
Kind: D -/
def SomeTicks (s : State β) : Op β → Prop
  | .start reading timeout _ =>
      s.pc = .idle → s.Earliest (reading + 1000 * timeout) → ticksOf s.ticksPerUs timeout ≠ 0
  | .turn =>
      ∀ b, s.timers.begin? = some b → s.now < b.1 → ticksOf s.ticksPerUs ((b.1 - s.now) / 1000) ≠ 0
  | _ => True

instance [DecidableEq β] (s : State β) : ∀ op : Op β, Decidable (SomeTicks s op)
  | .start reading timeout _ => inferInstanceAs (Decidable (s.pc = .idle →
      s.Earliest (reading + 1000 * timeout) → ticksOf s.ticksPerUs timeout ≠ 0))
  | .turn => inferInstanceAs (Decidable (∀ b, s.timers.begin? = some b → s.now < b.1 →
      ticksOf s.ticksPerUs ((b.1 - s.now) / 1000) ≠ 0))
  | .interrupt _ => isTrue trivial
  | .callbackReturn _ => isTrue trivial

instance [DecidableEq β] (s : State β) : ∀ op : Op β, Decidable ((system β).legal s op)
  | .start reading timeout _ =>
      inferInstanceAs (Decidable (s.pc ≠ .handler ∧ s.now ≤ reading ∧ 0 < timeout))
  | .interrupt reading => inferInstanceAs (Decidable (s.pc = .idle ∧ s.now ≤ reading))
  | .turn => inferInstanceAs (Decidable (s.pc = .handler))
  | .callbackReturn reading =>
      inferInstanceAs (Decidable (s.pc ≠ .idle ∧ s.pc ≠ .handler ∧ s.now ≤ reading))

/-! ## What is written to the hardware -/

/-- The loop halves `n` times, and only numbers of more than 32 bits.
Source: `sys/timer.cpp` `ApicTimer::SetTimer`
Kind: L -/
theorem divideLoop_spec (fuel ticks : ℕ) (divider : ℤ) :
    ∃ n : ℕ, divideLoop fuel ticks divider = (ticks / 2 ^ n, divider + n) ∧
      (ticks ≠ 0 → ticks / 2 ^ n ≠ 0) := by
  induction fuel generalizing ticks divider with
  | zero => exact ⟨0, by simp [divideLoop], by simp⟩
  | succ fuel ih =>
      unfold divideLoop
      by_cases hbig : 0xFFFFFFFF < ticks
      · rw [if_pos hbig]
        obtain ⟨n, hloop, hpos⟩ := ih (ticks / 2) (divider + 1)
        have hhalf : ticks / 2 / 2 ^ n = ticks / 2 ^ (n + 1) := by
          rw [Nat.div_div_eq_div_mul, pow_succ']
        rw [hhalf] at hloop hpos
        refine ⟨n + 1, ?_, fun _ => hpos (by omega)⟩
        rw [hloop]
        push_cast
        congr 1
        ring
      · rw [if_neg hbig]
        exact ⟨0, by simp, by simp⟩

/-- The ratio is not more than what the loop has divided by.
Source: `sys/timer.cpp` `ApicTimer::SetTimer`
Kind: L -/
theorem divideRatio_le {n : ℕ} (h : (n : ℤ) - 1 ≤ 7) :
    divideRatio (if (n : ℤ) - 1 = -1 then 0xb else ((n : ℤ) - 1).toNat) ≤ 2 ^ n := by
  have hn : n ≤ 8 := by omega
  interval_cases n <;> decide

/-- **The registers.** The count is zero only for a duration of no ticks, and it does not run for
longer than the duration.
Source: `sys/timer.cpp` `ApicTimer::SetTimer`
Kind: L -/
theorem setTimer_spec {ticksPerUs fromNow : ℕ} {regs : ℕ × ℕ}
    (h : setTimer ticksPerUs fromNow = some regs) :
    (ticksOf ticksPerUs fromNow ≠ 0 → regs.2 ≠ 0) ∧
      regs.2 * divideRatio regs.1 ≤ ticksOf ticksPerUs fromNow := by
  obtain ⟨n, hloop, hpos⟩ := divideLoop_spec 32 (ticksOf ticksPerUs fromNow) (-1)
  have hdivider : (-1 : ℤ) + n = n - 1 := by ring
  rw [hdivider] at hloop
  unfold setTimer at h
  rw [hloop] at h
  dsimp only at h
  by_cases hbug : 7 < (n : ℤ) - 1
  · rw [if_pos hbug] at h
    cases h
  · rw [if_neg hbug] at h
    cases h
    refine ⟨hpos, ?_⟩
    dsimp only
    calc ticksOf ticksPerUs fromNow / 2 ^ n *
          divideRatio (if (n : ℤ) - 1 = -1 then 0xb else ((n : ℤ) - 1).toNat)
        ≤ ticksOf ticksPerUs fromNow / 2 ^ n * 2 ^ n :=
          Nat.mul_le_mul_left _ (divideRatio_le (not_lt.mp hbug))
      _ ≤ ticksOf ticksPerUs fromNow := Nat.div_mul_le_self _ _

variable {s s' : State β}

/-- **The hardware after `SetTimer`.** A duration of some ticks arms the timer for a time within it.
Source: `sys/timer.cpp` `ApicTimer::SetTimer`
Kind: L -/
theorem State.setTimer_spec {fromNow : ℕ} (h : s.setTimer fromNow = some s') :
    ∃ armed, s' = { s with armed := armed } ∧
      (ticksOf s.ticksPerUs fromNow = 0 → armed = none) ∧
      (ticksOf s.ticksPerUs fromNow ≠ 0 → ∃ a, armed = some a ∧ a.count ≠ 0 ∧ a.since = s.now ∧
        a.count * a.divide ≤ fromNow * s.ticksPerUs) := by
  unfold State.setTimer at h
  obtain ⟨regs, hregs, rfl⟩ := Option.map_eq_some_iff.mp h
  obtain ⟨hpos, hle⟩ := ApicTimer.setTimer_spec hregs
  refine ⟨arm s.now regs, rfl, ?_, ?_⟩
  · intro hzero
    have hle' : regs.2 * divideRatio regs.1 = 0 := by omega
    have hratio : divideRatio regs.1 ≠ 0 := by
      unfold divideRatio
      dsimp only
      split <;> simp
    unfold arm
    rw [if_pos ((Nat.mul_eq_zero.mp hle').resolve_right hratio)]
  · intro hne
    unfold arm
    rw [if_neg (hpos hne)]
    exact ⟨_, rfl, hpos hne, rfl, hle.trans (Nat.mod_le _ _)⟩

/-- Armed within a duration that ends before the earliest deadline, the timer is alive.
Source: `sys/timer.cpp` `ApicTimer::SetTimer`
Kind: L -/
theorem alive_of_armed {a : Arm} {b : ℕ × (β × ℕ)} {fromNow : ℕ} (ha : s.armed = some a)
    (hcount : a.count ≠ 0) (hle : a.count * a.divide ≤ fromNow * s.ticksPerUs)
    (hb : s.timers.begin? = some b) (hdeadline : a.since + 1000 * fromNow ≤ b.1) : s.Alive := by
  intro e he
  refine ⟨a, ha, hcount, ?_⟩
  calc a.since * s.ticksPerUs + 1000 * (a.count * a.divide)
      ≤ a.since * s.ticksPerUs + 1000 * (fromNow * s.ticksPerUs) := by omega
    _ = (a.since + 1000 * fromNow) * s.ticksPerUs := by ring
    _ ≤ e.1 * s.ticksPerUs :=
        Nat.mul_le_mul_right _ (hdeadline.trans (Multimap.begin_le hb he))

/-- A stopped timer with something pending is dead.
Source: none: infrastructure
Kind: L -/
theorem not_alive {b : ℕ × (β × ℕ)} (hb : s.timers.begin? = some b) (ha : s.armed = none) :
    ¬ s.Alive := by
  intro h
  obtain ⟨a, ha', -⟩ := h b (Multimap.begin_mem hb)
  rw [ha] at ha'
  cases ha'

/-! ## What a step does -/

/-- **`Start`.** If the new timer is the earliest, the hardware is armed for it exactly if the
timeout has some ticks; if it is not, the hardware and the earliest timer stay.
Source: `sys/timer.cpp` `ApicTimer::Start`
Kind: L -/
theorem start_spec {reading timeout : ℕ} {f : β} (h : s.start reading timeout f = some s') :
    s'.pc = s.pc ∧
      (s.Earliest (reading + 1000 * timeout) →
        (s'.Alive ↔ ticksOf s.ticksPerUs timeout ≠ 0)) ∧
      (¬ s.Earliest (reading + 1000 * timeout) → s.Alive → s'.Alive) := by
  unfold State.start at h
  dsimp only at h
  obtain ⟨t, ht, rfl⟩ := Option.map_eq_some_iff.mp h
  by_cases hearliest : s.Earliest (reading + 1000 * timeout)
  · have hbegin : (s.timers.emplace (reading + 1000 * timeout) (f, timeout)).begin? =
        some (reading + 1000 * timeout, f, timeout) := by
      rw [Multimap.begin_emplace]
      exact if_pos hearliest
    rw [if_pos hearliest] at ht
    obtain ⟨armed, rfl, hnone, hsome⟩ := State.setTimer_spec ht
    refine ⟨rfl, fun _ => ⟨?_, ?_⟩, fun hne => (hne hearliest).elim⟩
    · intro halive hzero
      exact not_alive hbegin (hnone hzero) halive
    · intro hne
      obtain ⟨a, rfl, hcount, hsince, hle⟩ := hsome hne
      exact alive_of_armed rfl hcount hle hbegin (by rw [hsince])
  · rw [if_neg hearliest] at ht
    cases ht
    refine ⟨rfl, fun hpos => (hearliest hpos).elim, fun _ halive => ?_⟩
    unfold State.Earliest at hearliest
    push Not at hearliest
    obtain ⟨b, hb, hdeadline⟩ := hearliest
    obtain ⟨a, ha, hcount, hle⟩ := halive b (Multimap.begin_mem hb)
    intro e he
    refine ⟨a, ha, hcount, hle.trans (Nat.mul_le_mul_right _ ?_)⟩
    rcases Multimap.mem_emplace.mp he with rfl | he
    · exact hdeadline
    · exact Multimap.begin_le hb he

/-- **The handler's loop.** It goes on with a callback, or it ends: then the timer is alive exactly
if nothing is pending or the time to the earliest deadline has some ticks.
Source: `sys/timer.cpp` `ApicTimer::ApicTimer`
Kind: L -/
theorem turn_spec (h : s.turn = some s') :
    (s'.pc = .idle → (s'.Alive ↔ SomeTicks s .turn)) ∧ (SomeTicks s .turn ∨ s'.pc = .idle) := by
  unfold State.turn at h
  cases hb : s.timers.begin? with
  | none =>
      rw [hb] at h
      cases h
      have hticks : SomeTicks s .turn := by
        intro b hb'
        rw [hb] at hb'
        cases hb'
      refine ⟨fun _ => iff_of_true ?_ hticks, Or.inl hticks⟩
      intro e he
      obtain ⟨b, hb'⟩ := Multimap.begin_isSome he
      rw [hb] at hb'
      cases hb'
  | some b =>
      obtain ⟨deadline, f, period⟩ := b
      rw [hb] at h
      dsimp only at h
      by_cases hdue : deadline ≤ s.now
      · rw [if_pos hdue] at h
        cases h
        refine ⟨?_, Or.inl ?_⟩
        · intro hpc
          cases hpc
        intro b hb' hlt
        rw [hb] at hb'
        cases hb'
        exact (not_lt.mpr hdue hlt).elim
      · rw [if_neg hdue] at h
        obtain ⟨t, ht, rfl⟩ := Option.map_eq_some_iff.mp h
        obtain ⟨armed, rfl, hnone, hsome⟩ := State.setTimer_spec ht
        refine ⟨fun _ => ⟨?_, ?_⟩, Or.inr rfl⟩
        · intro halive b hb' _ hzero
          rw [hb] at hb'
          cases hb'
          exact absurd halive (not_alive hb (hnone hzero))
        · intro hticks
          obtain ⟨a, rfl, hcount, hsince, hle⟩ := hsome (hticks _ hb (not_le.mp hdue))
          refine alive_of_armed rfl hcount hle hb ?_
          dsimp only
          omega

/-! ## Runs -/

/-- Outside the handler what is pending has an interrupt to come.
Source: none: infrastructure
Kind: D -/
def Inv (s : State β) : Prop := s.pc = .idle → s.Alive

/-- **A step is as it should be exactly if it sets the timer for some ticks.**
Source: `sys/timer.cpp` `ApicTimer`
Kind: P -/
theorem step_spec {op : Op β} (hinv : Inv s) (hlegal : (system β).legal s op)
    (hstep : step s op = some s') : Inv s' ↔ SomeTicks s op := by
  cases op with
  | start reading timeout f =>
      obtain ⟨hpc, hpos, hneg⟩ := start_spec hstep
      unfold Inv SomeTicks
      rw [hpc]
      refine forall_congr' fun hidle => ?_
      by_cases hearliest : s.Earliest (reading + 1000 * timeout)
      · rw [hpos hearliest]
        exact ⟨fun h _ => h, fun h => h hearliest⟩
      · exact iff_of_true (hneg hearliest (hinv hidle)) fun h => (hearliest h).elim
  | interrupt reading =>
      refine iff_of_true ?_ trivial
      intro hidle
      obtain ⟨b, -, rfl⟩ := Option.map_eq_some_iff.mp hstep
      cases hidle
  | turn =>
      obtain ⟨hidle, hor⟩ := turn_spec hstep
      rcases hor with hticks | hpc
      · exact iff_of_true (fun hpc => (hidle hpc).mpr hticks) hticks
      · exact ⟨fun h => (hidle hpc).mp (h hpc), fun h _ => (hidle hpc).mpr h⟩
  | callbackReturn reading =>
      refine iff_of_true ?_ trivial
      intro hidle
      cases hstep
      cases hidle

/-- In runs that always set the timer for some ticks the timer stays alive.
Source: `sys/timer.cpp` `ApicTimer`
Kind: P -/
theorem inv_run {ticksPerUs now : ℕ} {ops : List (Op β)}
    (hrun : ((system β).guard SomeTicks).Run (init β ticksPerUs now) ops s) : Inv s := by
  refine hrun.invariant ?_ ?_
  · intro _ e he
    simp [init, Multimap.empty] at he
  · rintro s op s' hinv ⟨hlegal, hok⟩ hstep
    exact (step_spec hinv hlegal hstep).mpr hok

/-- **The timer never goes dead.** In every run of `Start` calls, from anywhere, and of interrupts,
with any clock readings that do not go back, in which the timer has always been set for some ticks:
the next step leaves it armed for the earliest deadline, if timers are pending, exactly when it sets
the timer for some ticks too.
Source: `sys/timer.cpp` `ApicTimer`
Kind: C
Fidelity: weaker than the code promises: up to the first setting of the timer for no ticks -/
theorem timerArmed_exactlyWhen (β : Type) (ticksPerUs now : ℕ) :
    (system β).ExactlyWhen (init β ticksPerUs now) ArmedAfter SomeTicks := by
  intro ops s op s' hrun hlegal hstep
  exact step_spec (inv_run hrun) hlegal hstep

/-- The first of two timers is served, and its callback starts a third one: the handler sets the
hardware for the second one.
Source: `sys/timer.cpp` `ApicTimer::ApicTimer`
Kind: C -/
theorem timerArmed_exactlyWhen_served :
    ∃ s s', ((system Unit).guard SomeTicks).Run (init Unit 1000 0)
        [.start 0 10 (), .start 4000 10 (), .interrupt 10000, .turn, .start 10200 50 (),
          .callbackReturn 10500] s ∧
      step s .turn = some s' ∧ SomeTicks s .turn ∧ s'.timers.entries.length = 3 ∧
      ArmedAfter s .turn s' := by
  have hadmits : ((system Unit).guard SomeTicks).Admits (init Unit 1000 0)
      ([.start 0 10 (), .start 4000 10 (), .interrupt 10000, .turn, .start 10200 50 (),
          .callbackReturn 10500] ++ [.turn]) := by
    decide +kernel
  have hend : (((system Unit).exec (init Unit 1000 0) [.start 0 10 (), .start 4000 10 (),
      .interrupt 10000, .turn, .start 10200 50 (), .callbackReturn 10500]).bind
        fun s => step s .turn).map (fun s => s.timers.entries.length) = some 3 := by
    decide +kernel
  obtain ⟨s, s', hexec, hrun, hlegal, hstep⟩ := hadmits.last
  have hturn : step s .turn = some s' := hstep
  have hexec : (system Unit).exec (init Unit 1000 0) [.start 0 10 (), .start 4000 10 (),
      .interrupt 10000, .turn, .start 10200 50 (), .callbackReturn 10500] = some s := hexec
  rw [hexec, Option.bind_some, hturn] at hend
  refine ⟨s, s', hrun, hturn, hlegal.2, Option.some.inj hend, ?_⟩
  exact (timerArmed_exactlyWhen Unit 1000 0 _ _ _ _ hrun hlegal.1 hstep).mpr hlegal.2

/-- Two timers of 10 us, the second half a microsecond after the first: when the first one has been
served, half a microsecond is left to the second one.
Source: none: infrastructure
Kind: D -/
def halfMicrosecondApart : List (Op Unit) :=
  [.start 0 10 (), .start 500 10 (), .interrupt 10000, .turn, .callbackReturn 10000]

/-- The handler then writes an initial count of zero, with both timers pending.
Source: `sys/timer.cpp` `ApicTimer::ApicTimer`
Kind: C -/
theorem timerArmed_not_always :
    ¬ ∀ (β : Type) (ticksPerUs now : ℕ), 0 < ticksPerUs →
      (system β).Always (init β ticksPerUs now) ArmedAfter := by
  intro hall
  have hadmits : (system Unit).Admits (init Unit 1000 0) (halfMicrosecondApart ++ [.turn]) := by
    decide +kernel
  refine System.not_always_of_admits hadmits ?_ (hall Unit 1000 0 (by decide))
  intro s s' hexec hstep harmed
  have hend : (((system Unit).exec (init Unit 1000 0) halfMicrosecondApart).bind
      fun s => step s .turn).map (fun s => (s.pc, s.armed, s.timers.begin?)) =
        some (.idle, none, some (10500, (), 10)) := by
    decide +kernel
  rw [hexec] at hend
  have hturn : step s .turn = some s' := hstep
  rw [Option.bind_some, hturn] at hend
  have hs' : (s'.pc, s'.armed, s'.timers.begin?) = (Pc.idle, none, some (10500, (), 10)) :=
    Option.some.inj hend
  simp only [Prod.mk.injEq] at hs'
  exact not_alive hs'.2.2 hs'.2.1 (harmed hs'.1)

end ApicTimer

end EbbRT
