import EbbRT.Time.ApicTimer

/-!
# Repeating timers are neither lost nor doubled nor early

The handler moves the callback and the period out of the first entry into the entry of the next period and
then erases the first entry. That is right because the new entry never comes to stand in front:
`serveFirst_eq` compares the loop's body, with the function moved out of the first entry, with the turn of
the model. `repeatingTimers_always` follows the entries over whole runs.
-/

namespace EbbRT

open EbbRT.Lib

namespace ApicTimer

variable {β : Type} {s s' t t' : State β} {op : Op β} {as bs : List (Op β)} {f : β}
  {now deadline deadline' period : ℕ}

/-! ## The body of the loop -/

/-- An entry with the function it holds. Source: `sys/timer.hpp` `ApicTimer::timers_`. Kind: D -/
def held (e : ℕ × (β × ℕ)) : ℕ × (Option β × ℕ) := (e.1, some e.2.1, e.2.2)

/-- The body of the handler's loop on the entries: `emplace` moves the tuple out of the first entry, whose
function is then empty; `erase` of the first entry; the function of `it` is called. `none`: `it` itself was
first and is erased, or there is no entry.
Source: `sys/timer.cpp` `ApicTimer::ApicTimer`
Kind: D -/
def serveFirst (now : ℕ) :
    List (ℕ × (Option β × ℕ)) → Option (Option β × List (ℕ × (Option β × ℕ)))
  | [] => none
  | (deadline, f, period) :: rest =>
      let it := (now + 1000 * period, f, period)
      let moved := (deadline, none, period)
      if it.1 < moved.1 then none
      else some (f, (Multimap.insertEntry it (moved :: rest)).tail)

/-- An insertion behind the first entry. Source: none: infrastructure. Kind: L -/
theorem insertEntry_cons_of_not_lt {α : Type} {e x : ℕ × α} (h : ¬ e.1 < x.1) (es : List (ℕ × α)) :
    Multimap.insertEntry e (x :: es) = x :: Multimap.insertEntry e es := by
  unfold Multimap.insertEntry
  rw [List.orderedInsert_cons, if_neg h]

/-- An insertion of one more entry. Source: none: infrastructure. Kind: L -/
theorem perm_insertEntry {α : Type} (e : ℕ × α) (es : List (ℕ × α)) :
    (Multimap.insertEntry e es).Perm (e :: es) := List.perm_orderedInsert _ e es

/-- Where an entry goes does not depend on what it holds. Source: none: infrastructure. Kind: L -/
theorem map_held_insertEntry (e : ℕ × (β × ℕ)) (es : List (ℕ × (β × ℕ))) :
    (Multimap.insertEntry e es).map held = Multimap.insertEntry (held e) (es.map held) := by
  induction es with
  | nil => rfl
  | cons x es ih =>
      unfold Multimap.insertEntry at ih ⊢
      rw [List.map_cons, List.orderedInsert_cons, List.orderedInsert_cons, ← ih]
      by_cases hlt : e.1 < x.1
      · rw [if_pos hlt]
        exact (if_pos hlt).symm
      · rw [if_neg hlt]
        exact (if_neg hlt).symm

/-- **The entry that is erased is the one that was moved from.** The body calls the function of the first
entry and leaves the entries of the model's turn, each with its function.
Source: `sys/timer.cpp` `ApicTimer::ApicTimer`
Kind: P -/
theorem serveFirst_eq (hb : s.timers.begin? = some (deadline, f, period)) (hdue : deadline ≤ s.now)
    (hstep : s.turn = some s') :
    s'.pc = .callback f ∧
      serveFirst s.now (s.timers.entries.map held) = some (some f, s'.timers.entries.map held) := by
  unfold State.turn at hstep
  rw [hb] at hstep
  dsimp only at hstep
  rw [if_pos hdue] at hstep
  obtain rfl := Option.some.inj hstep
  refine ⟨rfl, ?_⟩
  obtain ⟨rest, hentries⟩ := Multimap.entries_of_begin hb
  have hnew : ¬ s.now + 1000 * period < deadline := by omega
  have hleft : ((s.timers.emplace (s.now + 1000 * period) (f, period)).eraseBegin).entries
      = Multimap.insertEntry (s.now + 1000 * period, f, period) rest := by
    show (Multimap.insertEntry _ s.timers.entries).tail = _
    rw [hentries, insertEntry_cons_of_not_lt hnew, List.tail_cons]
  dsimp only
  rw [hleft, map_held_insertEntry, hentries, List.map_cons]
  unfold serveFirst held
  dsimp only
  rw [if_neg hnew, insertEntry_cons_of_not_lt hnew, List.tail_cons]

/-! ## What a step does to the entries -/

/-- A turn serves the timer with the callback `f` and the period: its entry, the first one, moves to one
period after the reading, and the callback is called.
Source: `sys/timer.cpp` `ApicTimer::ApicTimer`
Kind: D -/
def Serves (s s' : State β) (deadline : ℕ) (f : β) (period : ℕ) : Prop :=
  s'.pc = .callback f ∧ ∃ rest, s.timers.entries = (deadline, f, period) :: rest ∧
    s'.timers.entries.Perm ((s.now + 1000 * period, f, period) :: rest)

/-- What a step may do to the entries: `Start` adds one, a turn serves a timer that is due and earliest or
leaves the loop, and nothing else touches them.
Source: `sys/timer.cpp` `ApicTimer`
Kind: D -/
def Effect (s : State β) : Op β → State β → Prop
  | .start reading timeout f, s' =>
      s'.pc = s.pc ∧
        s'.timers.entries.Perm ((reading + 1000 * timeout, f, timeout) :: s.timers.entries)
  | .turn, s' =>
      s'.pc = .idle ∧ s'.timers = s.timers ∨
        ∃ deadline f period, Serves s s' deadline f period ∧ deadline ≤ s.now ∧
          ∀ e ∈ s.timers.entries, deadline ≤ e.1
  | .interrupt _, s' => s'.pc = .handler ∧ s'.timers = s.timers
  | .callbackReturn _, s' => s'.pc = .handler ∧ s'.timers = s.timers

/-- Setting the hardware changes nothing else. Source: `sys/timer.cpp` `ApicTimer::SetTimer`. Kind: L -/
theorem eq_of_setTimer {fromNow : ℕ} (h : s.setTimer fromNow = some s') :
    s'.timers = s.timers ∧ s'.pc = s.pc ∧ s'.now = s.now := by
  obtain ⟨regs, -, rfl⟩ := Option.map_eq_some_iff.mp h
  exact ⟨rfl, rfl, rfl⟩

/-- **`Start`** adds one entry. Source: `sys/timer.cpp` `ApicTimer::Start`. Kind: L -/
theorem start_effect {reading timeout : ℕ} (h : s.start reading timeout f = some s') :
    Effect s (.start reading timeout f) s' ∧ s'.now = reading := by
  unfold State.start at h
  dsimp only at h
  obtain ⟨t, ht, rfl⟩ := Option.map_eq_some_iff.mp h
  have hsame : t.timers = s.timers ∧ t.pc = s.pc ∧ t.now = reading := by
    split at ht
    · exact eq_of_setTimer ht
    · obtain rfl := Option.some.inj ht
      exact ⟨rfl, rfl, rfl⟩
  obtain ⟨htimers, hpc, hnow⟩ := hsame
  refine ⟨⟨hpc, ?_⟩, hnow⟩
  rw [← htimers]
  exact perm_insertEntry _ _

/-- **A turn of the handler's loop** serves the earliest timer if it is due.
Source: `sys/timer.cpp` `ApicTimer::ApicTimer`
Kind: L -/
theorem turn_effect (h : s.turn = some s') : Effect s .turn s' ∧ s'.now = s.now := by
  cases hb : s.timers.begin? with
  | none =>
      unfold State.turn at h
      rw [hb] at h
      obtain rfl := Option.some.inj h
      exact ⟨Or.inl ⟨rfl, rfl⟩, rfl⟩
  | some b =>
      obtain ⟨deadline, f, period⟩ := b
      unfold State.turn at h
      rw [hb] at h
      dsimp only at h
      by_cases hdue : deadline ≤ s.now
      · rw [if_pos hdue] at h
        obtain rfl := Option.some.inj h
        obtain ⟨rest, hentries⟩ := Multimap.entries_of_begin hb
        have hnew : ¬ s.now + 1000 * period < deadline := by omega
        refine ⟨Or.inr ⟨deadline, f, period, ⟨rfl, rest, hentries, ?_⟩, hdue, fun e he => ?_⟩, rfl⟩
        · show (Multimap.insertEntry _ s.timers.entries).tail.Perm _
          rw [hentries, insertEntry_cons_of_not_lt hnew, List.tail_cons]
          exact perm_insertEntry _ _
        · exact Multimap.begin_le hb he
      · rw [if_neg hdue] at h
        obtain ⟨t, ht, rfl⟩ := Option.map_eq_some_iff.mp h
        obtain ⟨htimers, -, hnow⟩ := eq_of_setTimer ht
        exact ⟨Or.inl ⟨rfl, htimers⟩, hnow⟩

/-- **Every step** has its effect, and the clock does not go back.
Source: `sys/timer.cpp` `ApicTimer`
Kind: P -/
theorem step_effect (hlegal : (system β).legal s op) (hstep : (system β).step s op = some s') :
    Effect s op s' ∧ s.now ≤ s'.now := by
  cases op with
  | start reading timeout f =>
      obtain ⟨heffect, hnow⟩ := start_effect hstep
      exact ⟨heffect, hlegal.2.1.trans hnow.ge⟩
  | interrupt reading =>
      obtain ⟨b, -, rfl⟩ := Option.map_eq_some_iff.mp hstep
      exact ⟨⟨rfl, rfl⟩, hlegal.2⟩
  | turn =>
      obtain ⟨heffect, hnow⟩ := turn_effect hstep
      exact ⟨heffect, hnow.ge⟩
  | callbackReturn reading =>
      obtain rfl := Option.some.inj hstep
      exact ⟨⟨rfl, rfl⟩, hlegal.2.2⟩

/-! ## Runs -/

/-- The callbacks and periods of the `Start` calls of a run.
Source: `sys/timer.cpp` `ApicTimer::Start`
Kind: D -/
def started (as : List (Op β)) : List (β × ℕ) :=
  as.filterMap fun
    | .start _ timeout f => some (f, timeout)
    | _ => none

/-- Serving a timer keeps its callback and period. Source: none: infrastructure. Kind: L -/
theorem Serves.values (h : Serves s s' deadline f period) :
    (s'.timers.entries.map Prod.snd).Perm (s.timers.entries.map Prod.snd) := by
  obtain ⟨-, rest, hentries, hperm⟩ := h
  have hvalues := hperm.map Prod.snd
  rw [List.map_cons] at hvalues
  rw [hentries, List.map_cons]
  exact hvalues

/-- **One entry for each `Start`.** Source: `sys/timer.cpp` `ApicTimer`. Kind: P -/
theorem values_run {ticksPerUs now₀ : ℕ} (hrun : (system β).Run (init β ticksPerUs now₀) as s) :
    (s.timers.entries.map Prod.snd).Perm (started as) := by
  induction hrun with
  | nil => exact List.Perm.refl []
  | @snoc as s op s' run legal step ih =>
      obtain ⟨heffect, -⟩ := step_effect legal step
      unfold started at ih ⊢
      rw [List.filterMap_append]
      cases op with
      | start reading timeout f =>
          have hperm := heffect.2.map Prod.snd
          rw [List.map_cons] at hperm
          exact (hperm.trans (ih.cons _)).trans (List.perm_append_singleton _ _).symm
      | interrupt reading =>
          rw [heffect.2]
          exact (List.append_nil _).symm ▸ ih
      | turn =>
          have hsame : (s'.timers.entries.map Prod.snd).Perm (s.timers.entries.map Prod.snd) := by
            rcases heffect with ⟨-, htimers⟩ | ⟨deadline, f, period, hserves, -⟩
            · rw [htimers]
            · exact hserves.values
          exact (List.append_nil _).symm ▸ hsame.trans ih
      | callbackReturn reading =>
          rw [heffect.2]
          exact (List.append_nil _).symm ▸ ih

/-- What was served at `deadline` was the earliest, and nothing earlier can come.
Source: none: infrastructure
Kind: D -/
def Past (deadline : ℕ) (s : State β) : Prop :=
  deadline ≤ s.now ∧ ∀ e ∈ s.timers.entries, deadline ≤ e.1

/-- A step keeps everything behind a deadline that was served.
Source: `sys/timer.cpp` `ApicTimer`
Kind: L -/
theorem Past.step (h : Past deadline s) (hlegal : (system β).legal s op)
    (hstep : (system β).step s op = some s') : Past deadline s' := by
  obtain ⟨heffect, hnow⟩ := step_effect hlegal hstep
  refine ⟨h.1.trans hnow, fun e he => ?_⟩
  have hpast := h.1
  cases op with
  | start reading timeout f =>
      have hreading : s.now ≤ reading := hlegal.2.1
      rcases List.mem_cons.mp (heffect.2.mem_iff.mp he) with rfl | he
      · dsimp only
        omega
      · exact h.2 e he
  | interrupt reading =>
      rw [heffect.2] at he
      exact h.2 e he
  | turn =>
      rcases heffect with ⟨-, htimers⟩ | ⟨d, f, period, ⟨-, rest, hentries, hperm⟩, -⟩
      · rw [htimers] at he
        exact h.2 e he
      · rcases List.mem_cons.mp (hperm.mem_iff.mp he) with rfl | he
        · dsimp only
          omega
        · apply h.2 e
          rw [hentries]
          exact List.mem_cons_of_mem _ he
  | callbackReturn reading =>
      rw [heffect.2] at he
      exact h.2 e he

/-- **Timers are served in the order of their deadlines.** After a timer was served, none with an earlier
deadline is.
Source: `sys/timer.cpp` `ApicTimer::ApicTimer`
Kind: P -/
theorem Past.of_serves {f' : β} {period' : ℕ} (hstep : (system β).step s .turn = some s')
    (hserves : Serves s s' deadline f period) (hrun : (system β).Run s' bs t)
    (hserves' : Serves t t' deadline' f' period') : deadline ≤ deadline' := by
  obtain ⟨heffect, hnow⟩ := turn_effect hstep
  have hpast : Past deadline s' := by
    obtain ⟨hpc, rest, hentries, hperm⟩ := hserves
    rcases heffect with ⟨hidle, -⟩ | ⟨d, g, period₁, ⟨-, rest₁, hentries₁, -⟩, hdue, hfirst⟩
    · rw [hidle] at hpc
      cases hpc
    · rw [hentries] at hentries₁
      obtain ⟨rfl, -⟩ := Prod.mk.inj (List.cons.inj hentries₁).1
      refine ⟨hdue.trans hnow.ge, fun e he => ?_⟩
      rcases List.mem_cons.mp (hperm.mem_iff.mp he) with rfl | he
      · dsimp only
        omega
      · apply hfirst e
        rw [hentries]
        exact List.mem_cons_of_mem _ he
  have hlater : Past deadline t :=
    hrun.invariant hpast fun s op s' h hlegal hstep => h.step hlegal hstep
  obtain ⟨-, rest, hentries, -⟩ := hserves'
  apply hlater.2 (deadline', f', period')
  rw [hentries]
  exact List.mem_cons_self

/-- **Repeating timers are neither lost nor doubled nor early.** In every run of `Start` calls, from
anywhere, and of the handler, at any clock readings that do not go back: there is one entry for each
`Start`, with its callback and period; a step serves a timer only in a turn of the handler, at a reading
not before its deadline, which is the earliest, and moves its entry alone to one period after the reading;
and the deadlines that are served do not go back.
Source: `sys/timer.cpp` `ApicTimer::ApicTimer`, `ApicTimer::Start`
Kind: C
Fidelity: clock readings do not go back, which is part of a legal step -/
theorem repeatingTimers_always (β : Type) (ticksPerUs now₀ : ℕ) (as : List (Op β)) (s : State β)
    (hrun : (system β).Run (init β ticksPerUs now₀) as s) :
    (s.timers.entries.map Prod.snd).Perm (started as) ∧
      ∀ op s', (system β).legal s op → (system β).step s op = some s' →
        Effect s op s' ∧
          ∀ deadline f period, op = .turn → Serves s s' deadline f period →
            ∀ bs t t' deadline' f' period', (system β).Run s' bs t →
              Serves t t' deadline' f' period' → deadline ≤ deadline' := by
  refine ⟨values_run hrun, fun op s' hlegal hstep => ⟨(step_effect hlegal hstep).1, ?_⟩⟩
  rintro deadline f period rfl hserves bs t t' deadline' f' period' hlater hserves'
  exact Past.of_serves hstep hserves hlater hserves'

/-- Two timers, the second one started from the callback of the first: after a turn at a late reading there
are still two entries.
Source: `sys/timer.cpp` `ApicTimer`
Kind: C -/
theorem repeatingTimers_always_two :
    ∃ s, (system Bool).Run (init Bool 1000 0)
        [.start 0 10 true, .interrupt 10000, .turn, .start 10200 50 false, .callbackReturn 31000,
          .turn] s ∧
      (s.timers.entries.map Prod.snd).Perm [(true, 10), (false, 50)] := by
  have hadmits : (system Bool).Admits (init Bool 1000 0)
      [.start 0 10 true, .interrupt 10000, .turn, .start 10200 50 false, .callbackReturn 31000,
        .turn] := by decide
  obtain ⟨s, -, hrun⟩ := System.Run.of_admits hadmits
  exact ⟨s, hrun, (repeatingTimers_always Bool 1000 0 _ s hrun).1⟩

end ApicTimer

end EbbRT
