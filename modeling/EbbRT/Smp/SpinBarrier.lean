import EbbRT.Lib.System

/-!
# The spin barrier

A participant loads the generation, adds one to the count of those that wait, and spins until the
generation changes; the last one resets the count and then changes the generation, in two steps.
`barrier_always`: with `n` participants that wait again and again, nobody leaves a round before all
have come to it, and once the last one has made its two steps, everybody who still spins in that
round sees another generation. Nobody can come to the next round between the two steps, since all
the others still spin: so the reset loses no arrival.
-/

namespace EbbRT

namespace SpinBarrier

open EbbRT.Lib

/-! ## The code -/

/-- Where a participant is in `wait`, with `step` where it is still used: outside, at the load, at
the `fetch_add`, at the two updates of the last one, and in the loop.
Source: `sys/spinlock.hpp` `spin_barrier::wait`
Kind: D -/
inductive Pc
  | idle
  | load
  | fetchAdd (step : BitVec 32)
  | resetWaiters
  | bumpCompleted
  | spin (step : BitVec 32)
  deriving DecidableEq, Repr

/-- The barrier for `n` participants. Two fields record the past: how many waits each participant has
entered, and the rounds whose last participant has made both its updates, the latest first.
Source: `sys/spinlock.hpp` `spin_barrier`
Kind: D -/
structure State (n : BitVec 32) where
  waiters : BitVec 32
  completed : BitVec 32
  pc : Fin n.toNat → Pc
  entered : Fin n.toNat → ℕ
  finished : List ℕ

variable {n : BitVec 32}

/-- Source: `sys/spinlock.hpp` `spin_barrier::spin_barrier`
Kind: D -/
def State.init (n : BitVec 32) : State n := ⟨0, 0, fun _ => .idle, fun _ => 0, []⟩

/-- Source: none: infrastructure
Kind: D -/
def State.goto (s : State n) (i : Fin n.toNat) (pc : Pc) : State n :=
  { s with pc := Function.update s.pc i pc }

/-- The next atomic step of a participant.
Source: `sys/spinlock.hpp` `spin_barrier::wait`
Kind: D -/
def State.run (s : State n) (i : Fin n.toNat) : Option (State n) :=
  match s.pc i with
  | .idle => none
  | .load => some (s.goto i (.fetchAdd s.completed))
  | .fetchAdd step =>
      if s.waiters = n - 1 then
        some { s.goto i .resetWaiters with waiters := s.waiters + 1 }
      else some { s.goto i (.spin step) with waiters := s.waiters + 1 }
  | .resetWaiters => some { s.goto i .bumpCompleted with waiters := 0 }
  | .bumpCompleted =>
      some { s.goto i .idle with
        completed := s.completed + 1, finished := s.entered i :: s.finished }
  | .spin step => if s.completed = step then some s else some (s.goto i .idle)

/-! ## The system -/

/-- A participant calls `wait`, or makes its next step in it.
Source: none: infrastructure
Kind: D -/
inductive Op (n : BitVec 32)
  | wait (i : Fin n.toNat)
  | run (i : Fin n.toNat)
  deriving DecidableEq, Repr

/-- Source: none: infrastructure
Kind: D -/
def Legal (s : State n) : Op n → Prop
  | .wait i => s.pc i = .idle
  | .run i => s.pc i ≠ .idle

/-- Source: none: infrastructure
Kind: D -/
def step (s : State n) : Op n → Option (State n)
  | .wait i =>
      some { s.goto i .load with entered := Function.update s.entered i (s.entered i + 1) }
  | .run i => s.run i

/-- `n` participants that wait any number of times, their atomic steps in any order.
Source: `sys/spinlock.hpp` `spin_barrier::wait`
Kind: D -/
def system (n : BitVec 32) : System (State n) (Op n) := ⟨Legal, step⟩

instance (s : State n) : ∀ op : Op n, Decidable ((system n).legal s op)
  | .wait i => inferInstanceAs (Decidable (s.pc i = .idle))
  | .run i => inferInstanceAs (Decidable (s.pc i ≠ .idle))

/-- How many waits a participant has returned from.
Source: none: infrastructure
Kind: D -/
def State.returned (s : State n) (i : Fin n.toNat) : ℕ :=
  if s.pc i = .idle then s.entered i else s.entered i - 1

/-- The rounds in which a participant has counted itself, when it has entered `entered`.
Source: none: infrastructure
Kind: D -/
def Pc.arrived (entered : ℕ) : Pc → ℕ
  | .load | .fetchAdd _ => entered - 1
  | .idle | .resetWaiters | .bumpCompleted | .spin _ => entered

/-- The participants that have counted themselves in the round that is not finished.
Source: none: infrastructure
Kind: D -/
def State.arrivals (s : State n) : Finset (Fin n.toNat) :=
  Finset.univ.filter fun i => s.finished.length < (s.pc i).arrived (s.entered i)

/-- At the two updates of the last participant.
Source: none: infrastructure
Kind: D -/
def Pc.IsClosing : Pc → Prop
  | .resetWaiters | .bumpCompleted => True
  | _ => False

/-- Who has returned from a wait was not ahead of anybody, who spins in a finished round sees the end
of it, and the count misses no arrival but between the two updates of the last participant, when
nobody has arrived in a later round.
Source: none: infrastructure
Kind: D -/
structure Safe (s : State n) : Prop where
  together : ∀ i j, s.returned i ≤ s.entered j
  released : ∀ r ∈ s.finished, ∀ i step, s.entered i = r → s.pc i = .spin step →
    s.completed ≠ step
  counted : (∀ i, s.pc i ≠ .bumpCompleted) → s.waiters.toNat = s.arrivals.card
  alone : ∀ i, (s.pc i).IsClosing → ∀ j, (s.pc j).arrived (s.entered j) = s.entered i

/-! ## The invariant -/

/-- What is known of a participant that has entered `entered` waits when `c` rounds are finished.
Source: none: infrastructure
Kind: D -/
def Pc.Fits (c entered : ℕ) : Pc → Prop
  | .idle => entered = c
  | .load => entered = c + 1
  | .fetchAdd step => entered = c + 1 ∧ step = BitVec.ofNat 32 c
  | .resetWaiters | .bumpCompleted => entered = c + 1
  | .spin step =>
      entered = c + 1 ∧ step = BitVec.ofNat 32 c ∨ entered = c ∧ step + 1 = BitVec.ofNat 32 c

/-- The rounds are numbered; everybody is in the one that is not finished, or still spins in the last
one that is. Who closes a round is alone in that, and all the others spin in it.
Source: none: infrastructure
Kind: D -/
structure Inv (s : State n) : Prop where
  completed : s.completed = BitVec.ofNat 32 s.finished.length
  finished : ∀ r ∈ s.finished, r ≤ s.finished.length
  fits : ∀ i, (s.pc i).Fits s.finished.length (s.entered i)
  count : (∀ i, s.pc i ≠ .bumpCompleted) → s.waiters.toNat = s.arrivals.card
  reset : ∀ i, s.pc i = .bumpCompleted → s.waiters = 0
  closing : ∀ i, (s.pc i).IsClosing → ∀ j, j ∈ s.arrivals ∧ ((s.pc j).IsClosing → j = i)

variable {s s' : State n} {i j : Fin n.toNat} {pc : Pc} {c entered : ℕ}

/-- Source: none: infrastructure
Kind: L -/
theorem mem_arrivals :
    j ∈ s.arrivals ↔ s.finished.length < (s.pc j).arrived (s.entered j) := by
  simp [State.arrivals]

/-- Nobody is more than one round ahead. Source: none: infrastructure. Kind: L -/
theorem Pc.Fits.bounds (h : pc.Fits c entered) :
    c ≤ entered ∧ entered ≤ c + 1 ∧ pc.arrived entered ≤ c + 1 := by
  cases pc <;> simp only [Pc.Fits, Pc.arrived] at h ⊢ <;> omega

/-- Who has counted itself in the round that is not finished is in the loop, or closes it.
Source: none: infrastructure
Kind: L -/
theorem Pc.Fits.of_arrived (h : pc.Fits c entered) (harr : c < pc.arrived entered) :
    entered = c + 1 ∧ (pc.IsClosing ∨ pc = .spin (BitVec.ofNat 32 c)) := by
  cases pc with
  | spin step =>
      simp only [Pc.Fits, Pc.arrived] at h harr
      rcases h with ⟨rfl, rfl⟩ | ⟨rfl, -⟩
      · exact ⟨rfl, Or.inr rfl⟩
      · omega
  | _ =>
      simp [Pc.Fits, Pc.arrived, Pc.IsClosing] at h harr ⊢
      try omega

/-- A participant moves without counting itself, and neither starts nor stops closing the round.
Source: none: infrastructure
Kind: L -/
theorem Inv.move (h : Inv s) (hfrom : ¬ (s.pc i).IsClosing) (hto : ¬ pc.IsClosing)
    (hfits : pc.Fits s.finished.length entered)
    (harr : s.finished.length < pc.arrived entered ↔
      s.finished.length < (s.pc i).arrived (s.entered i)) :
    Inv { s.goto i pc with entered := Function.update s.entered i entered } := by
  have harrivals :
      ({ s.goto i pc with entered := Function.update s.entered i entered } : State n).arrivals =
        s.arrivals := by
    ext j
    simp only [mem_arrivals, State.goto]
    by_cases hj : j = i
    · subst hj
      simpa using harr
    · simp [hj]
  have hbump : ∀ j, Function.update s.pc i pc j = .bumpCompleted ↔ s.pc j = .bumpCompleted := by
    intro j
    by_cases hj : j = i
    · subst hj
      rw [Function.update_self]
      constructor
      · rintro rfl
        exact (hto trivial).elim
      · intro hpc
        rw [hpc] at hfrom
        exact (hfrom trivial).elim
    · rw [Function.update_of_ne hj]
  have hclosing : ∀ j, (Function.update s.pc i pc j).IsClosing ↔ (s.pc j).IsClosing := by
    intro j
    by_cases hj : j = i
    · subst hj
      rw [Function.update_self]
      exact iff_of_false hto hfrom
    · rw [Function.update_of_ne hj]
  refine ⟨h.completed, h.finished, fun j => ?_, fun hno => ?_, fun j hj => ?_, fun j hj k => ?_⟩
  · simp only [State.goto]
    by_cases hj : j = i
    · subst hj
      simpa using hfits
    · simpa [hj] using h.fits j
  · rw [harrivals]
    exact h.count fun j => mt (hbump j).mpr (hno j)
  · exact h.reset j ((hbump j).mp hj)
  · rw [harrivals]
    obtain ⟨hmem, huniq⟩ := h.closing j ((hclosing j).mp hj) k
    exact ⟨hmem, fun hk => huniq ((hclosing k).mp hk)⟩

/-- The same inside a wait. Source: none: infrastructure. Kind: L -/
theorem Inv.goto (h : Inv s) (hfrom : ¬ (s.pc i).IsClosing) (hto : ¬ pc.IsClosing)
    (hfits : pc.Fits s.finished.length (s.entered i))
    (harr : s.finished.length < pc.arrived (s.entered i) ↔
      s.finished.length < (s.pc i).arrived (s.entered i)) : Inv (s.goto i pc) := by
  have := h.move hfrom hto hfits harr
  rw [Function.update_eq_self] at this
  exact this

/-- Before somebody has counted itself nobody closes the round.
Source: none: infrastructure
Kind: L -/
theorem Inv.not_closing (h : Inv s) (hi : i ∉ s.arrivals) (j : Fin n.toNat) :
    ¬ (s.pc j).IsClosing :=
  fun hj => hi (h.closing j hj i).1

/-- Before somebody has counted itself the count is right.
Source: none: infrastructure
Kind: L -/
theorem Inv.count_of_not_mem (h : Inv s) (hi : i ∉ s.arrivals) :
    s.waiters.toNat = s.arrivals.card := by
  apply h.count
  intro j hj
  apply h.not_closing hi j
  rw [hj]
  exact trivial

/-- There is a participant, so `n_ - 1` does not wrap. Source: none: infrastructure. Kind: L -/
theorem toNat_sub_one_add_one (i : Fin n.toNat) : (n - 1).toNat + 1 = n.toNat := by
  have hpos := i.pos
  have hlt := n.isLt
  rw [BitVec.toNat_sub_of_le]
  · exact Nat.sub_add_cancel hpos
  · exact hpos

/-- A participant counts itself, and then spins or, as the last one, closes the round.
Source: `sys/spinlock.hpp` `spin_barrier::wait`
Kind: L -/
theorem Inv.fetchAdd {step : BitVec 32} (h : Inv s) (hpc : s.pc i = .fetchAdd step)
    (hfits : pc.Fits s.finished.length (s.entered i)) (hne : pc ≠ .bumpCompleted)
    (harr : pc.arrived (s.entered i) = s.entered i)
    (hlast : pc.IsClosing → s.arrivals.card + 1 = n.toNat) :
    Inv { s.goto i pc with waiters := s.waiters + 1 } := by
  have hi := h.fits i
  rw [hpc] at hi
  have hout : i ∉ s.arrivals := by
    rw [mem_arrivals, hpc, hi.1]
    simp [Pc.arrived]
  have hopen := h.not_closing hout
  have hcount := h.count_of_not_mem hout
  have hopen' : ∀ j, (Function.update s.pc i pc j).IsClosing → j = i := by
    intro j hj
    by_contra hij
    rw [Function.update_of_ne hij] at hj
    exact hopen j hj
  have harrivals :
      ({ s.goto i pc with waiters := s.waiters + 1 } : State n).arrivals = insert i s.arrivals := by
    ext j
    simp only [Finset.mem_insert, mem_arrivals, State.goto]
    by_cases hj : j = i
    · subst hj
      rw [Function.update_self, harr, hi.1]
      simp
    · simp [hj]
  have hcard : (insert i s.arrivals).card = s.arrivals.card + 1 := Finset.card_insert_of_notMem hout
  have hle : (insert i s.arrivals).card ≤ n.toNat := by
    simpa using (insert i s.arrivals).card_le_univ
  have hlt := n.isLt
  refine ⟨h.completed, h.finished, fun j => ?_, fun _ => ?_, fun j hj => ?_, fun j hj k => ?_⟩
  · simp only [State.goto]
    by_cases hj : j = i
    · subst hj
      simpa using hfits
    · simpa [hj] using h.fits j
  · rw [harrivals, hcard, ← hcount, BitVec.toNat_add]
    apply Nat.mod_eq_of_lt
    have hone : (1 : BitVec 32).toNat = 1 := rfl
    omega
  · have hji := hopen' j (by
      simp only [State.goto] at hj
      rw [hj]
      exact trivial)
    subst hji
    simp only [State.goto, Function.update_self] at hj
    exact (hne hj).elim
  · obtain rfl := hopen' j hj
    simp only [State.goto, Function.update_self] at hj
    have huniv : insert j s.arrivals = Finset.univ := by
      apply Finset.eq_univ_of_card
      rw [hcard, hlast hj, Fintype.card_fin]
    rw [harrivals, huniv]
    exact ⟨Finset.mem_univ k, hopen' k⟩

/-- The last participant resets the count: all the others spin.
Source: `sys/spinlock.hpp` `spin_barrier::wait`
Kind: L -/
theorem Inv.resetWaiters (h : Inv s) (hpc : s.pc i = .resetWaiters) :
    Inv { s.goto i .bumpCompleted with waiters := 0 } := by
  have hclosing := h.closing i (by rw [hpc]; exact trivial)
  have harrivals :
      ({ s.goto i .bumpCompleted with waiters := 0 } : State n).arrivals = s.arrivals := by
    ext j
    simp only [mem_arrivals, State.goto]
    by_cases hj : j = i
    · subst hj
      simp [hpc, Pc.arrived]
    · simp [hj]
  have honly : ∀ j, (Function.update s.pc i .bumpCompleted j).IsClosing → j = i := by
    intro j hj
    by_contra hij
    rw [Function.update_of_ne hij] at hj
    exact hij ((hclosing j).2 hj)
  refine ⟨h.completed, h.finished, fun j => ?_, fun hno => ?_, fun _ _ => rfl, fun j hj k => ?_⟩
  · have hj := h.fits j
    simp only [State.goto]
    by_cases hji : j = i
    · subst hji
      rw [hpc] at hj
      simpa [Pc.Fits] using hj
    · simpa [hji] using hj
  · exact absurd (by simp [State.goto]) (hno i)
  · obtain rfl := honly j hj
    rw [harrivals]
    exact ⟨(hclosing k).1, honly k⟩

/-- The last participant ends the round: everybody is in it, or past it.
Source: `sys/spinlock.hpp` `spin_barrier::wait`
Kind: L -/
theorem Inv.bumpCompleted (h : Inv s) (hpc : s.pc i = .bumpCompleted) :
    Inv { s.goto i .idle with
      completed := s.completed + 1, finished := s.entered i :: s.finished } := by
  have hclosing := h.closing i (by rw [hpc]; exact trivial)
  have hi := h.fits i
  rw [hpc] at hi
  have hspin : ∀ j ≠ i, s.entered j = s.finished.length + 1 ∧
      s.pc j = .spin (BitVec.ofNat 32 s.finished.length) := by
    intro j hj
    obtain ⟨hent, hcl | hpcj⟩ := (h.fits j).of_arrived (mem_arrivals.mp (hclosing j).1)
    · exact absurd ((hclosing j).2 hcl) hj
    · exact ⟨hent, hpcj⟩
  have hsucc : BitVec.ofNat 32 s.finished.length + 1 = BitVec.ofNat 32 (s.finished.length + 1) := by
    rw [BitVec.ofNat_add]
    rfl
  have hopen : ∀ j, ¬ (Function.update s.pc i .idle j).IsClosing := by
    intro j
    by_cases hj : j = i
    · subst hj
      simp [Pc.IsClosing]
    · simp [hj, (hspin j hj).2, Pc.IsClosing]
  have hnone : ({ s.goto i .idle with
      completed := s.completed + 1, finished := s.entered i :: s.finished } : State n).arrivals =
        ∅ := by
    ext j
    simp only [mem_arrivals, State.goto, Finset.notMem_empty, iff_false, not_lt]
    by_cases hj : j = i
    · subst hj
      simpa [Pc.arrived] using hi.le
    · simpa [hj, (hspin j hj).2, Pc.arrived] using (hspin j hj).1.le
  refine ⟨?_, fun r hr => ?_, fun j => ?_, fun _ => ?_, fun j hj => ?_, fun j hj => ?_⟩
  · simp only [h.completed, hsucc, List.length_cons]
  · rcases List.mem_cons.mp hr with rfl | hr
    · exact hi.le
    · exact (h.finished r hr).trans (Nat.le_succ _)
  · simp only [State.goto]
    by_cases hj : j = i
    · subst hj
      simpa [Pc.Fits] using hi
    · simpa [hj, (hspin j hj).2, Pc.Fits] using Or.inr ⟨(hspin j hj).1, hsucc⟩
  · rw [hnone]
    simp [State.goto, h.reset i hpc]
  · exfalso
    apply hopen j
    simp only [State.goto] at hj
    rw [hj]
    exact trivial
  · exact absurd hj (hopen j)

/-- Every step keeps the invariant. Source: `sys/spinlock.hpp` `spin_barrier::wait`. Kind: P -/
theorem Inv.step {op : Op n} (h : Inv s) (hlegal : Legal s op)
    (hstep : SpinBarrier.step s op = some s') : Inv s' := by
  cases op with
  | wait i =>
      obtain rfl := Option.some.inj hstep
      have hi := h.fits i
      have hpc : s.pc i = .idle := hlegal
      rw [hpc] at hi
      apply h.move
      · simp [hpc, Pc.IsClosing]
      · simp [Pc.IsClosing]
      · simpa [Pc.Fits] using hi
      · simp [hpc, Pc.arrived]
  | run i =>
      have hi := h.fits i
      simp only [SpinBarrier.step, State.run] at hstep
      split at hstep
      · simp at hstep
      · rename_i hpc
        obtain rfl := Option.some.inj hstep
        rw [hpc] at hi
        apply h.goto
        · simp [hpc, Pc.IsClosing]
        · simp [Pc.IsClosing]
        · exact ⟨hi, h.completed⟩
        · simp [hpc, Pc.arrived]
      · rename_i step hpc
        rw [hpc] at hi
        have hout : i ∉ s.arrivals := by
          rw [mem_arrivals, hpc, hi.1]
          simp [Pc.arrived]
        split at hstep
        · rename_i hlast
          obtain rfl := Option.some.inj hstep
          have hto : Pc.resetWaiters.Fits s.finished.length (s.entered i) := hi.1
          apply h.fetchAdd hpc hto (by simp) rfl
          intro _
          rw [← h.count_of_not_mem hout, hlast]
          exact toNat_sub_one_add_one i
        · obtain rfl := Option.some.inj hstep
          exact h.fetchAdd hpc (Or.inl hi) (by simp) rfl fun hcl => hcl.elim
      · rename_i hpc
        obtain rfl := Option.some.inj hstep
        exact h.resetWaiters hpc
      · rename_i hpc
        obtain rfl := Option.some.inj hstep
        exact h.bumpCompleted hpc
      · rename_i step hpc
        rw [hpc] at hi
        split at hstep
        · obtain rfl := Option.some.inj hstep
          exact h
        · rename_i hne
          obtain rfl := Option.some.inj hstep
          -- another generation: the round is finished
          have hent : s.entered i = s.finished.length := by
            rcases hi with ⟨-, rfl⟩ | ⟨hent, -⟩
            · exact absurd h.completed hne
            · exact hent
          apply h.goto
          · simp [hpc, Pc.IsClosing]
          · simp [Pc.IsClosing]
          · exact hent
          · simp [hpc, Pc.arrived]

/-- The invariant holds at the start. Source: `sys/spinlock.hpp` `spin_barrier::spin_barrier`. Kind: L -/
theorem inv_init (n : BitVec 32) : Inv (State.init n) where
  completed := rfl
  finished := by simp [State.init]
  fits _ := rfl
  count _ := by simp [State.init, State.arrivals, Pc.arrived]
  reset _ _ := rfl
  closing _ hi := hi.elim

/-- The invariant says what it is for. Source: none: infrastructure. Kind: L -/
theorem Inv.safe (h : Inv s) : Safe s where
  together i j := by
    have hj := (h.fits j).bounds.1
    have hi := h.fits i
    apply le_trans _ hj
    unfold State.returned
    split
    · rename_i hpc
      rw [hpc] at hi
      exact hi.le
    · have := hi.bounds
      omega
  released r hr i step hent hpc hsame := by
    have hle := h.finished r hr
    have hi := h.fits i
    rw [hpc] at hi
    rcases hi with ⟨hent', -⟩ | ⟨-, hstep⟩
    · omega
    · rw [h.completed, ← hstep] at hsame
      simp at hsame
  counted := h.count
  alone i hi j := by
    have hmem := fun k => mem_arrivals.mp (h.closing i hi k).1
    have hent := ((h.fits i).of_arrived (hmem i)).1
    have hj := (h.fits j).bounds.2.2
    have := hmem j
    omega

/-! ## The barrier -/

/-- **The barrier holds everybody back and traps nobody.** In every run of `n` participants: nobody
has returned from more waits than anybody has entered; once the last participant of a round has made
both its updates, everybody who still spins in that round sees another generation; and `waiters_` is
the number of arrivals in the round that is not finished, except between these two updates, before
which nobody has arrived in a later round.
Source: `sys/spinlock.hpp` `spin_barrier`
Kind: C -/
theorem barrier_always (n : BitVec 32) (ops : List (Op n)) (s : State n)
    (hrun : (system n).Run (State.init n) ops s) : Safe s := by
  have hinv : Inv s := by
    apply hrun.invariant
    · exact inv_init n
    · intro s op s' h hlegal hstep
      exact h.step hlegal hstep
  exact hinv.safe

/-- The second of two participants closes the first round and spins in the next one while the first
has not looked again; it still sees the end of the first round.
Source: `sys/spinlock.hpp` `spin_barrier`
Kind: C -/
theorem barrier_always_ahead :
    let a : Fin (2 : BitVec 32).toNat := ⟨0, by decide⟩
    let b : Fin (2 : BitVec 32).toNat := ⟨1, by decide⟩
    ∃ s, (system 2).Run (State.init 2) [.wait a, .run a, .run a, .wait b, .run b, .run b, .run b,
        .run b, .wait b, .run b, .run b] s ∧
      s.pc a = .spin 0 ∧ s.pc b = .spin 1 ∧ s.completed = 1 ∧ Safe s := by
  intro a b
  have hadm : (system 2).Admits (State.init 2) [.wait a, .run a, .run a, .wait b, .run b, .run b,
      .run b, .run b, .wait b, .run b, .run b] := by
    decide +kernel
  have hend : ((system 2).exec (State.init 2) [.wait a, .run a, .run a, .wait b, .run b, .run b,
      .run b, .run b, .wait b, .run b, .run b]).map (fun s => (s.pc a, s.pc b, s.completed)) =
        some (.spin 0, .spin 1, 1) := by
    decide +kernel
  obtain ⟨s, hexec, hrun⟩ := Lib.System.Run.of_admits hadm
  rw [hexec, Option.map_some, Option.some_inj, Prod.mk.injEq, Prod.mk.injEq] at hend
  exact ⟨s, hrun, hend.1, hend.2.1, hend.2.2, barrier_always 2 _ s hrun⟩

end SpinBarrier

end EbbRT
