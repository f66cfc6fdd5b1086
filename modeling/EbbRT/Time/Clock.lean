import EbbRT.Lib.SeqLock
import EbbRT.Lib.System
import EbbRT.Mem.Pfn

/-!
# Reading the clock

The hypervisor updates two records in memory, the wall clock and the time of a CPU, each under a
version that is odd during an update. `clock_init` and `clock_time` read them in loops of one shape:
load the version, start over if it is odd, load the fields, and start over if the version changed.
Starting over is a `continue` in a `do`-`while`, which goes to the condition and not to the top: an
odd version that is still the same there ends the loop, with the locals as they are.
`clockSnapshot_always`: where this does not happen, the loop ends with the fields of one completed
update.
-/

namespace EbbRT

open EbbRT.Lib

/-! ## The code -/

/-- Source: `sys/clock.cpp` `pvclock_wall_clock`
Kind: D -/
inductive WallField
  | sec
  | nsec
  deriving DecidableEq, Repr

/-- Source: `sys/clock.cpp` `pvclock_vcpu_time_info`
Kind: D -/
inductive TimeField
  | tscTimestamp
  | systemTime
  | tscToSystemMul
  | tscShift
  deriving DecidableEq, Repr

instance : Fintype WallField := ⟨{.sec, .nsec}, fun i => by cases i <;> decide⟩

instance : Fintype TimeField :=
  ⟨{.tscTimestamp, .systemTime, .tscToSystemMul, .tscShift}, fun i => by cases i <;> decide⟩

namespace Clock

/-- Where a loop is: at its top, about to load the first of `rest`, at the condition, or past the
loop.
Source: `sys/clock.cpp` `clock_init`, `clock_time`
Kind: D -/
inductive ReadPc (ι : Type)
  | top
  | load (rest : List ι)
  | condition
  | done
  deriving DecidableEq, Repr

/-- The place in the loop and the locals.
Source: `sys/clock.cpp` `clock_init`, `clock_time`
Kind: D -/
structure Reader (ι : Type) where
  pc : ReadPc ι
  version : ℕ
  locals : ι → ℤ

/-- The record and a CPU that reads it.
Source: `sys/clock.cpp` `wall_clock`, `vcpu_time_info`
Kind: D -/
structure State (ι : Type) where
  shared : Versioned ι ℤ
  reader : Reader ι

/-- One load, or the test of the condition, in a loop that loads the fields in `order`.
Source: `sys/clock.cpp` `clock_init`, `clock_time`
Kind: D -/
def readStep {ι : Type} [DecidableEq ι] (order : List ι) (s : Versioned ι ℤ) (r : Reader ι) :
    Option (Reader ι) :=
  match r.pc with
  | .top =>
      -- `continue` leads to the condition
      some { r with version := s.version, pc := if s.version % 2 = 1 then .condition else .load order }
  | .load [] => some { r with pc := .condition }
  | .load (i :: rest) =>
      some { r with locals := Function.update r.locals i (s.field i), pc := .load rest }
  | .condition => some { r with pc := if r.version ≠ s.version then .top else .done }
  | .done => none

/-- `sec`, `nsec`. Source: `sys/clock.cpp` `clock_init`. Kind: D -/
def wallOrder : List WallField := [.sec, .nsec]

/-- `tsc`, `system_time`, `tsc_to_system_mul`, `tsc_shift`. Source: `sys/clock.cpp` `clock_time`. Kind: D -/
def timeOrder : List TimeField := [.tscTimestamp, .systemTime, .tscToSystemMul, .tscShift]

/-! ## The system -/

/-- A step of the hypervisor or of the loop.
Source: none: infrastructure
Kind: D -/
inductive Op (ι : Type)
  | update (a : Versioned.Update ι ℤ)
  | read

/-- Source: none: infrastructure
Kind: D -/
def Legal {ι : Type} (s : State ι) : Op ι → Prop
  | .update a => s.shared.Legal a
  | .read => s.reader.pc ≠ .done

/-- Source: none: infrastructure
Kind: D -/
def step {ι : Type} [DecidableEq ι] (order : List ι) (s : State ι) : Op ι → Option (State ι)
  | .update a => some { s with shared := s.shared.update a }
  | .read => (readStep order s.shared s.reader).map fun r => { s with reader := r }

/-- A loop and the hypervisor.
Source: `sys/clock.cpp` `clock_init`, `clock_time`
Kind: D -/
def system {ι : Type} [DecidableEq ι] (order : List ι) : System (State ι) (Op ι) :=
  ⟨Legal, step order⟩

/-- The loop is entered after an update, with the locals as they are declared.
Source: `sys/clock.cpp` `clock_init`, `clock_time`
Kind: D -/
def start {ι : Type} (version : ℕ) (field locals : ι → ℤ) : State ι :=
  ⟨Versioned.init version field, ⟨.top, 0, locals⟩⟩

/-- Past the loop the locals are the fields that one completed update has written.
Source: none: infrastructure
Kind: D -/
def State.Snapshot {ι : Type} (s : State ι) : Prop :=
  s.reader.pc = .done → ∃ u ∈ s.shared.completed, s.reader.locals = u.2

/-- The steps that the loops handle: at the condition, an odd version that was loaded is not the
version any more.
Source: `sys/clock.cpp` `clock_init`, `clock_time`
Kind: D -/
def OddChanged {ι : Type} (s : State ι) (op : Op ι) : Prop :=
  op = .read → s.reader.pc = .condition → s.reader.version % 2 = 1 →
    s.reader.version ≠ s.shared.version

instance {ι : Type} [Fintype ι] [DecidableEq ι] (order : List ι) (s : State ι) :
    ∀ op : Op ι, Decidable ((system order).legal s op)
  | .update a => inferInstanceAs (Decidable (s.shared.Legal a))
  | .read => inferInstanceAs (Decidable (s.reader.pc ≠ .done))

instance {ι : Type} [DecidableEq ι] (s : State ι) : ∀ op : Op ι, Decidable (OddChanged s op)
  | .update _ => isTrue fun h => by cases h
  | .read => decidable_of_iff (s.reader.pc = .condition → s.reader.version % 2 = 1 →
      s.reader.version ≠ s.shared.version) (by simp [OddChanged])

/-! ## The invariant -/

/-- What the reader knows where it is: which fields it has loaded under the version it saw.
Source: `sys/clock.cpp` `clock_init`, `clock_time`
Kind: D -/
def ReadInv {ι : Type} (order : List ι) (s : State ι) : Prop :=
  match s.reader.pc with
  | .top => True
  | .load rest => ∃ done, (∀ i ∈ order, i ∈ done ∨ i ∈ rest) ∧
      s.shared.Seen s.reader.version done s.reader.locals
  | .condition => s.reader.version % 2 = 1 ∨
      ∃ done, (∀ i ∈ order, i ∈ done) ∧ s.shared.Seen s.reader.version done s.reader.locals
  | .done => ∃ u ∈ s.shared.completed, s.reader.locals = u.2

/-- Source: none: infrastructure
Kind: D -/
structure Inv {ι : Type} (order : List ι) (s : State ι) : Prop where
  shared : s.shared.Ok
  read : ReadInv order s

section Steps

variable {ι : Type} [DecidableEq ι] {order : List ι} {s s' : State ι}

/-- The hypervisor's steps keep what the reader knows. Source: none: infrastructure. Kind: L -/
theorem Inv.update (h : Inv order s) {a : Versioned.Update ι ℤ} (hlegal : s.shared.Legal a) :
    Inv order { s with shared := s.shared.update a } := by
  refine ⟨h.shared.update hlegal, ?_⟩
  have hread := h.read
  unfold ReadInv at hread ⊢
  dsimp only
  cases hpc : s.reader.pc with
  | top => trivial
  | load rest =>
      rw [hpc] at hread
      obtain ⟨done, hdone, hseen⟩ := hread
      exact ⟨done, hdone, hseen.update h.shared hlegal⟩
  | condition =>
      rw [hpc] at hread
      refine hread.imp id ?_
      rintro ⟨done, hdone, hseen⟩
      exact ⟨done, hdone, hseen.update h.shared hlegal⟩
  | done =>
      rw [hpc] at hread
      obtain ⟨u, hu, hlocals⟩ := hread
      refine ⟨u, ?_, hlocals⟩
      cases a with
      | start version => exact hu
      | write i x => exact hu
      | finish version => exact List.mem_cons_of_mem _ hu

/-- The loop's steps. The condition ends the loop only with a version that is the one that was
loaded, so that an even one gives a snapshot.
Source: `sys/clock.cpp` `clock_init`, `clock_time`
Kind: P -/
theorem Inv.readStep (h : Inv order s) (hall : ∀ i, i ∈ order) (hok : OddChanged s .read) {r : Reader ι}
    (hstep : Clock.readStep order s.shared s.reader = some r) : Inv order { s with reader := r } := by
  refine ⟨h.shared, ?_⟩
  have hread := h.read
  unfold Clock.readStep at hstep
  unfold ReadInv at hread ⊢
  cases hpc : s.reader.pc with
  | top =>
      rw [hpc] at hstep
      cases hstep
      dsimp only
      by_cases hodd : s.shared.version % 2 = 1
      · rw [if_pos hodd]
        exact Or.inl hodd
      · rw [if_neg hodd]
        exact ⟨[], fun i hi => Or.inr hi, h.shared.seen (by omega) s.reader.locals⟩
  | load rest =>
      rw [hpc] at hstep hread
      obtain ⟨done, hdone, hseen⟩ := hread
      cases rest with
      | nil =>
          cases hstep
          exact Or.inr ⟨done, fun i hi => (hdone i hi).resolve_right List.not_mem_nil, hseen⟩
      | cons i rest =>
          cases hstep
          refine ⟨i :: done, fun j hj => ?_, hseen.read h.shared i⟩
          rcases hdone j hj with hj | hj
          · exact Or.inl (List.mem_cons_of_mem _ hj)
          · rcases List.mem_cons.mp hj with rfl | hj
            · exact Or.inl List.mem_cons_self
            · exact Or.inr hj
  | condition =>
      rw [hpc] at hstep hread
      cases hstep
      dsimp only
      by_cases hversion : s.reader.version = s.shared.version
      · rw [if_neg (not_not.mpr hversion)]
        rcases hread with hodd | ⟨done, hdone, hseen⟩
        · exact (hok rfl hpc hodd hversion).elim
        · rw [hversion] at hseen
          exact hseen.snapshot fun i => hdone i (hall i)
      · rw [if_pos hversion]
        trivial
  | done =>
      rw [hpc] at hstep
      cases hstep

/-- Source: `sys/clock.cpp` `clock_init`, `clock_time`. Kind: P -/
theorem inv_run {version : ℕ} {field locals : ι → ℤ} {ops : List (Op ι)} (hall : ∀ i, i ∈ order)
    (heven : version % 2 = 0)
    (hrun : ((system order).guard OddChanged).Run (start version field locals) ops s) :
    Inv order s := by
  refine hrun.invariant ⟨Versioned.ok_init heven field, trivial⟩ ?_
  rintro s op s' h ⟨hlegal, hok⟩ hstep
  cases op with
  | update a =>
      cases hstep
      exact h.update hlegal
  | read =>
      obtain ⟨r, hr, rfl⟩ := Option.map_eq_some_iff.mp hstep
      exact h.readStep hall hok hr

omit [DecidableEq ι] in
/-- Past the loop there is a snapshot. Source: `sys/clock.cpp` `clock_time`. Kind: L -/
theorem Inv.snapshot (h : Inv order s) : s.Snapshot := by
  intro hdone
  have hread := h.read
  unfold ReadInv at hread
  rw [hdone] at hread
  exact hread

end Steps

/-! ## Both loops -/

/-- **A consistent snapshot.** In every interleaving of the hypervisor's updates with the loads of
`clock_time`'s loop, or of `clock_init`'s, in which no odd version is loaded and then found
unchanged at the condition, the loop ends with the fields of one completed update.
Source: `sys/clock.cpp` `clock_init`, `clock_time`
Kind: C
Fidelity: weaker than the code promises: `OddChanged` leaves out an odd version that is still there at the
condition
Hyps: `heven`: no update is under way before the first -/
theorem clockSnapshot_always (version : ℕ) (heven : version % 2 = 0) :
    (∀ field ops s, ((system timeOrder).guard OddChanged).Run (start version field fun _ => 0) ops s →
        s.Snapshot) ∧
      ∀ field locals ops s,
        ((system wallOrder).guard OddChanged).Run (start version field locals) ops s →
          s.Snapshot := by
  constructor
  · intro field ops s hrun
    have hall : ∀ i, i ∈ timeOrder := by
      intro i
      cases i <;> decide
    exact (inv_run hall heven hrun).snapshot
  · intro field locals ops s hrun
    have hall : ∀ i, i ∈ wallOrder := by
      intro i
      cases i <;> decide
    exact (inv_run hall heven hrun).snapshot

/-- An update of the wall clock. Source: none: infrastructure. Kind: D -/
def wallUpdate (version : ℕ) (sec nsec : ℤ) : List (Op WallField) :=
  [.update (.start version), .update (.write .sec sec), .update (.write .nsec nsec),
    .update (.finish (version + 1))]

/-- An update while the fields are loaded: the loop starts over, and ends with the new fields.
Source: `sys/clock.cpp` `clock_init`
Kind: C -/
theorem clockSnapshot_always_again :
    ∃ s, ((system wallOrder).guard OddChanged).Run (start 2 (fun _ => 5) fun _ => 0)
        ([.read, .read] ++ wallUpdate 3 8 9 ++ List.replicate 8 .read) s ∧
      s.reader.pc = .done ∧ s.Snapshot := by
  have hadmits : ((system wallOrder).guard OddChanged).Admits (start 2 (fun _ => 5) fun _ => 0)
      ([.read, .read] ++ wallUpdate 3 8 9 ++ List.replicate 8 .read) := by
    decide +kernel
  have hend : (((system wallOrder).guard OddChanged).exec (start 2 (fun _ => 5) fun _ => 0)
      ([.read, .read] ++ wallUpdate 3 8 9 ++ List.replicate 8 .read)).map (fun s => s.reader.pc)
      = some .done := by
    decide +kernel
  obtain ⟨s, hexec, hrun⟩ := System.Run.of_admits hadmits
  rw [hexec] at hend
  exact ⟨s, hrun, Option.some.inj hend, (clockSnapshot_always 2 rfl).2 _ _ _ s hrun⟩

/-- A load of the version during an update: `clock_time` returns what its locals were declared with.
Source: `sys/clock.cpp` `clock_time`
Kind: C -/
theorem clockSnapshot_not_always :
    ¬ ∀ version : ℕ, version % 2 = 0 →
      (∀ field ops s, (system timeOrder).Run (start version field fun _ => 0) ops s →
          s.Snapshot) ∧
        ∀ field locals ops s,
          (system wallOrder).Run (start version field locals) ops s → s.Snapshot := by
  intro hall
  have hadmits : (system timeOrder).Admits (start 2 (fun _ => 5) fun _ => 0)
      [.update (.start 3), .read, .read] := by
    decide +kernel
  have hend : ((system timeOrder).exec (start 2 (fun _ => 5) fun _ => 0)
      [.update (.start 3), .read, .read]).map
        (fun s => (s.reader.pc, s.reader.locals .tscTimestamp,
          s.shared.completed.map fun u => u.2 .tscTimestamp))
      = some (.done, 0, [5]) := by
    decide +kernel
  obtain ⟨s, hexec, hrun⟩ := System.Run.of_admits hadmits
  rw [hexec] at hend
  have hend : (s.reader.pc, s.reader.locals .tscTimestamp,
      s.shared.completed.map fun u => u.2 .tscTimestamp) = (ReadPc.done, 0, [5]) :=
    Option.some.inj hend
  simp only [Prod.mk.injEq] at hend
  obtain ⟨hdone, hlocal, hcompleted⟩ := hend
  obtain ⟨u, hu, hlocals⟩ := (hall 2 rfl).1 _ _ s hrun hdone
  have hmem : u.2 .tscTimestamp ∈ s.shared.completed.map fun u => u.2 .tscTimestamp :=
    List.mem_map_of_mem hu
  rw [hcompleted, ← hlocals, hlocal] at hmem
  simp at hmem

end Clock

end EbbRT
