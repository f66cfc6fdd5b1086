import Mathlib

/-!
# Records with a version

A writer updates the fields of a shared record one at a time, between making the version odd and
making it a new even number. A reader that sees an even version, reads fields and then sees the same
version again has read the fields of one completed update: `Seen` is what it knows in between,
whatever the writer does (`Seen.update`), and `Seen.snapshot` is what it has at the end.
-/

namespace EbbRT.Lib

/-- The record, and the updates that were completed, the last one first.
Source: none: infrastructure
Kind: D -/
structure Versioned (ι V : Type*) where
  version : ℕ
  field : ι → V
  /-- The fields that the update in progress has written, if there is one. -/
  updating : Option (List ι)
  completed : List (ℕ × (ι → V))

namespace Versioned

variable {ι V : Type*}

/-- A record that was written by one update.
Source: none: infrastructure
Kind: D -/
def init (version : ℕ) (field : ι → V) : Versioned ι V := ⟨version, field, none, [(version, field)]⟩

/-- The steps of an update.
Source: none: infrastructure
Kind: D -/
inductive Update (ι V : Type*)
  | start (version : ℕ)
  | write (i : ι) (x : V)
  | finish (version : ℕ)

/-- An update starts with an odd version, writes every field at least once, and ends with an even
version that no update has ended with.
Source: none: infrastructure
Kind: D -/
def Legal (s : Versioned ι V) : Update ι V → Prop
  | .start version => s.updating = none ∧ version % 2 = 1
  | .write _ _ => s.updating ≠ none
  | .finish version =>
      (∃ written, s.updating = some written ∧ ∀ i, i ∈ written) ∧ version % 2 = 0 ∧
        version ∉ s.completed.map Prod.fst

instance [Fintype ι] [DecidableEq ι] (s : Versioned ι V) :
    Decidable (∃ written, s.updating = some written ∧ ∀ i, i ∈ written) :=
  match h : s.updating with
  | none => isFalse (by simp)
  | some written => decidable_of_iff (∀ i, i ∈ written) (by simp)

instance [Fintype ι] [DecidableEq ι] (s : Versioned ι V) : ∀ a : Update ι V, Decidable (s.Legal a)
  | .start _ => inferInstanceAs (Decidable (_ ∧ _))
  | .write _ _ => inferInstanceAs (Decidable (_ ≠ _))
  | .finish _ => inferInstanceAs (Decidable (_ ∧ _ ∧ _))

/-- Source: none: infrastructure
Kind: D -/
def update [DecidableEq ι] (s : Versioned ι V) : Update ι V → Versioned ι V
  | .start version => { s with version := version, updating := some [] }
  | .write i x =>
      { s with
        field := Function.update s.field i x
        updating := s.updating.map fun written => i :: written }
  | .finish version =>
      { s with
        version := version
        updating := none
        completed := (version, s.field) :: s.completed }

/-- Between updates the record is that of the last one and its version is even; during an update
the version is odd; no two updates ended with the same version.
Source: none: infrastructure
Kind: D -/
structure Ok (s : Versioned ι V) : Prop where
  quiet : s.updating = none → s.version % 2 = 0 ∧ (s.version, s.field) ∈ s.completed
  busy : s.updating ≠ none → s.version % 2 = 1
  even : ∀ u ∈ s.completed, u.1 % 2 = 0
  unique : (s.completed.map Prod.fst).Nodup

variable {s : Versioned ι V} {a : Update ι V}

/-- Source: none: infrastructure. Kind: L -/
theorem ok_init {version : ℕ} (h : version % 2 = 0) (field : ι → V) : (init version field).Ok where
  quiet _ := ⟨h, List.mem_singleton_self _⟩
  busy hne := (hne rfl).elim
  even u hu := by
    rw [List.mem_singleton.mp hu]
    exact h
  unique := List.nodup_singleton _

/-- Source: none: infrastructure. Kind: L -/
theorem Ok.update [DecidableEq ι] (h : s.Ok) (hlegal : s.Legal a) : (s.update a).Ok := by
  cases a with
  | start version =>
      refine ⟨fun hnone => ?_, fun _ => hlegal.2, h.even, h.unique⟩
      cases hnone
  | write i x =>
      refine ⟨fun hnone => ?_, fun _ => h.busy hlegal, h.even, h.unique⟩
      exact (hlegal (Option.map_eq_none_iff.mp hnone)).elim
  | finish version =>
      obtain ⟨_, heven, hnew⟩ := hlegal
      refine ⟨fun _ => ⟨heven, List.mem_cons_self⟩, fun hne => (hne rfl).elim, ?_, ?_⟩
      · intro u hu
        rcases List.mem_cons.mp hu with rfl | hu
        · exact heven
        · exact h.even u hu
      · exact List.nodup_cons.mpr ⟨hnew, h.unique⟩

/-- Two completed updates with one version are the same. Source: none: infrastructure. Kind: L -/
theorem Ok.eq_of_version (h : s.Ok) {version : ℕ} {f f' : ι → V} (hf : (version, f) ∈ s.completed)
    (hf' : (version, f') ∈ s.completed) : f = f' := by
  have hinj := List.inj_on_of_nodup_map h.unique hf hf' rfl
  exact (Prod.mk.inj hinj).2

/-- What a reader knows that saw `version` and has then read the fields `done` into `locals`: as
long as the version is that one, they are those of the update that ended with it.
Source: none: infrastructure
Kind: D -/
def Seen (s : Versioned ι V) (version : ℕ) (done : List ι) (locals : ι → V) : Prop :=
  ∃ f, (version, f) ∈ s.completed ∧ (s.version = version → ∀ i ∈ done, locals i = f i)

/-- A reader that sees an even version. Source: none: infrastructure. Kind: L -/
theorem Ok.seen (h : s.Ok) (heven : s.version % 2 = 0) (locals : ι → V) :
    s.Seen s.version [] locals := by
  have hnone : s.updating = none := by
    by_contra hne
    have := h.busy hne
    omega
  refine ⟨s.field, (h.quiet hnone).2, fun _ i hi => ?_⟩
  cases hi

/-- Reading one more field. Source: none: infrastructure. Kind: L -/
theorem Seen.read [DecidableEq ι] {version : ℕ} {done : List ι} {locals : ι → V} (h : s.Ok)
    (hseen : s.Seen version done locals) (i : ι) :
    s.Seen version (i :: done) (Function.update locals i (s.field i)) := by
  obtain ⟨f, hf, hlocals⟩ := hseen
  refine ⟨f, hf, fun hversion j hj => ?_⟩
  have hnone : s.updating = none := by
    by_contra hne
    have hodd := h.busy hne
    have heven := h.even _ hf
    dsimp only at heven
    omega
  have hquiet := (h.quiet hnone).2
  rw [hversion] at hquiet
  have hfield : s.field = f := h.eq_of_version hquiet hf
  by_cases hij : j = i
  · subst hij
    rw [Function.update_self, hfield]
  · rw [Function.update_of_ne hij]
    exact hlocals hversion j ((List.mem_cons.mp hj).resolve_left hij)

/-- **Whatever the writer does, the reader knows as much.** A version that an update has ended with
does not come back.
Source: none: infrastructure
Kind: P -/
theorem Seen.update [DecidableEq ι] {version : ℕ} {done : List ι} {locals : ι → V} (h : s.Ok)
    (hlegal : s.Legal a)
    (hseen : s.Seen version done locals) : (s.update a).Seen version done locals := by
  obtain ⟨f, hf, hlocals⟩ := hseen
  have heven : version % 2 = 0 := h.even _ hf
  cases a with
  | start odd =>
      refine ⟨f, hf, fun hversion => ?_⟩
      have hversion : odd = version := hversion
      have := hlegal.2
      omega
  | write i x => exact ⟨f, hf, hlocals⟩
  | finish new =>
      refine ⟨f, List.mem_cons_of_mem _ hf, fun hversion => ?_⟩
      have hversion : new = version := hversion
      subst hversion
      exact (hlegal.2.2 (List.mem_map_of_mem hf)).elim

/-- **A reader that sees the same version again** has the fields of one completed update.
Source: none: infrastructure
Kind: P -/
theorem Seen.snapshot {done : List ι} {locals : ι → V} (hseen : s.Seen s.version done locals)
    (hall : ∀ i, i ∈ done) : ∃ u ∈ s.completed, locals = u.2 := by
  obtain ⟨f, hf, hlocals⟩ := hseen
  exact ⟨_, hf, funext fun i => hlocals rfl i (hall i)⟩

end Versioned

end EbbRT.Lib
