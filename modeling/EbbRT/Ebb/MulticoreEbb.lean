import EbbRT.Ebb.Trans
import EbbRT.Lib.System

/-!
# Representatives

An Ebb has a representative on each core, which `HandleFault` is to find in `local_id_map`, or to
construct and put there. `boost::any_cast` returns the map of representatives by value, so that
`HandleFault` puts the new representative into a copy: the map stays empty, and every call constructs
one. `representatives_exactlyWhen` says when this is not seen: as long as no core calls `HandleFault`
twice. That is what `EbbRef` sees to, which calls it only while the core's entry is null
(`onePerCpu_of_derefs`).
-/

namespace EbbRT

open EbbRT.Lib

namespace MulticoreEbb

/-! ## The code -/

/-- The representatives by core.
Source: `sys/multicore_ebb_static.hpp` `multicore_ebb_static::rep_map_t`
Kind: D -/
abbrev RepMap := ℕ → Option ℕ

/-- What the cores share and the entries of each, by address, and, with the core that they are for,
the representatives constructed and the results returned so far.
Source: `sys/local_id_map.hpp` `LocalIdMap`, `sys/trans.hpp` `LocalEntry`
Kind: D -/
structure State where
  localIdMap : ℕ → Option RepMap
  /-- `none` is the null pointer. -/
  entries : ℕ → ℕ → Option ℕ
  constructed : List (ℕ × ℕ)
  returned : List (ℕ × ℕ)

/-- The value is copied.
Source: `sys/multicore_ebb_static.hpp` `multicore_ebb_static::HandleFault`
Kind: D -/
def anyCast (value : RepMap) : RepMap := value

/-- Source: `sys/trans.hpp` `cache_ref`
Kind: D -/
def cacheRef (cpu id ref : ℕ) (s : State) : State :=
  { s with
    entries := Function.update s.entries cpu
      (Function.update (s.entries cpu) (localEntry id) (some ref)) }

/-- `new T` on a core, where the allocator returns `rep`.
Source: `sys/multicore_ebb_static.hpp` `multicore_ebb_static::HandleFault`
Kind: D -/
def construct (cpu rep : ℕ) (s : State) : State :=
  { s with constructed := s.constructed ++ [(cpu, rep)] }

/-- An entry is not inserted where there is one.
Source: `sys/multicore_ebb_static.hpp` `multicore_ebb_static::Init`
Kind: D -/
def initRep (staticId : ℕ) (s : State) : State :=
  match s.localIdMap staticId with
  | some _ => s
  | none =>
      { s with localIdMap := Function.update s.localIdMap staticId (some fun _ => none) }

/-- `HandleFault` of an Ebb with the given id; `cachesFound` says whether it calls `cache_ref` for a
representative that it has found. `none` is a failed `kassert`.
Source: `sys/multicore_ebb_static.hpp` `multicore_ebb_static::HandleFault`,
`sys/event_manager.cpp` `EventManager::HandleFault`
Kind: D -/
def handleFaultRep (cachesFound : Bool) (staticId id cpu rep : ℕ) (s : State) :
    Option (ℕ × State) :=
  if id ≠ staticId then none
  else
    match s.localIdMap id with
    | none => none
    | some value =>
        match anyCast value cpu with
        | some found => some (found, if cachesFound then cacheRef cpu id found s else s)
        | none =>
            let s := construct cpu rep s
            match s.localIdMap id with
            | none => none
            | some value =>
                -- the map that gets the representative is a local variable
                let _repMap := Function.update (anyCast value) cpu (some rep)
                some (rep, cacheRef cpu id rep s)

/-- Source: `sys/multicore_ebb_static.hpp` `multicore_ebb_static::Init`
Kind: D -/
def init (staticId : ℕ) (s : State) : State := initRep staticId s

/-- Source: `sys/multicore_ebb_static.hpp` `multicore_ebb_static::HandleFault`
Kind: D -/
def handleFault (staticId id cpu rep : ℕ) (s : State) : Option (ℕ × State) :=
  handleFaultRep true staticId id cpu rep s

end MulticoreEbb

namespace EventManager

/-- Source: `sys/event_manager.cpp` `EventManager::Init`
Kind: D -/
def init (s : MulticoreEbb.State) : MulticoreEbb.State := MulticoreEbb.initRep eventManagerId s

/-- A representative that is found is not cached.
Source: `sys/event_manager.cpp` `EventManager::HandleFault`
Kind: D -/
def handleFault (id cpu rep : ℕ) (s : MulticoreEbb.State) : Option (ℕ × MulticoreEbb.State) :=
  MulticoreEbb.handleFaultRep false eventManagerId id cpu rep s

end EventManager

namespace MulticoreEbb

/-- A call on a core, and the memory that a new representative would get.
Source: `sys/multicore_ebb_static.hpp` `multicore_ebb_static::HandleFault`
Kind: D -/
structure Call where
  cpu : ℕ
  rep : ℕ
  deriving DecidableEq, Repr

/-- Calls from any core: the memory is not in use.
Source: `sys/multicore_ebb_static.hpp` `multicore_ebb_static::HandleFault`
Kind: D -/
def calls (handler : ℕ → ℕ → State → Option (ℕ × State)) : System State Call where
  legal s c := c.rep ∉ s.constructed.map Prod.snd
  step s c := (handler c.cpu c.rep s).map fun r =>
    { r.2 with returned := r.2.returned ++ [(c.cpu, r.1)] }

instance (handler : ℕ → ℕ → State → Option (ℕ × State)) (s : State) (c : Call) :
    Decidable ((calls handler).legal s c) :=
  inferInstanceAs (Decidable (c.rep ∉ s.constructed.map Prod.snd))

/-- Before `Init` of the Ebbs in question: other Ebbs may have representatives, and the entries are
null.
Source: `sys/main.cpp` `kmain`
Kind: D -/
def State.boot (others : ℕ → Option RepMap) : State := ⟨others, fun _ _ => none, [], []⟩

/-- The function `operator->` of an `EbbRef` for the id, on a core.
Source: `sys/trans.hpp` `EbbRef`
Kind: D -/
def deref (handleFault : ℕ → ℕ → ℕ → State → Option (ℕ × State)) (id cpu rep : ℕ) (s : State) :
    Option (ℕ × State) :=
  match s.entries cpu (localEntry id) with
  | some lref => some (lref, s)
  | none => handleFault (entryId (localEntry id)) cpu rep s

/-! ## One representative per core -/

/-- All calls on a core return the same representative, no core constructs two, and different cores
get different ones.
Source: `sys/multicore_ebb_static.hpp` `multicore_ebb_static::HandleFault`
Kind: D -/
structure OnePerCpu (s : State) : Prop where
  same : ∀ cpu rep rep', (cpu, rep) ∈ s.returned → (cpu, rep') ∈ s.returned → rep = rep'
  once : (s.constructed.map Prod.fst).Nodup
  different : ∀ cpu cpu' rep rep', cpu ≠ cpu' → (cpu, rep) ∈ s.returned →
    (cpu', rep') ∈ s.returned → rep ≠ rep'

/-- The map of representatives is as `Init` made it, everything returned was constructed on the core
it was returned to, and every representative once.
Source: `sys/multicore_ebb_static.hpp` `multicore_ebb_static::HandleFault`
Kind: D -/
structure Inv (staticId : ℕ) (s : State) : Prop where
  empty : s.localIdMap staticId = some fun _ => none
  constructed : ∀ r ∈ s.returned, r ∈ s.constructed
  fresh : (s.constructed.map Prod.snd).Nodup

variable {staticId id cpu rep : ℕ} {cachesFound : Bool} {s s' : State} {others : ℕ → Option RepMap}

/-- Source: `sys/multicore_ebb_static.hpp` `multicore_ebb_static::Init`. Kind: L -/
theorem inv_init (h : others staticId = none) : Inv staticId (initRep staticId (.boot others)) := by
  have hinit : initRep staticId (.boot others) = { State.boot others with
      localIdMap := Function.update others staticId (some fun _ => none) } := by
    unfold initRep State.boot
    dsimp only
    rw [h]
  rw [hinit]
  refine ⟨Function.update_self .., fun r hr => ?_, List.nodup_nil⟩
  exact absurd hr List.not_mem_nil

/-- **Every call constructs a representative.**
Source: `sys/multicore_ebb_static.hpp` `multicore_ebb_static::HandleFault`
Kind: L -/
theorem handleFaultRep_eq (h : s.localIdMap staticId = some fun _ => none) :
    handleFaultRep cachesFound staticId staticId cpu rep s =
      some (rep, cacheRef cpu staticId rep (construct cpu rep s)) := by
  have h' : (construct cpu rep s).localIdMap staticId = some fun _ => none := h
  unfold handleFaultRep anyCast
  rw [if_neg (not_not_intro rfl), h]
  dsimp only
  rw [h']

/-- Without two representatives for one core there is one per core.
Source: `sys/multicore_ebb_static.hpp` `multicore_ebb_static::HandleFault`
Kind: L -/
theorem Inv.onePerCpu (h : Inv staticId s) (honce : (s.constructed.map Prod.fst).Nodup) :
    OnePerCpu s := by
  refine ⟨fun cpu rep rep' hr hr' => ?_, honce, fun cpu cpu' rep rep' hne hr hr' heq => ?_⟩
  · have hpair := List.inj_on_of_nodup_map honce (h.constructed _ hr) (h.constructed _ hr') rfl
    exact (Prod.mk.inj hpair).2
  · have hpair := List.inj_on_of_nodup_map h.fresh (h.constructed _ hr) (h.constructed _ hr') heq
    exact hne (Prod.mk.inj hpair).1

/-! ## Calls of `HandleFault` -/

/-- The state after a call. Source: `sys/multicore_ebb_static.hpp` `multicore_ebb_static::HandleFault`.
Kind: L -/
theorem Inv.call {c : Call} (h : Inv staticId s)
    (hlegal : (calls (handleFaultRep cachesFound staticId staticId)).legal s c)
    (hstep : (calls (handleFaultRep cachesFound staticId staticId)).step s c = some s') :
    Inv staticId s' ∧ s'.constructed = s.constructed ++ [(c.cpu, c.rep)] := by
  have hnext : (handleFaultRep cachesFound staticId staticId c.cpu c.rep s).map (fun r : ℕ × State =>
      { r.2 with returned := r.2.returned ++ [(c.cpu, r.1)] }) = some s' := hstep
  rw [handleFaultRep_eq h.empty, Option.map_some] at hnext
  obtain rfl := Option.some.inj hnext
  refine ⟨⟨h.empty, fun r hr => ?_, ?_⟩, rfl⟩
  · rcases List.mem_append.mp hr with hr | hr
    · exact List.mem_append_left _ (h.constructed r hr)
    · exact List.mem_append_right _ hr
  · show ((s.constructed ++ [(c.cpu, c.rep)]).map Prod.snd).Nodup
    rw [List.map_append, List.nodup_append']
    refine ⟨h.fresh, List.nodup_singleton _, fun r hr hr' => ?_⟩
    obtain rfl : r = c.rep := List.mem_singleton.mp hr'
    exact hlegal hr

/-- The representatives constructed are those of the calls. Source: none: infrastructure. Kind: L -/
theorem inv_of_run {cs : List Call} (h : others staticId = none)
    (hrun : (calls (handleFaultRep cachesFound staticId staticId)).Run
      (initRep staticId (.boot others)) cs s) :
    Inv staticId s ∧ s.constructed = cs.map fun c => (c.cpu, c.rep) := by
  induction hrun with
  | nil =>
      refine ⟨inv_init h, ?_⟩
      unfold initRep State.boot
      dsimp only
      rw [h]
      rfl
  | snoc _ hlegal hstep ih =>
      obtain ⟨hinv, hconstructed⟩ := ih.1.call hlegal hstep
      refine ⟨hinv, ?_⟩
      rw [hconstructed, ih.2, List.map_append]
      rfl

/-- **What the calls come to.** Source: `sys/multicore_ebb_static.hpp` `multicore_ebb_static::HandleFault`.
Kind: P -/
theorem onePerCpu_iff {cs : List Call} (h : others staticId = none)
    (hrun : (calls (handleFaultRep cachesFound staticId staticId)).Run
      (initRep staticId (.boot others)) cs s) : OnePerCpu s ↔ (cs.map Call.cpu).Nodup := by
  obtain ⟨hinv, hconstructed⟩ := inv_of_run h hrun
  have hcpus : s.constructed.map Prod.fst = cs.map Call.cpu := by
    rw [hconstructed, List.map_map]
    rfl
  constructor
  · intro hone
    rw [← hcpus]
    exact hone.once
  · intro hnodup
    refine hinv.onePerCpu ?_
    rw [hcpus]
    exact hnodup

/-- **One representative per core.** After any run of calls of `HandleFault` on any cores, for an Ebb
with `multicore_ebb_static` and for the event manager, there is one representative per core if and
only if no core has made two calls.
Source: `sys/multicore_ebb_static.hpp` `multicore_ebb_static::HandleFault`,
`sys/event_manager.cpp` `EventManager::HandleFault`
Kind: C
Hyps: `hstatic`, `hevent`: there are no representatives before the first call -/
theorem representatives_exactlyWhen (staticId : ℕ) (others : ℕ → Option RepMap)
    (hstatic : others staticId = none) (hevent : others eventManagerId = none) (cs : List Call)
    (s : State) :
    ((calls (handleFault staticId staticId)).Run (init staticId (.boot others)) cs s →
        (OnePerCpu s ↔ (cs.map Call.cpu).Nodup)) ∧
      ((calls (EventManager.handleFault eventManagerId)).Run (EventManager.init (.boot others)) cs s →
        (OnePerCpu s ↔ (cs.map Call.cpu).Nodup)) :=
  ⟨fun hrun => onePerCpu_iff hstatic hrun, fun hrun => onePerCpu_iff hevent hrun⟩

/-- Two cores, one call each. Source: `sys/multicore_ebb_static.hpp` `multicore_ebb_static::HandleFault`.
Kind: C -/
theorem representatives_exactlyWhen_two :
    ∃ s s', (calls (handleFault 6 6)).Run (init 6 (.boot fun _ => none)) [⟨0, 64⟩, ⟨1, 128⟩] s ∧
      (calls (EventManager.handleFault eventManagerId)).Run (EventManager.init (.boot fun _ => none))
        [⟨0, 64⟩, ⟨1, 128⟩] s' ∧ OnePerCpu s ∧ OnePerCpu s' := by
  obtain ⟨s, -, hrun⟩ := System.Run.of_admits (show (calls (handleFault 6 6)).Admits
    (init 6 (.boot fun _ => none)) [⟨0, 64⟩, ⟨1, 128⟩] by decide)
  obtain ⟨s', -, hrun'⟩ := System.Run.of_admits (show
    (calls (EventManager.handleFault eventManagerId)).Admits (EventManager.init (.boot fun _ => none))
      [⟨0, 64⟩, ⟨1, 128⟩] by decide)
  refine ⟨s, s', hrun, hrun', ?_, ?_⟩
  · exact ((representatives_exactlyWhen 6 (fun _ => none) rfl rfl _ s).1 hrun).mpr (by decide)
  · exact ((representatives_exactlyWhen 6 (fun _ => none) rfl rfl _ s').2 hrun').mpr (by decide)

/-- Two calls on one core: the second one constructs and returns another representative.
Source: `sys/event_manager.cpp` `EventManager::HandleFault`
Kind: P -/
theorem representatives_not_always :
    ¬ ∀ others : ℕ → Option RepMap, others eventManagerId = none → ∀ cs s,
      (calls (EventManager.handleFault eventManagerId)).Run (EventManager.init (.boot others)) cs s →
        OnePerCpu s := by
  intro hall
  obtain ⟨s, hs, hrun⟩ := System.Run.of_admits (show
    (calls (EventManager.handleFault eventManagerId)).Admits (EventManager.init (.boot fun _ => none))
      [⟨0, 64⟩, ⟨0, 128⟩] by decide)
  have hone := hall (fun _ => none) rfl _ s hrun
  have hreturned : s.returned = [(0, 64), (0, 128)] := by
    obtain rfl := Option.some.inj hs
    rfl
  exact absurd (hone.same 0 64 128 (by rw [hreturned]; decide) (by rw [hreturned]; decide)) (by decide)

/-! ## Through `EbbRef` -/

/-- The Ebb is used through `EbbRef` only, on any core.
Source: `sys/trans.hpp` `EbbRef`
Kind: D -/
def derefs (cachesFound : Bool) (staticId : ℕ) : System State Call :=
  calls (deref (handleFaultRep cachesFound staticId) staticId)

/-- The entries are the representatives constructed, one for each core.
Source: `sys/trans.hpp` `EbbRef`, `cache_ref`
Kind: D -/
structure Cached (staticId : ℕ) (s : State) : Prop where
  inv : Inv staticId s
  entries : ∀ cpu rep, s.entries cpu (localEntry staticId) = some rep ↔ (cpu, rep) ∈ s.constructed
  once : (s.constructed.map Prod.fst).Nodup

/-- **A use through `EbbRef`** reads the entry, or has it written by `HandleFault`.
Source: `sys/trans.hpp` `EbbRef`
Kind: L -/
theorem Cached.step {c : Call} (hid : staticId < ebbIds) (h : Cached staticId s)
    (hlegal : (derefs cachesFound staticId).legal s c)
    (hstep : (derefs cachesFound staticId).step s c = some s') : Cached staticId s' := by
  have hnext : (deref (handleFaultRep cachesFound staticId) staticId c.cpu c.rep s).map
      (fun r : ℕ × State => { r.2 with returned := r.2.returned ++ [(c.cpu, r.1)] }) = some s' := hstep
  unfold deref at hnext
  rw [entryId_localEntry hid] at hnext
  cases hentry : s.entries c.cpu (localEntry staticId) with
  | some lref =>
      rw [hentry] at hnext
      obtain rfl := Option.some.inj hnext
      refine ⟨⟨h.inv.empty, fun r hr => ?_, h.inv.fresh⟩, h.entries, h.once⟩
      rcases List.mem_append.mp hr with hr | hr
      · exact h.inv.constructed r hr
      · rw [List.mem_singleton.mp hr]
        exact (h.entries c.cpu lref).mp hentry
  | none =>
      rw [hentry] at hnext
      obtain ⟨hinv, hconstructed⟩ := h.inv.call hlegal hnext
      have hnew : ∀ rep, (c.cpu, rep) ∉ s.constructed := by
        intro rep hrep
        rw [(h.entries c.cpu rep).mpr hrep] at hentry
        cases hentry
      dsimp only at hnext
      rw [handleFaultRep_eq h.inv.empty, Option.map_some] at hnext
      obtain rfl := Option.some.inj hnext
      refine ⟨hinv, fun cpu rep => ?_, ?_⟩
      · rw [hconstructed, List.mem_append, List.mem_singleton, Prod.mk.injEq, ← h.entries cpu rep]
        show Function.update s.entries c.cpu _ cpu (localEntry staticId) = some rep ↔ _
        by_cases hcpu : cpu = c.cpu
        · obtain rfl := hcpu
          rw [Function.update_self, Function.update_self, hentry, Option.some.injEq]
          constructor
          · exact fun heq => Or.inr ⟨rfl, heq.symm⟩
          · rintro (heq | ⟨-, heq⟩)
            · cases heq
            · exact heq.symm
        · rw [Function.update_of_ne hcpu]
          exact ⟨Or.inl, fun h' => h'.resolve_right fun heq => hcpu heq.1⟩
      · rw [hconstructed, List.map_append, List.nodup_append']
        refine ⟨h.once, List.nodup_singleton _, fun cpu hcpu hcpu' => ?_⟩
        obtain rfl : cpu = c.cpu := List.mem_singleton.mp hcpu'
        obtain ⟨⟨cpu', rep⟩, hmem, hfst⟩ := List.mem_map.mp hcpu
        obtain rfl : cpu' = c.cpu := hfst
        exact hnew rep hmem

/-- **`EbbRef` hides it**: after any run of uses through `EbbRef` there is one representative per core.
Source: `sys/trans.hpp` `EbbRef`
Kind: P -/
theorem onePerCpu_of_derefs {cs : List Call} (hid : staticId < ebbIds) (h : others staticId = none)
    (hrun : (derefs cachesFound staticId).Run (initRep staticId (.boot others)) cs s) :
    OnePerCpu s := by
  have hcached : Cached staticId s := by
    refine hrun.invariant ?_ fun _ _ _ hs hlegal hstep => hs.step hid hlegal hstep
    have hinit : (initRep staticId (.boot others)).entries = fun _ _ => none := by
      unfold initRep State.boot
      dsimp only
      rw [h]
    have hnone : (initRep staticId (.boot others)).constructed = [] := by
      unfold initRep State.boot
      dsimp only
      rw [h]
    refine ⟨inv_init h, fun cpu rep => ?_, ?_⟩
    · rw [hinit, hnone]
      simp
    · rw [hnone]
      exact List.nodup_nil
  exact hcached.inv.onePerCpu hcached.once

end MulticoreEbb

end EbbRT
