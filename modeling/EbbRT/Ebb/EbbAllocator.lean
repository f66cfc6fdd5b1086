import EbbRT.Ebb.Trans
import EbbRT.Lib.IntervalSet
import EbbRT.Lib.System

/-!
# Ebb ids

`AllocateLocal` hands out the smallest free id, from `FIRST_FREE_ID` up to `2 ^ 16 - 2`. The ids are
unique, but the translation table has entries for `idsMapped` of them only: `ebbIds_exactlyWhen` says
after how many calls an id is returned whose entry is not mapped.
-/

namespace EbbRT

open EbbRT.Lib

namespace EbbAllocator

/-! ## The code -/

/-- The free ids, and the ids returned so far, oldest first.
Source: `sys/ebb_allocator.hpp` `EbbAllocator`
Kind: D -/
structure State where
  freeIds : IntervalSet
  returned : List ℕ

/-- The id after the last.
Source: `sys/ebb_allocator.cpp` `EbbAllocator::EbbAllocator`
Kind: D -/
def endIds : ℕ := 1 <<< 16 - 1

/-- Source: `sys/ebb_allocator.cpp` `EbbAllocator::EbbAllocator`
Kind: D -/
def State.init : State := ⟨IntervalSet.interval firstFreeId endIds, []⟩

/-- `none` is the `kbugon` when there is no free id.
Source: `sys/ebb_allocator.cpp` `EbbAllocator::AllocateLocal`
Kind: D -/
def allocateLocal (freeIds : IntervalSet) : Option (ℕ × IntervalSet) :=
  freeIds.first.map fun ret => (ret, freeIds.erase ret)

/-- Calls from any CPU; the lock makes them one after another.
Source: `sys/ebb_allocator.cpp` `EbbAllocator::AllocateLocal`
Kind: D -/
def system : System State ℕ where
  legal _ _ := True
  step s _ := (allocateLocal s.freeIds).map fun r => ⟨r.2, s.returned ++ [r.1]⟩

/-! ## Runs -/

/-- The ids are returned in order, and those that remain are free.
Source: none: infrastructure
Kind: D -/
structure Inv (s : State) : Prop where
  returned : s.returned = List.range' firstFreeId s.returned.length
  free : ∀ id, id ∈ s.freeIds ↔ firstFreeId + s.returned.length ≤ id ∧ id < endIds
  bound : firstFreeId + s.returned.length ≤ endIds

variable {s s' : State} {cpu : ℕ} {cpus : List ℕ}

/-- Source: `sys/ebb_allocator.cpp` `EbbAllocator::EbbAllocator`. Kind: L -/
theorem inv_init : Inv State.init :=
  ⟨rfl, fun _ => IntervalSet.mem_interval, by decide⟩

/-- The next id is the first of the free ones. Source: none: infrastructure. Kind: L -/
theorem Inv.first {ret : ℕ} (h : Inv s) (hfirst : s.freeIds.first = some ret) :
    ret = firstFreeId + s.returned.length ∧ ret < endIds := by
  obtain ⟨hmem, hle⟩ := IntervalSet.first_eq_some hfirst
  obtain ⟨hlo, hhi⟩ := (h.free ret).mp hmem
  have hleast := hle (firstFreeId + s.returned.length) ((h.free _).mpr ⟨le_rfl, hlo.trans_lt hhi⟩)
  exact ⟨le_antisymm hleast hlo, hhi⟩

/-- **A call** returns the next id. Source: `sys/ebb_allocator.cpp` `EbbAllocator::AllocateLocal`.
Kind: P -/
theorem Inv.step (h : Inv s) (hstep : system.step s cpu = some s') :
    Inv s' ∧ s'.returned.length = s.returned.length + 1 := by
  obtain ⟨r, hr, rfl⟩ := Option.map_eq_some_iff.mp hstep
  obtain ⟨ret, hfirst, rfl⟩ := Option.map_eq_some_iff.mp hr
  obtain ⟨hret, hlt⟩ := h.first hfirst
  have hlength : (s.returned ++ [ret]).length = s.returned.length + 1 := List.length_append
  refine ⟨⟨?_, fun id => ?_, ?_⟩, hlength⟩
  · dsimp only
    rw [hlength, List.range'_concat, ← h.returned, hret, one_mul]
  · dsimp only
    rw [IntervalSet.mem_erase, h.free id, hlength]
    omega
  · dsimp only
    rw [hlength]
    omega

/-- After `n` calls `n` ids are returned. Source: none: infrastructure. Kind: L -/
theorem inv_of_run (hrun : system.Run State.init cpus s) :
    Inv s ∧ s.returned.length = cpus.length := by
  induction hrun with
  | nil => exact ⟨inv_init, rfl⟩
  | snoc _ _ hstep ih =>
      obtain ⟨hinv, hlength⟩ := ih.1.step hstep
      rw [List.length_append, hlength, ih.2]
      exact ⟨hinv, rfl⟩

/-- Ids can be allocated until there is none left.
Source: `sys/ebb_allocator.cpp` `EbbAllocator::AllocateLocal`
Kind: L -/
theorem exists_run {n : ℕ} (h : firstFreeId + n ≤ endIds) :
    ∃ s, system.Run State.init (List.replicate n 0) s := by
  induction n with
  | zero => exact ⟨_, System.Run.nil⟩
  | succ n ih =>
      obtain ⟨s, hrun⟩ := ih (by omega)
      obtain ⟨hinv, hlength⟩ := inv_of_run hrun
      rw [List.length_replicate] at hlength
      rw [List.replicate_succ']
      cases hfirst : s.freeIds.first with
      | none =>
          refine absurd ((hinv.free (firstFreeId + n)).mpr ⟨?_, by omega⟩)
            (IntervalSet.first_eq_none hfirst _)
          rw [hlength]
      | some ret =>
          have hstep : system.step s 0 = some ⟨s.freeIds.erase ret, s.returned ++ [ret]⟩ := by
            unfold system allocateLocal
            dsimp only
            rw [hfirst]
            rfl
          exact ⟨_, System.Run.snoc hrun trivial hstep⟩

/-! ## Unique and usable -/

/-- `t` are the tables of a core after the page of its translation table was mapped.
Source: `sys/main.cpp` `kmain`, `sys/smp.cpp` `smp_main`
Kind: D -/
def Boots (pages : ℕ → Option ℕ) (t t' : Tables) : Prop :=
  (Pte.present (t.mem (Pte.addr t.root false) 511) = false ∧ transInit pages t = .ok t') ∨
    transApInit pages t = .ok t'

/-- On every core the first page of the region is mapped.
Source: `sys/trans.cpp` `trans_init`, `trans_ap_init`
Kind: L -/
theorem Boots.mapped {pages : ℕ → Option ℕ} {t t' : Tables} (h : Boots pages t t')
    (hready : TransReady pages t) : ∃ d, TransMapped t' d := by
  rcases h with ⟨habsent, hok⟩ | hok
  · exact transMapped_transInit hready habsent hok
  · exact transMapped_transApInit hready hok

/-- No id is returned twice or reserved, and a core with the tables `t` has an entry for each.
Source: `sys/trans.hpp` `EbbRef`, `FIRST_FREE_ID`
Kind: D -/
structure UniqueAndUsable (t : Tables) (ids : List ℕ) : Prop where
  nodup : ids.Nodup
  notReserved : ∀ id ∈ ids, firstFreeId ≤ id
  mapped : ∀ id ∈ ids, EntryMapped t id

/-- **Unique and usable ids.** On every core, from tables in which nothing of the region is mapped:
after any run of calls the ids returned are unique and not reserved, and they have entries that are
mapped if and only if there were not more calls than there are entries on the page for ids that are
not reserved.
Source: `sys/ebb_allocator.cpp` `EbbAllocator::AllocateLocal`, `sys/trans.cpp` `trans_init`
Kind: C
Hyps: `hready`: the root leads to a table, and the pages to be allocated are others -/
theorem ebbIds_exactlyWhen (pages : ℕ → Option ℕ) (t t' : Tables) (hready : TransReady pages t)
    (hboots : Boots pages t t') (cpus : List ℕ) (s : State)
    (hrun : system.Run State.init cpus s) :
    UniqueAndUsable t' s.returned ↔ cpus.length ≤ idsMapped - firstFreeId := by
  obtain ⟨hinv, hlength⟩ := inv_of_run hrun
  obtain ⟨d, hmapped⟩ := hboots.mapped hready
  have hmem : ∀ id, id ∈ s.returned ↔ firstFreeId ≤ id ∧ id < firstFreeId + cpus.length := by
    intro id
    rw [hinv.returned, hlength, List.mem_range'_1]
  have hbound := hinv.bound
  rw [hlength] at hbound
  have hsmall : endIds < 2 ^ 29 := by decide
  have hlast : firstFreeId < idsMapped := by decide
  constructor
  · intro h
    by_contra hmany
    -- the id after the last one with an entry was returned
    have hret := (hmem idsMapped).mpr ⟨hlast.le, by omega⟩
    exact absurd ((hmapped.entryMapped_iff (by omega)).mp (h.mapped _ hret)) (lt_irrefl _)
  · intro hfew
    refine ⟨?_, fun id hid => ((hmem id).mp hid).1, fun id hid => ?_⟩
    · rw [hinv.returned]
      exact List.nodup_range'
    · obtain ⟨-, hlt⟩ := (hmem id).mp hid
      exact (hmapped.entryMapped_iff (by omega)).mpr (by omega)

/-- A first core with an empty table for its root. Source: `sys/main.cpp` `kmain`. Kind: L -/
theorem exists_boots : ∃ pages t t', TransReady pages t ∧ Boots pages t t' := by
  obtain ⟨pages, hpages⟩ : ∃ pages : ℕ → Option ℕ, pages = fun n => if n < 4 then some (n + 2) else none :=
    ⟨_, rfl⟩
  have hlt : ∀ n page, pages n = some page → n < 4 ∧ n + 2 = page := by
    intro n page h
    rw [hpages] at h
    by_cases hn : n < 4
    · exact ⟨hn, by simpa [hn] using h⟩
    · simp [hn] at h
  have hboot : (transInit pages ⟨Pte.setNormal (1 <<< 12), fun _ _ => 0, 0, []⟩).isOk = true := by
    rw [hpages]
    decide +kernel
  cases hok : transInit pages ⟨Pte.setNormal (1 <<< 12), fun _ _ => 0, 0, []⟩ with
  | error a =>
      rw [hok] at hboot
      cases hboot
  | ok t' =>
      refine ⟨pages, _, t', ⟨⟨fun m n page hm hn => ?_, fun n page h => ?_⟩, by decide +kernel,
        fun n page _ h => ?_⟩, Or.inl ⟨rfl, hok⟩⟩
      · have := (hlt m page hm).2
        have := (hlt n page hn).2
        omega
      · have := hlt n page h
        omega
      · have hroot : Pte.addr (Pte.setNormal (1 <<< 12)) false = 4096 := by decide +kernel
        have := hlt n page h
        rw [pfnToAddr_eq (by omega), hroot]
        omega

/-- All ids with an entry. Source: `sys/ebb_allocator.cpp` `EbbAllocator::AllocateLocal`. Kind: C -/
theorem ebbIds_exactlyWhen_page : ∃ pages t t' s, TransReady pages t ∧ Boots pages t t' ∧
    system.Run State.init (List.replicate 504 0) s ∧ UniqueAndUsable t' s.returned := by
  obtain ⟨pages, t, t', hready, hboots⟩ := exists_boots
  obtain ⟨s, hrun⟩ := exists_run (show firstFreeId + 504 ≤ endIds by decide)
  refine ⟨pages, t, t', s, hready, hboots, hrun, ?_⟩
  refine (ebbIds_exactlyWhen pages t t' hready hboots _ s hrun).mpr ?_
  rw [List.length_replicate]
  decide

/-- One more call: the entry of the last id returned is not mapped.
Source: `sys/ebb_allocator.cpp` `EbbAllocator::AllocateLocal`, `sys/trans.cpp` `trans_init`
Kind: P -/
theorem ebbIds_not_always : ¬ ∀ pages t t' cpus s, TransReady pages t → Boots pages t t' →
    system.Run State.init cpus s → UniqueAndUsable t' s.returned := by
  intro hall
  obtain ⟨pages, t, t', hready, hboots⟩ := exists_boots
  obtain ⟨s, hrun⟩ := exists_run (show firstFreeId + 505 ≤ endIds by decide)
  obtain ⟨d, hmapped⟩ := hboots.mapped hready
  obtain ⟨hinv, hlength⟩ := inv_of_run hrun
  have hret : 512 ∈ s.returned := by
    rw [hinv.returned, hlength, List.length_replicate, List.mem_range'_1]
    decide
  have hentry := (hall pages t t' _ s hready hboots hrun).mapped 512 hret
  exact absurd ((hmapped.entryMapped_iff (by norm_num)).mp hentry) (by decide)

end EbbAllocator

end EbbRT
