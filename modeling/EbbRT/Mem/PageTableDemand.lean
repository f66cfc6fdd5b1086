import EbbRT.Mem.PageTableStops

/-!
# How many pages a mapping asks for

`demand` counts, on the tables before the call, the calls of `Alloc` that `map_memory` makes if none of
them fails: one for every table that is missing on the way to the range. `traverse_follows`: on tables that
are a tree the call asks for exactly these, in order, and stops at the first that is not there. The
induction is on the level; inside it `forSlots_follows` runs over the slots, and what one slot changes is
no part of what is counted for the others (`demand_frame`).
-/

namespace EbbRT

open EbbRT.Lib EbbRT.Lib.Radix

/-! ## The count -/

/-- How a call ends that gets all the pages it asks for.
Source: `sys/vmem.cpp` `map_memory`
Kind: D -/
inductive Course
  /-- It returns. -/
  | returns
  /-- It stops at an entry that is present, or at the second level below the last. -/
  | stops
  /-- It takes a page that is mapped for a table: a large page, or any at the last level. -/
  | leaves
  deriving DecidableEq, Repr

/-- The pages that a call asks for, and how it ends.
Source: none: infrastructure
Kind: D -/
structure Demand where
  calls : ℕ
  course : Course
  deriving DecidableEq, Repr

/-- First `d`, and `d'` if that returns. Source: none: infrastructure. Kind: D -/
def Demand.andThen (d d' : Demand) : Demand :=
  if d.course = .returns then ⟨d.calls + d'.calls, d'.course⟩ else d

/-- What the loop over the slots asks for.
Source: `sys/vmem.hpp` `traverse_page_table`
Kind: D -/
def demandSlots (slot : ℕ → ℕ → Demand) (step : ℕ) : ℕ → ℕ → ℕ → Demand
  | 0, _, _ => ⟨0, .returns⟩
  | n + 1, idx, baseVirt =>
      (slot idx baseVirt).andThen
        (demandSlots slot step n (idx + 1) (canonical ((baseVirt + step) % word)))

/-- What the slot of an entry asks for, if `call` is what a call for it asks for.
Source: `sys/vmem.hpp` `traverse_page_table`
Kind: D -/
def demandSlot (call : ℕ → ℕ → Demand) (virtStart virtEnd level step : ℕ) (entries : ℕ → ℕ)
    (idx baseVirt : ℕ) : Demand :=
  if level < numPageSizes ∧ virtStart ≤ baseVirt ∧ virtEnd ≥ (baseVirt + step) % word then
    ⟨0, if Pte.present (entries idx) then .stops else .returns⟩
  else call (entries idx) baseVirt

/-- What the slots of one table ask for, from `idxBegin` to `idxEnd`.
Source: `sys/vmem.hpp` `traverse_page_table`
Kind: D -/
def demandTable (call : ℕ → ℕ → Demand) (virtStart virtEnd level baseVirt : ℕ) (entries : ℕ → ℕ) :
    Demand :=
  let step := (1 <<< (12 + level * 9)) % word
  let idxBegin := ptIndex (max virtStart baseVirt) level
  let baseVirtEnd := canonical (wsub ((baseVirt + step * 512) % word) 1)
  let idxEnd := ptIndex (min (wsub virtEnd 1) baseVirtEnd) level
  demandSlots (demandSlot call virtStart virtEnd level step entries) step (idxEnd + 1 - idxBegin)
    idxBegin ((baseVirt + canonical (idxBegin * step % word)) % word)

/-- What a call for an entry that holds `raw` asks for. A missing table is one page, and its slots are
clear. At level 0 there is one page more for the first slot of 8 bytes, where the call stops.
Source: `sys/vmem.hpp` `traverse_page_table`, `sys/vmem.cpp` `map_memory`
Kind: D -/
def demand (mem : ℕ → ℕ → ℕ) (virtStart virtEnd : ℕ) : ℕ → ℕ → ℕ → Demand
  | 0, raw, _ => if Pte.present raw then ⟨0, .leaves⟩ else ⟨2, .stops⟩
  | level + 1, raw, baseVirt =>
      let slots := demandTable (fun raw baseVirt => demand mem virtStart virtEnd level raw baseVirt)
        virtStart virtEnd level baseVirt
      match pteView (level + 1) raw with
      | .leaf _ => ⟨0, .leaves⟩
      | .table pt => slots (mem pt)
      | .absent => ⟨1 + (slots fun _ => 0).calls, (slots fun _ => 0).course⟩

section Count

variable {mem mem' : ℕ → ℕ → ℕ} {virtStart virtEnd k raw base step pt : ℕ} {entries entries' : ℕ → ℕ}
  {call call' : ℕ → ℕ → Demand} {d : Demand}

/-- Source: `sys/vmem.hpp` `traverse_page_table`. Kind: L -/
theorem demand_table (h : pteView (k + 1) raw = .table pt)
    (hd : demandTable (demand mem virtStart virtEnd k) virtStart virtEnd k base (mem pt) = d) :
    demand mem virtStart virtEnd (k + 1) raw base = d := by
  rw [demand, h, ← hd]

/-- Source: `sys/vmem.hpp` `traverse_page_table`. Kind: L -/
theorem demand_absent (h : pteView (k + 1) raw = .absent)
    (hd : demandTable (demand mem virtStart virtEnd k) virtStart virtEnd k base (fun _ => 0) = d) :
    demand mem virtStart virtEnd (k + 1) raw base = ⟨1 + d.calls, d.course⟩ := by
  rw [demand, h, ← hd]

/-- Source: `sys/vmem.hpp` `traverse_page_table`. Kind: L -/
theorem demand_leaf {a : ℕ} (h : pteView (k + 1) raw = .leaf a) :
    demand mem virtStart virtEnd (k + 1) raw base = ⟨0, .leaves⟩ := by
  rw [demand, h]

/-- Only the slots that the loop comes to count. Source: none: infrastructure. Kind: L -/
theorem demandSlots_congr {slot slot' : ℕ → ℕ → Demand} (n idx base : ℕ)
    (h : ∀ i base, idx ≤ i → i < idx + n → slot i base = slot' i base) :
    demandSlots slot step n idx base = demandSlots slot' step n idx base := by
  induction n generalizing idx base with
  | zero => rfl
  | succ n ih =>
      rw [demandSlots, demandSlots, h idx base le_rfl (by omega)]
      rw [ih (idx + 1) _ fun i base h1 h2 => h i base (by omega) (by omega)]

/-- Slots of a table are below 512. Source: `sys/vmem.hpp` `pt_index`. Kind: L -/
theorem ptIndex_lt (va level : ℕ) : ptIndex va level < 512 := by
  rw [ptIndex_eq]
  exact pageRadix.digit_lt level va

/-- The slots of a table ask for the same if they have the same entries and the calls for these do.
Source: none: infrastructure
Kind: L -/
theorem demandTable_congr
    (h : ∀ i < 512, entries i = entries' i ∧ ∀ base, call (entries i) base = call' (entries i) base) :
    demandTable call virtStart virtEnd k base entries
      = demandTable call' virtStart virtEnd k base entries' := by
  unfold demandTable
  dsimp only
  generalize hstep : (1 <<< (12 + k * 9)) % word = step
  have hi := ptIndex_lt (max virtStart base) k
  have hj := ptIndex_lt (min (wsub virtEnd 1) (canonical (wsub ((base + step * 512) % word) 1))) k
  apply demandSlots_congr
  intro i b h1 h2
  obtain ⟨hentry, hcall⟩ := h i (by omega)
  unfold demandSlot
  rw [← hentry, hcall]

/-- Below a clear entry nothing is read. By induction on the level.
Source: `sys/vmem.hpp` `pte::clear`
Kind: L -/
theorem demand_zero (mem mem' : ℕ → ℕ → ℕ) (virtStart virtEnd k base : ℕ) :
    demand mem virtStart virtEnd k 0 base = demand mem' virtStart virtEnd k 0 base := by
  induction k generalizing base with
  | zero => rfl
  | succ k ih =>
      rw [demand_absent (pteView_zero _) rfl]
      exact (demand_absent (pteView_zero _) (demandTable_congr fun _ _ => ⟨rfl, fun base =>
        (ih base).symm⟩)).symm

end Count

/-! ## The call -/

section Follow

variable {pages : ℕ → Option ℕ} {own own' : Owner} {t t' : Tables} {vaddr pfn virtStart virtEnd : ℕ}
  {top lo mid up k b raw base step pt first : ℕ} {d d' : Demand} {r r' : Ended} {e : Entry}

/-- **The frame rule of the count**: what is asked for below an entry does not depend on tables outside its
block. By induction on the level.
Source: `sys/vmem.hpp` `traverse_page_table`
Kind: P -/
theorem demand_frame (hok : TablesOk pages AnyLeaf own t)
    (heff : Effect pages AnyLeaf own own' t t' top lo up)
    (he : EntryOk own AnyLeaf k b (pteView k raw)) (hout : b + pageRadix.width k ≤ lo ∨ up ≤ b)
    (base : ℕ) :
    demand t'.mem virtStart virtEnd k raw base = demand t.mem virtStart virtEnd k raw base := by
  induction k generalizing b raw base with
  | zero => rfl
  | succ k ih =>
      cases hv : pteView (k + 1) raw with
      | leaf a => rw [demand_leaf hv, demand_leaf hv]
      | absent =>
          rw [demand_absent hv rfl]
          exact (demand_absent hv (demandTable_congr fun _ _ =>
            ⟨rfl, demand_zero t.mem t'.mem virtStart virtEnd k⟩)).symm
      | table pt =>
          rw [hv] at he
          obtain ⟨k', hk', hpt⟩ := he
          cases hk'
          rw [demand_table hv rfl, demand_table hv rfl]
          apply demandTable_congr
          intro i hi
          have hslot : b + (i + 1) * pageRadix.width k ≤ b + pageRadix.width (k + 1) :=
            pageRadix.slot_le hi
          have hpos := pageRadix.width_pos k
          have hsame : t'.mem pt i = t.mem pt i := by
            apply Changes.slot_eq _ heff.owned heff.changes hpt hi
            rw [Nat.succ_mul] at hslot ⊢
            omega
          refine ⟨hsame, fun base => ?_⟩
          rw [hsame]
          refine ih (hok.wf.entry pt k b hpt i hi) ?_ base
          rw [Nat.succ_mul] at hslot
          omega

/-- How a call ends that is to ask for `d`, from the page number `first` on.
Source: none: infrastructure
Kind: D -/
inductive Asks (pages : ℕ → Option ℕ) (first : ℕ) (d : Demand) (r : Ended) : Prop
  /-- It stops at the first page that is not there. -/
  | refused (hlo : first ≤ r.tables.allocated) (hlt : r.tables.allocated < first + d.calls)
      (hnone : pages r.tables.allocated = none) (hstop : r.stop = some .noPage)
  /-- It gets all the pages. -/
  | served (hall : r.tables.allocated = first + d.calls) (hstop : r.stop ≠ some .noPage)
      (hiff : r.stop = none ↔ d.course = .returns) (hcourse : d.course ≠ .leaves)
  /-- It gets the pages that are counted, and goes on in a page that is mapped. -/
  | left (hcourse : d.course = .leaves) (hle : first + d.calls ≤ r.tables.allocated)

/-- The call asks for `d`, and where it returns the tables are a tree that changed inside `[lo, up)` only.
Source: none: infrastructure
Kind: D -/
structure Follows (pages : ℕ → Option ℕ) (own : Owner) (t : Tables) (top lo up : ℕ) (d : Demand)
    (r : Ended) : Prop where
  asks : Asks pages t.allocated d r
  effect : d.course = .returns → r.stop = none →
    ∃ own', Effect pages AnyLeaf own own' t r.tables top lo up

/-- A call that stops where it is. Source: none: infrastructure. Kind: L -/
theorem Follows.of_stop {a : Abort} (ha : a ≠ .noPage) :
    Follows pages own t top lo up ⟨0, .stops⟩ ⟨t, some a⟩ := by
  refine ⟨.served rfl (fun h => ha (Option.some.inj h)) ?_ (by decide), fun _ h => by cases h⟩
  exact ⟨fun h => (by cases h), fun h => (by cases h)⟩

/-- A call that does not get its first page. Source: none: infrastructure. Kind: L -/
theorem Follows.of_noPage (hpage : pages t.allocated = none) (hd : 0 < d.calls) :
    Follows pages own t top lo up d ⟨t, some .noPage⟩ :=
  ⟨.refused le_rfl (Nat.lt_add_of_pos_right hd) hpage rfl, fun _ h => by cases h⟩

/-- A call that takes a mapped page for a table. Source: none: infrastructure. Kind: L -/
theorem Follows.of_leaf (htook : t.allocated ≤ r.tables.allocated) :
    Follows pages own t top lo up ⟨0, .leaves⟩ r :=
  ⟨.left rfl htook, fun h => by cases h⟩

/-- One call after the other. Source: none: infrastructure. Kind: L -/
theorem Follows.andThen (h : Follows pages own t top lo mid d r) (hlo : lo ≤ mid) (hup : mid ≤ up)
    (htook : r.tables.allocated ≤ r'.tables.allocated)
    (hrest : d.course = .returns → ∀ own', Effect pages AnyLeaf own own' t r.tables top lo mid →
      Follows pages own' r.tables top mid up d' r') :
    Follows pages own t top lo up (d.andThen d') (if r.stop = none then r' else r) := by
  unfold Demand.andThen
  rcases h.asks with ⟨hfirst, hlt, hnone, hno⟩ | ⟨hall, hne, hiff, hcourse⟩ | ⟨hcourse, hle⟩
  · have hstop : r.stop ≠ none := by
      rw [hno]
      exact Option.some_ne_none _
    rw [if_neg hstop]
    refine ⟨.refused hfirst ?_ hnone hno, fun _ h => absurd h hstop⟩
    split
    · dsimp only
      omega
    · exact hlt
  · by_cases hreturns : d.course = .returns
    · have hstop := hiff.mpr hreturns
      rw [if_pos hstop, if_pos hreturns]
      obtain ⟨own₁, heff₁⟩ := h.effect hreturns hstop
      obtain ⟨hasks, heffect⟩ := hrest hreturns own₁ heff₁
      rw [hall] at hasks
      refine ⟨?_, fun hreturns' hstop' => ?_⟩
      · rcases hasks with ⟨hfirst, hlt, hnone, hno⟩ | ⟨hall', hne', hiff', hcourse'⟩ | ⟨hcourse', hle'⟩
        · exact .refused (by omega) (by dsimp only; omega) hnone hno
        · exact .served (by dsimp only; omega) hne' hiff' hcourse'
        · exact .left hcourse' (by dsimp only; omega)
      · obtain ⟨own₂, heff₂⟩ := heffect hreturns' hstop'
        exact ⟨own₂, (heff₁.mono le_rfl le_rfl hup).trans (heff₂.mono le_rfl hlo le_rfl)⟩
    · have hstop : r.stop ≠ none := fun hstop => hreturns (hiff.mp hstop)
      rw [if_neg hstop, if_neg hreturns]
      exact ⟨.served hall hne hiff hcourse, fun h => absurd h hreturns⟩
  · have hreturns : d.course ≠ .returns := by
      rw [hcourse]
      decide
    rw [if_neg hreturns]
    refine ⟨.left hcourse ?_, fun h => absurd h hreturns⟩
    split
    · exact hle.trans htook
    · exact hle

/-- First a page, which is there, and then `d`. Source: none: infrastructure. Kind: L -/
theorem Follows.of_install (heff : Effect pages AnyLeaf own own' t t' top lo up)
    (hone : t'.allocated = t.allocated + 1) (h : Follows pages own' t' top lo up d r) :
    Follows pages own t top lo up ⟨1 + d.calls, d.course⟩ r := by
  obtain ⟨hasks, heffect⟩ := h
  rw [hone] at hasks
  refine ⟨?_, fun hreturns hstop => ?_⟩
  · rcases hasks with ⟨hfirst, hlt, hnone, hno⟩ | ⟨hall, hrest⟩ | ⟨hcourse, hle⟩
    · exact .refused (by omega) (by dsimp only; omega) hnone hno
    · exact .served (by dsimp only; omega) ‹_› ‹_› ‹_›
    · exact .left hcourse (by dsimp only; omega)
  · obtain ⟨own₂, heff₂⟩ := heffect hreturns hstop
    exact ⟨own₂, heff.trans heff₂⟩

/-- The promise for the slots of the table `pt` of the block at `b`.
Source: none: infrastructure
Kind: D -/
def SlotFollows (pages : ℕ → Option ℕ) (vaddr pfn virtStart virtEnd k step pt b : ℕ) : Prop :=
  ∀ own t idx base, TablesOk pages AnyLeaf own t → own pt = some (k, b) → idx < 512 → 2 ^ 12 ∣ base →
    Follows pages own t k (b + idx * pageRadix.width k) (b + (idx + 1) * pageRadix.width k)
      (demandSlot (demand t.mem virtStart virtEnd k) virtStart virtEnd k step (t.mem pt) idx base)
      (visitSlotKept (mapCallbacks pages vaddr pfn) virtStart virtEnd k step pt idx base t)

/-- Source: `sys/vmem.hpp` `canonical`. Kind: L -/
theorem dvd_canonical {a : ℕ} (h : 2 ^ 12 ∣ a) : 2 ^ 12 ∣ canonical a := by
  unfold canonical word
  dsimp only
  split <;> omega

/-- Source: none: infrastructure. Kind: L -/
theorem dvd_mod_word {a : ℕ} (h : 2 ^ 12 ∣ a) : 2 ^ 12 ∣ a % word :=
  (Nat.dvd_mod_iff (by decide)).mpr h

/-- **The loop over the slots.** By induction on the number of slots left.
Source: `sys/vmem.hpp` `traverse_page_table`
Kind: P -/
theorem forSlots_follows (hslot : SlotFollows pages vaddr pfn virtStart virtEnd k step pt b)
    (hstep : 2 ^ 12 ∣ step) (n idx base : ℕ) (own : Owner) (t : Tables)
    (hok : TablesOk pages AnyLeaf own t) (hpt : own pt = some (k, b)) (hn : idx + n ≤ 512)
    (hbase : 2 ^ 12 ∣ base) :
    Follows pages own t k (b + idx * pageRadix.width k) (b + (idx + n) * pageRadix.width k)
      (demandSlots (demandSlot (demand t.mem virtStart virtEnd k) virtStart virtEnd k step (t.mem pt))
        step n idx base)
      (forSlotsKept (visitSlotKept (mapCallbacks pages vaddr pfn) virtStart virtEnd k step pt) step n
        idx base t) := by
  induction n generalizing idx base own t with
  | zero =>
      refine ⟨.served rfl (fun h => by cases h) ⟨fun _ => rfl, fun _ => rfl⟩ ?_, fun _ _ => ⟨own, ?_⟩⟩
      · exact fun h => by cases h
      · exact Effect.refl hok
  | succ n ih =>
      rw [demandSlots, forSlotsKept]
      have hcall := hslot own t idx base hok hpt (by omega) hbase
      generalize visitSlotKept (mapCallbacks pages vaddr pfn) virtStart virtEnd k step pt idx base t
        = r at hcall ⊢
      have hlo : b + idx * pageRadix.width k ≤ b + (idx + 1) * pageRadix.width k :=
        Nat.add_le_add_left (Nat.mul_le_mul_right _ (Nat.le_succ idx)) b
      have hup : b + (idx + 1) * pageRadix.width k ≤ b + (idx + (n + 1)) * pageRadix.width k :=
        Nat.add_le_add_left (Nat.mul_le_mul_right _ (by omega)) b
      have htook : Took pages r.tables.allocated (forSlotsKept (visitSlotKept
          (mapCallbacks pages vaddr pfn) virtStart virtEnd k step pt) step n (idx + 1)
          (canonical ((base + step) % word)) r.tables).tables.allocated :=
        forSlotsKept_took (visitSlotKept_took (traverseKept_took k) step pt) ..
      refine hcall.andThen hlo hup htook.1 fun hreturns own₁ heff => ?_
      -- the slots behind this one are as they were
      have hsame : demandSlots (demandSlot (demand t.mem virtStart virtEnd k) virtStart virtEnd k step
            (t.mem pt)) step n (idx + 1) (canonical ((base + step) % word)) =
          demandSlots (demandSlot (demand r.tables.mem virtStart virtEnd k) virtStart virtEnd k step
            (r.tables.mem pt)) step n (idx + 1) (canonical ((base + step) % word)) := by
        apply demandSlots_congr
        intro i base h1 h2
        have hi : i < 512 := by omega
        have hbehind : b + (idx + 1) * pageRadix.width k ≤ b + i * pageRadix.width k :=
          Nat.add_le_add_left (Nat.mul_le_mul_right _ h1) b
        have hentry : r.tables.mem pt i = t.mem pt i := by
          apply Changes.slot_eq _ heff.owned heff.changes hpt hi
          have hpos := pageRadix.width_pos k
          rw [Nat.succ_mul i]
          omega
        unfold demandSlot
        rw [hentry, demand_frame hok heff (hok.wf.entry pt k b hpt i hi) (Or.inr hbehind)]
      rw [hsame]
      have hend : idx + 1 + n = idx + (n + 1) := by omega
      rw [← hend]
      exact ih (idx + 1) _ own₁ r.tables heff.ok (heff.owned pt _ hpt) (by omega)
        (dvd_canonical (dvd_mod_word (dvd_add hbase hstep)))

/-- A slot of a table, if calls one level down are as promised.
Source: `sys/vmem.cpp` `map_memory`
Kind: L -/
theorem slot_follows (hvaddr : 2 ^ 12 ∣ vaddr)
    (hcall : ∀ own t e b base, TablesOk pages AnyLeaf own t → Located own k b e → 2 ^ 12 ∣ base →
      Follows pages own t k b (b + pageRadix.width k)
        (demand t.mem virtStart virtEnd k (t.read e) base)
        (traverseKept (mapCallbacks pages vaddr pfn) virtStart virtEnd k e base t)) :
    SlotFollows pages vaddr pfn virtStart virtEnd k step pt b := by
  intro own t idx base hok hpt hidx hbase
  have hloc : Located own k (b + idx * pageRadix.width k) (.slot pt idx) := ⟨hidx, b, hpt, rfl⟩
  have hend : b + (idx + 1) * pageRadix.width k = b + idx * pageRadix.width k + pageRadix.width k := by
    rw [Nat.succ_mul, Nat.add_assoc]
  rw [hend]
  unfold demandSlot visitSlotKept
  by_cases hwhole : k < numPageSizes ∧ virtStart ≤ base ∧ virtEnd ≥ (base + step) % word
  · rw [if_pos hwhole, if_pos hwhole, foundKept_cases]
    have hread : t.read (.slot pt idx) = t.mem pt idx := rfl
    rw [hread]
    by_cases hpres : Pte.present (t.mem pt idx) = true
    · rw [if_pos hpres, if_pos hpres]
      exact Follows.of_stop (by decide)
    · rw [if_neg hpres, if_neg hpres]
      have hphys : 2 ^ 12 ∣ (pfnToAddr pfn + wsub base vaddr) % word := by
        have hpfn := dvd_pfnToAddr pfn
        apply dvd_mod_word
        unfold wsub word
        omega
      refine ⟨.served (write_allocated ..) (fun h => by cases h) ⟨fun _ => rfl, fun _ => rfl⟩
        (fun h => by cases h), fun _ _ => ⟨own, Effect.write hok hloc ?_⟩⟩
      rw [pteView_set hwhole.1 hphys]
      trivial
  · rw [if_neg hwhole, if_neg hwhole]
    exact hcall own t (.slot pt idx) _ base hok hloc hbase

/-- Source: `sys/vmem.hpp` `traverse_page_table`. Kind: L -/
theorem dvd_step (k : ℕ) : 2 ^ 12 ∣ (1 <<< (12 + k * 9)) % word := by
  apply dvd_mod_word
  rw [Nat.one_shiftLeft]
  exact Nat.pow_dvd_pow 2 (Nat.le_add_right 12 _)

/-- Once an entry is entered: the slots of its table.
Source: `sys/vmem.hpp` `traverse_page_table`
Kind: L -/
theorem table_follows
    (hslot : SlotFollows pages vaddr pfn virtStart virtEnd k ((1 <<< (12 + k * 9)) % word) pt b)
    (hok : TablesOk pages AnyLeaf own t) (hpt : own pt = some (k, b)) {t₀ : Tables}
    (henter : enter (mapCallbacks pages vaddr pfn) e t₀ = .ok (true, t))
    (hview : pteView (k + 1) (t.read e) = .table pt) (hbase : 2 ^ 12 ∣ base)
    (hd : demandTable (demand t.mem virtStart virtEnd k) virtStart virtEnd k base (t.mem pt) = d) :
    Follows pages own t (k + 1) b (b + pageRadix.width (k + 1)) d
      (traverseKept (mapCallbacks pages vaddr pfn) virtStart virtEnd (k + 1) e base t₀) := by
  rw [traverseKept_enter henter rfl rfl rfl, pteView_table hview]
  rw [← hd]
  unfold demandTable
  have hstep := dvd_step k
  dsimp only
  generalize (1 <<< (12 + k * 9)) % word = step at hslot hstep ⊢
  have hi := ptIndex_lt (max virtStart base) k
  have hj := ptIndex_lt (min (wsub virtEnd 1) (canonical (wsub ((base + step * 512) % word) 1))) k
  generalize ptIndex (max virtStart base) k = i at hi ⊢
  generalize ptIndex (min (wsub virtEnd 1) (canonical (wsub ((base + step * 512) % word) 1))) k = j
    at hj ⊢
  have hfirst : 2 ^ 12 ∣ (base + canonical (i * step % word)) % word :=
    dvd_mod_word (dvd_add hbase (dvd_canonical (dvd_mod_word (Dvd.dvd.mul_left hstep i))))
  have hdescend : Effect pages AnyLeaf own own t
      { t with descents := (k + 1, t.read e) :: t.descents } (k + 1) b (b + pageRadix.width (k + 1)) :=
    Effect.descend hok hview
  have hmem : { t with descents := (k + 1, t.read e) :: t.descents }.mem = t.mem := rfl
  have hallocated : { t with descents := (k + 1, t.read e) :: t.descents }.allocated = t.allocated := rfl
  generalize { t with descents := (k + 1, t.read e) :: t.descents } = t' at hdescend hmem hallocated ⊢
  rw [← hmem]
  obtain ⟨hasks, heffect⟩ := forSlots_follows hslot hstep (j + 1 - i) i _ own t' hdescend.ok hpt
    (by omega) hfirst
  rw [hallocated] at hasks
  refine ⟨hasks, fun hreturns hstop => ?_⟩
  obtain ⟨own', heff⟩ := heffect hreturns hstop
  have hin : b + (i + (j + 1 - i)) * pageRadix.width k ≤ b + pageRadix.width (k + 1) := by
    rw [pageRadix.width_succ]
    exact Nat.add_le_add_left (Nat.mul_le_mul_right _ (show i + (j + 1 - i) ≤ 512 by omega)) b
  exact ⟨own', hdescend.trans (heff.mono (Nat.le_succ k) (Nat.le_add_right b _) hin)⟩

/-- A call at level 0 that gets a page asks for another one, for the first slot of 8 bytes, and stops.
Source: `sys/vmem.hpp` `traverse_page_table`
Kind: L -/
theorem bottom_follows {page : ℕ} (hpages : FreshPages pages) (hok : TablesOk pages AnyLeaf own t)
    (hloc : Located own 0 b e) (hpage : pages t.allocated = some page)
    (henter : enter (mapCallbacks pages vaddr pfn) e t = .ok (true, t.install page e))
    (hstart : 2 ^ 12 ∣ virtStart) (hbase : 2 ^ 12 ∣ base) :
    Follows pages own t 0 b (b + pageRadix.width 0) ⟨2, .stops⟩
      (traverseKept (mapCallbacks pages vaddr pfn) virtStart virtEnd 0 e base t) := by
  have hfirst : ptIndexWrapped (max virtStart base) = 0 := by
    rw [ptIndexWrapped_eq]
    omega
  have hview : pteView (0 + 1) ((t.install page e).read e) = .table (pfnToAddr page) :=
    install_read hpages hpage
  have hpt : Pte.addr ((t.install page e).read e) false = pfnToAddr page := pteView_table hview
  have hclear : (t.install page e).mem (pfnToAddr page) 0 = 0 := install_mem hok hloc hpage
  rw [traverseBottomKept_enter henter hfirst rfl, hpt, Nat.sub_zero, forSlotsKept]
  generalize hdescend : ({ t.install page e with
    descents := (0, (t.install page e).read e) :: (t.install page e).descents } : Tables) = t'
  have hallocated : t'.allocated = t.allocated + 1 := by
    rw [← hdescend]
    exact install_allocated t page e
  have habsent : Pte.present (t'.read (.slot (pfnToAddr page) 0)) = false := by
    rw [← hdescend]
    exact congrArg Pte.present hclear
  unfold traverseWrappedKept
  rcases enter_cases pages vaddr pfn (.slot (pfnToAddr page) 0) t' with
    ⟨hpres, -⟩ | ⟨-, ⟨hnone, h⟩ | ⟨page', -, h⟩⟩
  · rw [habsent] at hpres
    exact absurd hpres Bool.false_ne_true
  · rw [h]
    refine ⟨.refused ?_ ?_ hnone rfl, fun hreturns => by cases hreturns⟩
    · show t.allocated ≤ t'.allocated
      omega
    · show t'.allocated < t.allocated + 2
      omega
  · rw [h]
    refine ⟨.served ?_ (fun hstop => by cases hstop) ?_ (fun hcourse => by cases hcourse),
      fun hreturns => by cases hreturns⟩
    · show (t'.install page' (.slot (pfnToAddr page) 0)).allocated = t.allocated + 2
      rw [install_allocated, hallocated]
    · exact ⟨fun hstop => (by cases hstop), fun hreturns => (by cases hreturns)⟩

/-- **A call asks for what is counted.** On tables that are a tree, and with pages that are no part of it, a
call asks for the counted pages and stops at the first that is not there. By induction on the level.
Source: `sys/vmem.cpp` `map_memory`
Kind: P -/
theorem traverse_follows (hpages : FreshPages pages) (hvaddr : 2 ^ 12 ∣ vaddr) (k : ℕ) (own : Owner)
    (t : Tables) (e : Entry) (b base : ℕ) (hok : TablesOk pages AnyLeaf own t) (hloc : Located own k b e)
    (hstart : 2 ^ 12 ∣ virtStart) (hbase : 2 ^ 12 ∣ base) :
    Follows pages own t k b (b + pageRadix.width k) (demand t.mem virtStart virtEnd k (t.read e) base)
      (traverseKept (mapCallbacks pages vaddr pfn) virtStart virtEnd k e base t) := by
  induction k generalizing own t e b base with
  | zero =>
      rcases enter_cases pages vaddr pfn e t with ⟨hpres, -⟩ | ⟨habsent, ⟨hnone, h⟩ | ⟨page, hpage, h⟩⟩
      · rw [demand, if_pos hpres]
        exact Follows.of_leaf (traverseKept_took 0 e base t).1
      · rw [traverseKept_error 0 h]
        refine Follows.of_noPage hnone ?_
        rw [demand, habsent]
        decide
      · rw [demand, habsent]
        exact bottom_follows hpages hok hloc hpage h hstart hbase
  | succ k ih =>
      rcases enter_cases pages vaddr pfn e t with ⟨hpres, h⟩ | ⟨habsent, ⟨hnone, h⟩ | ⟨page, hpage, h⟩⟩
      · cases hv : pteView (k + 1) (t.read e) with
        | absent => exact absurd (pteView_absent.mp hv) (by rw [hpres]; decide)
        | leaf a =>
            rw [demand_leaf hv]
            exact Follows.of_leaf (traverseKept_took (k + 1) e base t).1
        | table pt =>
            have hfit := hok.located hloc
            rw [hv] at hfit
            obtain ⟨k', hk', hpt⟩ := hfit
            cases hk'
            obtain ⟨d, hd⟩ : ∃ d, demandTable (demand t.mem virtStart virtEnd k) virtStart virtEnd k base
              (t.mem pt) = d := ⟨_, rfl⟩
            rw [demand_table hv hd]
            exact table_follows (slot_follows hvaddr ih) hok hpt h hv hbase hd
      · rw [traverseKept_error (k + 1) h, demand_absent (pteView_absent.mpr habsent) rfl]
        exact Follows.of_noPage hnone (Nat.lt_add_right _ Nat.one_pos)
      · -- the new table is clear, as the count has it
        obtain ⟨d, hd⟩ : ∃ d, demandTable (demand t.mem virtStart virtEnd k) virtStart virtEnd k base
          (fun _ => 0) = d := ⟨_, rfl⟩
        rw [demand_absent (pteView_absent.mpr habsent) hd]
        have hinstall := Effect.install hpages hok hloc hpage
        have hown : Function.update own (pfnToAddr page) (some (k, b)) (pfnToAddr page) = some (k, b) :=
          Function.update_self _ _ _
        have hslots : demandTable (demand (t.install page e).mem virtStart virtEnd k) virtStart virtEnd
            k base ((t.install page e).mem (pfnToAddr page)) = d := by
          rw [← hd]
          apply demandTable_congr
          intro i hi
          rw [install_mem hok hloc hpage]
          exact ⟨rfl, fun base => demand_zero _ _ _ _ k base⟩
        exact Follows.of_install hinstall (install_allocated t page e) (table_follows
          (slot_follows hvaddr ih) hinstall.ok hown h (install_read hpages hpage) hbase hslots)

end Follow

end EbbRT
