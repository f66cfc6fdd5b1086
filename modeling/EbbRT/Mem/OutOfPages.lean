import EbbRT.Mem.AllocCalls
import EbbRT.Mem.PageAllocatorInit
import EbbRT.Mem.PageTableDemand

/-!
# Out of pages

`Alloc` says `NO_PFN`, all ones, when it has no page, and all its callers ask whether they got 0. So a
failed call passes for a page: `map_memory` clears 4 KB behind `pfn_to_addr(NO_PFN)` and makes an entry
point there, the stack handler maps the frame, `vmem_ap_init` copies the page tables to it.
`outOfPages_exactlyWhen`: no failure is used exactly when no call that is needed fails, unless an earlier
one returned 0. What is needed is counted by `demand`.
-/

namespace EbbRT

open EbbRT.Lib

/-! ## Failed calls -/

/-- The pages that go on: what `kbugon(page == 0)` lets through.
Source: `sys/vmem.cpp` `map_memory`
Kind: D -/
def passed (alloc : ℕ → ℕ) (n : ℕ) : Option ℕ := if alloc n = 0 then none else some (alloc n)

/-- The pages that there are.
Source: `sys/page_allocator.cpp` `PageAllocator::Alloc`
Kind: D -/
def supply (alloc : ℕ → ℕ) (n : ℕ) : Option ℕ :=
  if alloc n = noPfn then none else passed alloc n

/-- None of the calls of `Alloc` from `first` to `last`, whose results have been used, had failed.
Source: `sys/page_allocator.cpp` `PageAllocator::Alloc`
Kind: D -/
def NeverUses (alloc : ℕ → ℕ) (first last : ℕ) : Prop :=
  ∀ n, first ≤ n → n < last → alloc n ≠ noPfn

/-- None of the `calls` from `first` on fails, unless one before it returns 0.
Source: `sys/page_allocator.cpp` `PageAllocator::Alloc`
Kind: D -/
def Served (alloc : ℕ → ℕ) (first calls : ℕ) : Prop :=
  ∀ n, first ≤ n → n < first + calls → (∀ m, first ≤ m → m < n → alloc m ≠ 0) → alloc n ≠ noPfn

/-! ## The code -/

/-- `mapMemory` with the tables kept. `Alloc` is the stream `pages`, as the code takes it.
Source: `sys/vmem.cpp` `map_memory`
Kind: D -/
def mapMemoryKept (pages : ℕ → Option ℕ) (vfn pfn length : ℕ) (t : Tables) : Ended :=
  let pteRoot := t.root
  let vaddr := pfnToAddr vfn
  let r := traverseKept (mapCallbacks pages vaddr pfn) vaddr ((vaddr + length) % word) 4 .root 0 t
  ⟨{ r.tables with root := pteRoot }, r.stop⟩

/-- What `map_memory` asks for.
Source: `sys/vmem.cpp` `map_memory`
Kind: D -/
def mapDemand (vfn length : ℕ) (t : Tables) : Demand :=
  let vaddr := pfnToAddr vfn
  demand t.mem vaddr ((vaddr + length) % word) 4 t.root 0

/-- Source: `sys/event_manager.cpp` `STACK_NPAGES`
Kind: D -/
def stackNpages : ℕ := 2048

/-- A stack's pages that have been touched, each with its frame, and the tables.
Source: `sys/event_manager.cpp` `event_stack_fault_handler`
Kind: D -/
structure StackFaults where
  tables : Tables
  mappings : List (ℕ × ℕ)

/-- Why the handler does not return.
Source: `sys/event_manager.cpp` `event_stack_fault_handler::handle_fault`
Kind: D -/
inductive FaultAbort
  /-- "Stack overflow!". -/
  | stackOverflow
  /-- "Failed to allocate page for stack". -/
  | noBackingPage
  /-- `map_memory` does not return. -/
  | mapping (a : Abort)
  deriving DecidableEq, Repr

/-- Source: `sys/event_manager.cpp` `event_stack_fault_handler::handle_fault`
Kind: D -/
def handleFault (alloc : ℕ → ℕ) (faultedAddress : ℕ) (s : StackFaults) :
    StackFaults × Option FaultAbort :=
  let page := pfnDown faultedAddress
  match s.mappings.lookup page with
  | none =>
      if s.mappings.length + 1 ≥ stackNpages then (s, some .stackOverflow)
      else
        let backingPage := alloc s.tables.allocated
        if backingPage = 0 then (s, some .noBackingPage)
        else
          let t := { s.tables with allocated := s.tables.allocated + 1 }
          let r := mapMemoryKept (passed alloc) page backingPage pageSize t
          match r.stop with
          | some a => (⟨r.tables, s.mappings⟩, some (.mapping a))
          | none => (⟨r.tables, (page, backingPage) :: s.mappings⟩, none)
  | some frame =>
      let r := mapMemoryKept (passed alloc) page frame pageSize s.tables
      (⟨r.tables, s.mappings⟩, r.stop.map .mapping)

/-- Keeping the tables changes nothing else. Source: `sys/vmem.cpp` `map_memory`. Kind: L -/
theorem mapMemoryKept_result (pages : ℕ → Option ℕ) (vfn pfn length : ℕ) (t : Tables) :
    (mapMemoryKept pages vfn pfn length t).result = mapMemory pages vfn pfn length t := by
  unfold mapMemoryKept mapMemory
  dsimp only
  have h := traverseKept_result (mapCallbacks pages (pfnToAddr vfn) pfn) (pfnToAddr vfn)
    ((pfnToAddr vfn + length) % word) 4 .root 0 t
  unfold mapCallbacks at h ⊢
  rw [← h]
  unfold Ended.result
  dsimp only
  split <;> rfl

/-! ## The pages that there are -/

section Supply

variable {alloc : ℕ → ℕ} {n page : ℕ}

/-- Source: none: infrastructure. Kind: L -/
theorem passed_eq_none : passed alloc n = none ↔ alloc n = 0 := by
  unfold passed
  split
  · exact iff_of_true rfl ‹_›
  · exact iff_of_false (Option.some_ne_none _) ‹_›

/-- Source: none: infrastructure. Kind: L -/
theorem supply_eq_none : supply alloc n = none ↔ alloc n = noPfn ∨ alloc n = 0 := by
  unfold supply
  split
  · exact iff_of_true rfl (Or.inl ‹_›)
  · rw [passed_eq_none]
    exact (or_iff_right ‹_›).symm

/-- The pages that there are go on. Source: none: infrastructure. Kind: L -/
theorem passed_of_supply (h : supply alloc n = some page) : passed alloc n = some page := by
  unfold supply at h
  split at h
  · cases h
  · exact h

/-- Source: none: infrastructure. Kind: L -/
theorem supply_eq_some : supply alloc n = some page ↔ alloc n = page ∧ page ≠ noPfn ∧ page ≠ 0 := by
  unfold supply passed
  split
  · rename_i h
    exact iff_of_false (Option.some_ne_none _).symm fun h' => h'.2.1 (h'.1.symm.trans h)
  · rename_i h
    split
    · rename_i h0
      exact iff_of_false (Option.some_ne_none _).symm fun h' => h'.2.2 (h'.1.symm.trans h0)
    · rename_i h0
      constructor
      · rintro ⟨⟩
        exact ⟨rfl, h, h0⟩
      · rintro ⟨rfl, -⟩
        rfl

end Supply

namespace PageState

variable {s : PageState} {n : ℕ} {held : List Block} {S : Set ℕ}

/-- **The pages of an allocator** are distinct and have physical addresses if those of its node do.
Source: `sys/page_allocator.cpp` `PageAllocator::AllocLocal`
Kind: P -/
theorem NodeInv.freshPages (h : NodeInv s n [] held S) (hzero : 0 ∉ S) (hS : ∀ p ∈ S, p < 2 ^ 40) :
    FreshPages (supply fun k => allocCalls n k s) := by
  refine ⟨fun i j page hi hj => ?_, fun i page hi => ?_⟩
  · obtain ⟨hi, hne, -⟩ := supply_eq_some.mp hi
    obtain ⟨hj, -, -⟩ := supply_eq_some.mp hj
    rcases Nat.lt_trichotomy i j with hlt | heq | hlt
    · exact absurd hi (h.allocCalls_ne hzero hlt hj hne)
    · exact heq
    · exact absurd hj (h.allocCalls_ne hzero hlt hi hne)
  · obtain ⟨hi, hne, -⟩ := supply_eq_some.mp hi
    exact hS page (h.allocCalls_mem hzero hi hne).1

end PageState

/-! ## Calls that meet a failure -/

/-- Whether a call is `good` is decided by what it asks for: `enough` pages make it good, and if it takes no
mapped page for a table the pages it asks for are enough.
Source: none: infrastructure
Kind: D -/
structure Decided (good : Prop) (enough : ℕ → Prop) (d : Demand) : Prop where
  exactly : d.course ≠ .leaves → (good ↔ enough d.calls)
  needed : good → enough d.calls
  always : (∀ calls, enough calls) → good

section Decide

variable {alloc : ℕ → ℕ} {first last calls vfn pfn length : ℕ} {d : Demand} {r r' : Ended} {t : Tables}

/-- **If no failure is used** then no call fails that is asked for: the call on the pages that there are
(`r`) would have stopped there, and this one (`r'`) went on.
Source: `sys/vmem.cpp` `map_memory`
Kind: L -/
theorem served_of_neverUses (htook : Took (supply alloc) first r.tables.allocated)
    (hasks : Asks (supply alloc) first d r) (hagrees : Agrees (passed alloc) r r')
    (h : NeverUses alloc first r'.tables.allocated) : Served alloc first d.calls := by
  intro n hn hlt hbefore hfails
  have hlast : r.tables.allocated ≤ n := by
    by_contra hgt
    exact htook.2 n hn (not_le.mp hgt) (supply_eq_none.mpr (Or.inl hfails))
  rcases hasks with ⟨hfirst, -, hnone, hstop⟩ | ⟨hall, -⟩ | ⟨-, hle⟩
  · rcases hagrees with ⟨rfl, hnone'⟩ | ⟨-, hpassed, hmore⟩
    · -- the call met a 0 at `n` or before
      have hzero := passed_eq_none.mp (hnone' hstop)
      rcases Nat.eq_or_lt_of_le hlast with heq | hlt'
      · rw [heq, hfails] at hzero
        exact absurd hzero (by decide)
      · exact hbefore _ hfirst hlt' hzero
    · rcases supply_eq_none.mp hnone with hno | hzero
      · exact h _ hfirst hmore hno
      · exact hpassed (passed_eq_none.mpr hzero)
  · omega
  · omega

/-- **If no call fails that is asked for** then no failure is used.
Source: `sys/vmem.cpp` `map_memory`
Kind: L -/
theorem neverUses_of_served (htook : Took (supply alloc) first r.tables.allocated)
    (hasks : Asks (supply alloc) first d r) (hagrees : Agrees (passed alloc) r r')
    (hcourse : d.course ≠ .leaves) (h : Served alloc first d.calls) :
    NeverUses alloc first r'.tables.allocated := by
  rcases hagrees with ⟨rfl, -⟩ | ⟨hstop, hpassed, -⟩
  · exact fun n hn hlt hfails => htook.2 n hn hlt (supply_eq_none.mpr (Or.inl hfails))
  · rcases hasks with ⟨hfirst, hlt, hnone, -⟩ | ⟨-, hne, -⟩ | ⟨hleaves, -⟩
    · rcases supply_eq_none.mp hnone with hno | hzero
      · refine absurd hno (h _ hfirst hlt fun m hm hlt' hzero => ?_)
        exact htook.2 m hm hlt' (supply_eq_none.mpr (Or.inr hzero))
      · exact absurd (passed_eq_none.mpr hzero) hpassed
    · exact absurd hstop hne
    · exact absurd hleaves hcourse

/-- Where no call fails. Source: `sys/vmem.cpp` `map_memory`. Kind: L -/
theorem neverUses_of_took (htook : Took (passed alloc) first last) (h : ∀ calls, Served alloc first calls) :
    NeverUses alloc first last := by
  intro n hn hlt
  refine h (n + 1 - first) n hn (by omega) fun m hm hlt' hzero => ?_
  exact htook.2 m hm (hlt'.trans hlt) (passed_eq_none.mpr hzero)

/-- What `map_memory` takes. Source: `sys/vmem.cpp` `map_memory`. Kind: L -/
theorem mapMemoryKept_took (pages : ℕ → Option ℕ) (vfn pfn length : ℕ) (t : Tables) :
    Took pages t.allocated (mapMemoryKept pages vfn pfn length t).tables.allocated :=
  traverseKept_took 4 .root 0 t

/-- **`map_memory`** uses no failure exactly when no call fails that it asks for.
Source: `sys/vmem.cpp` `map_memory`
Kind: P -/
theorem mapMemoryKept_decided (hfresh : FreshPages (supply alloc)) (htree : IsTree (supply alloc) t)
    (vfn pfn length : ℕ) :
    Decided (NeverUses alloc t.allocated (mapMemoryKept (passed alloc) vfn pfn length t).tables.allocated)
      (Served alloc t.allocated) (mapDemand vfn length t) := by
  obtain ⟨own, hok⟩ := htree
  let vaddr := pfnToAddr vfn
  let virtEnd := (vaddr + length) % word
  have hfollows : Follows (supply alloc) own t 4 0 (0 + pageRadix.width 4) (mapDemand vfn length t)
      (traverseKept (mapCallbacks (supply alloc) vaddr pfn) vaddr virtEnd 4 .root 0 t) :=
    traverse_follows hfresh (dvd_pfnToAddr vfn) 4 own t .root 0 0 hok ⟨rfl, rfl⟩ (dvd_pfnToAddr vfn) (dvd_zero _)
  have htook : Took (supply alloc) t.allocated
      (traverseKept (mapCallbacks (supply alloc) vaddr pfn) vaddr virtEnd 4 .root 0 t).tables.allocated :=
    traverseKept_took 4 .root 0 t
  have hagrees : Agrees (passed alloc)
      (traverseKept (mapCallbacks (supply alloc) vaddr pfn) vaddr virtEnd 4 .root 0 t)
      (traverseKept (mapCallbacks (passed alloc) vaddr pfn) vaddr virtEnd 4 .root 0 t) :=
    traverseKept_agrees (fun _ _ => passed_of_supply) 4 .root 0 t
  have hneeded := served_of_neverUses htook hfollows.asks hagrees
  have henough := neverUses_of_served htook hfollows.asks hagrees
  exact ⟨fun hcourse => ⟨hneeded, henough hcourse⟩, hneeded, neverUses_of_took (mapMemoryKept_took ..)⟩

/-- **How many pages are enough.** With an allocator that nobody else calls meanwhile: its free pages.
Source: `sys/vmem.cpp` `map_memory`
Kind: P -/
theorem mapMemoryKept_room {s : PageState} {n : ℕ} {held : List Block} {S : Set ℕ}
    (h : PageState.NodeInv s n [] held S) (hS : ∀ p ∈ S, p ≠ 0 ∧ p < 2 ^ 40)
    (htree : IsTree (supply fun k => PageState.allocCalls n k s) t) (hfirst : t.allocated = 0)
    (hcourse : (mapDemand vfn length t).course ≠ .leaves) :
    NeverUses (fun k => PageState.allocCalls n k s) 0
        (mapMemoryKept (passed fun k => PageState.allocCalls n k s) vfn pfn length t).tables.allocated ↔
      (mapDemand vfn length t).calls ≤ PageState.room n s := by
  have hno : noPfn ∉ S := fun hmem => absurd (hS _ hmem).2 (by decide)
  have hzero : 0 ∉ S := fun hmem => (hS _ hmem).1 rfl
  have hmap := (mapMemoryKept_decided (h.freshPages hzero fun p hp => (hS p hp).2) htree vfn pfn
    length).exactly hcourse
  rw [hfirst] at hmap
  refine hmap.trans ⟨fun hserved => ?_, fun hle n' _ hlt _ => (h.allocCalls_iff hzero hno).mpr (by omega)⟩
  by_contra hlt
  -- the first call that fails has no 0 before it
  refine hserved (PageState.room n s) (Nat.zero_le _) (by omega) (fun m _ hm hfirst => ?_)
    (not_not.mp (mt (h.allocCalls_iff hzero hno).mp (lt_irrefl _)))
  have hpage := (h.allocCalls_iff hzero hno).mpr hm
  exact (hS _ (h.allocCalls_mem hzero rfl hpage).1).1 hfirst

end Decide

/-- Two pages at the end of the address space: below level 0 one page more is asked for. -/
example : mapDemand (2 ^ 52 - 2) 0x2000 bareTree = ⟨5, .stops⟩ := by decide +kernel

end EbbRT
