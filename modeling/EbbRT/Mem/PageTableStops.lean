import EbbRT.Mem.MapMemory

/-!
# Calls that stop halfway

`traverseKept` is `traversePageTable` with the tables kept where a call stops (`traverseKept_result`), so
that what `map_memory` has written by then can be talked about. `traverseKept_took` says that every page
that became a table was one of the stream, and `traverseKept_agrees` how two calls compare that differ in
the pages that `Alloc` has for them.
-/

namespace EbbRT

open EbbRT.Lib EbbRT.Lib.Radix

/-! ## Calls that stop halfway -/

/-- The tables that a call leaves behind, and why it stopped if it did not return.
Source: `sys/vmem.hpp` `traverse_page_table`
Kind: D -/
structure Ended where
  tables : Tables
  stop : Option Abort

/-- What the caller gets. Source: none: infrastructure. Kind: D -/
def Ended.result (r : Ended) : Except Abort Tables :=
  match r.stop with
  | none => .ok r.tables
  | some a => .error a

/-- `found` checks before it writes. Source: `sys/vmem.cpp` `map_memory`
Kind: D -/
def foundKept (c : Callbacks) (entry : Entry) (baseVirt level : ℕ) (t : Tables) : Ended :=
  match c.found entry baseVirt level t with
  | .error a => ⟨t, some a⟩
  | .ok t => ⟨t, none⟩

/-- `forSlots` with the tables kept.
Source: `sys/vmem.hpp` `traverse_page_table`
Kind: D -/
def forSlotsKept (slot : ℕ → ℕ → Tables → Ended) (step : ℕ) : ℕ → ℕ → ℕ → Tables → Ended
  | 0, _, _, t => ⟨t, none⟩
  | n + 1, idx, baseVirt, t =>
      let r := slot idx baseVirt t
      if r.stop = none then
        forSlotsKept slot step n (idx + 1) (canonical ((baseVirt + step) % word)) r.tables
      else r

/-- `traverseWrapped` with the tables kept.
Source: `sys/vmem.hpp` `traverse_page_table`
Kind: D -/
def traverseWrappedKept (c : Callbacks) (entry : Entry) (t : Tables) : Ended :=
  match enter c entry t with
  | .error a => ⟨t, some a⟩
  | .ok (goOn, t) => ⟨t, if goOn then some .undefined else none⟩

/-- `traverseBottom` with the tables kept.
Source: `sys/vmem.hpp` `traverse_page_table`
Kind: D -/
def traverseBottomKept (c : Callbacks) (virtStart virtEnd : ℕ) (entry : Entry) (baseVirt : ℕ) (t : Tables) :
    Ended :=
  match enter c entry t with
  | .error a => ⟨t, some a⟩
  | .ok (goOn, t) =>
      if !goOn then ⟨t, none⟩
      else
        let raw := t.read entry
        let pt := Pte.addr raw false
        let t := { t with descents := (0, raw) :: t.descents }
        let step := (1 <<< wrappedShift) % word
        let idxBegin := ptIndexWrapped (max virtStart baseVirt)
        let baseVirtEnd := canonical (wsub ((baseVirt + step * 512) % word) 1)
        let idxEnd := ptIndexWrapped (min (wsub virtEnd 1) baseVirtEnd)
        let baseVirt := (baseVirt + canonical (idxBegin * step % word)) % word
        forSlotsKept (fun idx _ t => traverseWrappedKept c (.slot pt idx) t) step (idxEnd + 1 - idxBegin)
          idxBegin baseVirt t

/-- `traversePageTable` with the tables kept; `empty` checks before it writes, too.
Source: `sys/vmem.hpp` `traverse_page_table`
Kind: D -/
def traverseKept (c : Callbacks) (virtStart virtEnd : ℕ) : ℕ → Entry → ℕ → Tables → Ended
  | 0, entry, baseVirt, t => traverseBottomKept c virtStart virtEnd entry baseVirt t
  | level + 1, entry, baseVirt, t =>
      match enter c entry t with
      | .error a => ⟨t, some a⟩
      | .ok (goOn, t) =>
          if !goOn then ⟨t, none⟩
          else
            let raw := t.read entry
            let pt := Pte.addr raw false
            let t := { t with descents := (level + 1, raw) :: t.descents }
            let step := (1 <<< (12 + level * 9)) % word
            let idxBegin := ptIndex (max virtStart baseVirt) level
            let baseVirtEnd := canonical (wsub ((baseVirt + step * 512) % word) 1)
            let idxEnd := ptIndex (min (wsub virtEnd 1) baseVirtEnd) level
            let baseVirt := (baseVirt + canonical (idxBegin * step % word)) % word
            forSlotsKept
              (fun idx baseVirt t =>
                if level < numPageSizes ∧ virtStart ≤ baseVirt ∧
                    virtEnd ≥ (baseVirt + step) % word then
                  foundKept c (.slot pt idx) baseVirt level t
                else
                  traverseKept c virtStart virtEnd level (.slot pt idx) baseVirt t)
              step (idxEnd + 1 - idxBegin) idxBegin baseVirt t

/-- The body of the loop.
Source: `sys/vmem.hpp` `traverse_page_table`
Kind: D -/
def visitSlotKept (c : Callbacks) (virtStart virtEnd level step pt idx baseVirt : ℕ) (t : Tables) :
    Ended :=
  if level < numPageSizes ∧ virtStart ≤ baseVirt ∧ virtEnd ≥ (baseVirt + step) % word then
    foundKept c (.slot pt idx) baseVirt level t
  else traverseKept c virtStart virtEnd level (.slot pt idx) baseVirt t

section Kept

variable {c : Callbacks} {virtStart virtEnd k base step i j : ℕ} {e : Entry} {t t1 : Tables}

/-- The traversal once the entry is entered. Source: `sys/vmem.hpp` `traverse_page_table`. Kind: L -/
theorem traverseKept_enter (h : enter c e t = .ok (true, t1))
    (hstep : (1 <<< (12 + k * 9)) % word = step) (hi : ptIndex (max virtStart base) k = i)
    (hj : ptIndex (min (wsub virtEnd 1) (canonical (wsub ((base + step * 512) % word) 1))) k = j) :
    traverseKept c virtStart virtEnd (k + 1) e base t =
      forSlotsKept (visitSlotKept c virtStart virtEnd k step (Pte.addr (t1.read e) false)) step
        (j + 1 - i) i ((base + canonical (i * step % word)) % word)
        { t1 with descents := (k + 1, t1.read e) :: t1.descents } := by
  rw [traverseKept, h]
  dsimp only
  rw [if_neg (show ¬ (!true) = true by decide), hstep, hj, hi]
  unfold visitSlotKept
  rfl

/-- A call at level 0 once the entry is entered. Source: `sys/vmem.hpp` `traverse_page_table`. Kind: L -/
theorem traverseBottomKept_enter (h : enter c e t = .ok (true, t1))
    (hi : ptIndexWrapped (max virtStart base) = i)
    (hj : ptIndexWrapped (min (wsub virtEnd 1) (canonical (wsub ((base + 2 ^ 12) % word) 1))) = j) :
    traverseKept c virtStart virtEnd 0 e base t =
      forSlotsKept (fun idx _ t => traverseWrappedKept c (.slot (Pte.addr (t1.read e) false) idx) t) 8
        (j + 1 - i) i ((base + canonical (i * 8 % word)) % word)
        { t1 with descents := (0, t1.read e) :: t1.descents } := by
  rw [traverseKept, traverseBottomKept, h]
  dsimp only
  rw [if_neg (show ¬ (!true) = true by decide), show (1 <<< wrappedShift) % word = 8 from rfl,
    show 8 * 512 = 2 ^ 12 from rfl, hj, hi]

/-- An entry that cannot be entered. Source: `sys/vmem.hpp` `traverse_page_table`. Kind: L -/
theorem traverseKept_error {a : Abort} (level : ℕ) (h : enter c e t = .error a) :
    traverseKept c virtStart virtEnd level e base t = ⟨t, some a⟩ := by
  cases level with
  | zero => rw [traverseKept, traverseBottomKept, h]
  | succ level => rw [traverseKept, h]

/-- `empty` says not to go on. Source: `sys/vmem.hpp` `traverse_page_table`. Kind: L -/
theorem traverseKept_return (level : ℕ) (h : enter c e t = .ok (false, t1)) :
    traverseKept c virtStart virtEnd level e base t = ⟨t1, none⟩ := by
  cases level with
  | zero =>
      rw [traverseKept, traverseBottomKept, h]
      rfl
  | succ level =>
      rw [traverseKept, h]
      rfl

/-- Source: `sys/vmem.hpp` `traverse_page_table`. Kind: L -/
theorem foundKept_result (c : Callbacks) (entry : Entry) (baseVirt level : ℕ) (t : Tables) :
    (foundKept c entry baseVirt level t).result = c.found entry baseVirt level t := by
  unfold foundKept
  cases c.found entry baseVirt level t <;> rfl

/-- The loop, if its body is the body with the tables kept.
Source: `sys/vmem.hpp` `traverse_page_table`
Kind: L -/
theorem forSlotsKept_result {slotKept : ℕ → ℕ → Tables → Ended}
    {slot : ℕ → ℕ → Tables → Except Abort Tables}
    (h : ∀ idx base t, (slotKept idx base t).result = slot idx base t)
    (step n idx base : ℕ) (t : Tables) :
    (forSlotsKept slotKept step n idx base t).result = forSlots slot step n idx base t := by
  induction n generalizing idx base t with
  | zero => rfl
  | succ n ih =>
      unfold forSlotsKept forSlots
      rw [← h]
      cases hstop : (slotKept idx base t).stop with
      | none =>
          have hok : (slotKept idx base t).result = .ok (slotKept idx base t).tables := by
            unfold Ended.result
            rw [hstop]
          rw [hok, ok_bind]
          dsimp only
          rw [if_pos hstop]
          exact ih _ _ _
      | some a =>
          have herror : (slotKept idx base t).result = .error a := by
            unfold Ended.result
            rw [hstop]
          rw [herror]
          dsimp only
          rw [if_neg (by rw [hstop]; exact Option.some_ne_none a), herror]
          rfl

/-- Source: `sys/vmem.hpp` `traverse_page_table`. Kind: L -/
theorem traverseWrappedKept_result (c : Callbacks) (e : Entry) (t : Tables) :
    (traverseWrappedKept c e t).result = traverseWrapped c e t := by
  unfold traverseWrappedKept traverseWrapped
  cases enter c e t with
  | error a => rfl
  | ok r =>
      obtain ⟨goOn, t'⟩ := r
      cases goOn <;> rfl

/-- **Keeping the tables changes nothing else.** By induction on the level.
Source: `sys/vmem.hpp` `traverse_page_table`
Kind: P -/
theorem traverseKept_result (c : Callbacks) (virtStart virtEnd level : ℕ) (e : Entry) (base : ℕ)
    (t : Tables) : (traverseKept c virtStart virtEnd level e base t).result
      = traversePageTable c virtStart virtEnd level e base t := by
  induction level generalizing e base t with
  | zero =>
      rw [traversePageTable]
      cases henter : enter c e t with
      | error a =>
          rw [traverseKept_error 0 henter, traverseBottom, henter]
          rfl
      | ok r =>
          obtain ⟨goOn, t'⟩ := r
          cases goOn with
          | false =>
              rw [traverseKept_return 0 henter, traverseBottom, henter, ok_bind]
              rfl
          | true =>
              rw [traverseBottomKept_enter henter rfl rfl, traverseBottom_enter henter rfl rfl]
              exact forSlotsKept_result (fun idx _ t => traverseWrappedKept_result c _ t) ..
  | succ k ih =>
      cases henter : enter c e t with
      | error a =>
          rw [traverseKept_error (k + 1) henter, traversePageTable, henter]
          rfl
      | ok r =>
          obtain ⟨goOn, t'⟩ := r
          cases goOn with
          | false =>
              rw [traverseKept_return (k + 1) henter, traversePageTable, henter, ok_bind]
              rfl
          | true =>
              rw [traverseKept_enter henter rfl rfl rfl, traversePageTable_enter henter rfl rfl rfl]
              apply forSlotsKept_result
              intro idx base t
              unfold visitSlotKept visitSlot
              split
              · exact foundKept_result c _ base k t
              · exact ih _ base t

end Kept

/-! ## The pages that a call takes -/

section Pages

variable {pages fewer more : ℕ → Option ℕ} {vaddr pfn virtStart virtEnd : ℕ}

/-- The callbacks of `map_memory`. Source: `sys/vmem.cpp` `map_memory`
Kind: D -/
def mapCallbacks (pages : ℕ → Option ℕ) (vaddr pfn : ℕ) : Callbacks :=
  ⟨mapMemoryFound vaddr pfn, installTable pages⟩

/-- From `first` on, the pages up to where the call has come were there.
Source: none: infrastructure
Kind: D -/
def Took (pages : ℕ → Option ℕ) (first last : ℕ) : Prop :=
  first ≤ last ∧ ∀ n, first ≤ n → n < last → pages n ≠ none

/-- Source: none: infrastructure. Kind: L -/
theorem Took.refl (first : ℕ) : Took pages first first :=
  ⟨le_rfl, fun _ h h' => absurd h' (Nat.not_lt.mpr h)⟩

/-- Source: none: infrastructure. Kind: L -/
theorem Took.trans {a b d : ℕ} (h : Took pages a b) (h' : Took pages b d) : Took pages a d := by
  refine ⟨h.1.trans h'.1, fun n hn hlt => ?_⟩
  rcases Nat.lt_or_ge n b with hb | hb
  · exact h.2 n hn hb
  · exact h'.2 n hb hlt

/-- `found` writes an entry, or nothing. Source: `sys/vmem.cpp` `map_memory`. Kind: L -/
theorem foundKept_cases (pages : ℕ → Option ℕ) (vaddr pfn : ℕ) (e : Entry) (base level : ℕ)
    (t : Tables) :
    foundKept (mapCallbacks pages vaddr pfn) e base level t =
      if Pte.present (t.read e) then ⟨t, some .kassert⟩
      else ⟨t.write (Pte.set ((pfnToAddr pfn + wsub base vaddr) % word) (0 < level)) e, none⟩ := by
  unfold foundKept mapCallbacks mapMemoryFound
  dsimp only
  by_cases hpres : Pte.present (t.read e)
  · rw [if_pos hpres, if_pos hpres]
  · rw [if_neg hpres, if_neg hpres]

/-- Whatever stream `found` is used with. Source: `sys/vmem.cpp` `map_memory`. Kind: L -/
theorem foundKept_allocated (e : Entry) (base level : ℕ) (t : Tables) :
    (foundKept (mapCallbacks pages vaddr pfn) e base level t).tables.allocated = t.allocated ∧
      (foundKept (mapCallbacks pages vaddr pfn) e base level t).stop ≠ some .noPage := by
  rw [foundKept_cases]
  split
  · exact ⟨rfl, by simp⟩
  · exact ⟨write_allocated .., by simp⟩

/-- An entry is entered as it is, with the next page of the stream, or not at all.
Source: `sys/vmem.hpp` `traverse_page_table`
Kind: L -/
theorem enter_cases (pages : ℕ → Option ℕ) (vaddr pfn : ℕ) (e : Entry) (t : Tables) :
    (Pte.present (t.read e) = true ∧ enter (mapCallbacks pages vaddr pfn) e t = .ok (true, t)) ∨
      (Pte.present (t.read e) = false ∧ ((pages t.allocated = none ∧
          enter (mapCallbacks pages vaddr pfn) e t = .error .noPage) ∨
        ∃ page, pages t.allocated = some page ∧
          enter (mapCallbacks pages vaddr pfn) e t = .ok (true, t.install page e))) := by
  unfold enter mapCallbacks installTable
  cases hpres : Pte.present (t.read e) with
  | true => exact Or.inl ⟨rfl, if_pos rfl⟩
  | false =>
      right
      refine ⟨rfl, ?_⟩
      rw [if_neg Bool.false_ne_true]
      dsimp only
      cases hpage : pages t.allocated with
      | none => exact Or.inl ⟨rfl, rfl⟩
      | some page => exact Or.inr ⟨page, rfl, rfl⟩

/-- Source: `sys/vmem.cpp` `map_memory`. Kind: L -/
@[simp]
theorem install_allocated (t : Tables) (page : ℕ) (e : Entry) :
    (t.install page e).allocated = t.allocated + 1 := by
  unfold Tables.install
  rw [write_allocated]
  rfl

/-- The loop over the slots takes what its slots take. Source: `sys/vmem.hpp` `traverse_page_table`.
Kind: L -/
theorem forSlotsKept_took {slot : ℕ → ℕ → Tables → Ended}
    (h : ∀ idx base t, Took pages t.allocated (slot idx base t).tables.allocated)
    (step n idx base : ℕ) (t : Tables) :
    Took pages t.allocated (forSlotsKept slot step n idx base t).tables.allocated := by
  induction n generalizing idx base t with
  | zero => exact Took.refl _
  | succ n ih =>
      unfold forSlotsKept
      dsimp only
      split
      · exact (h idx base t).trans (ih _ _ _)
      · exact h idx base t

/-- The body of the loop takes what a call for the slot takes.
Source: `sys/vmem.hpp` `traverse_page_table`
Kind: L -/
theorem visitSlotKept_took {k : ℕ}
    (h : ∀ e base t, Took pages t.allocated
      (traverseKept (mapCallbacks pages vaddr pfn) virtStart virtEnd k e base t).tables.allocated)
    (step pt idx base : ℕ) (t : Tables) : Took pages t.allocated
      (visitSlotKept (mapCallbacks pages vaddr pfn) virtStart virtEnd k step pt idx base
        t).tables.allocated := by
  unfold visitSlotKept
  split
  · rw [(foundKept_allocated (.slot pt idx) base k t).1]
    exact Took.refl _
  · exact h _ base t

/-- Entering takes at most the next page of the stream.
Source: `sys/vmem.hpp` `traverse_page_table`
Kind: L -/
theorem enter_took {e : Entry} {t t1 : Tables}
    (h : enter (mapCallbacks pages vaddr pfn) e t = .ok (true, t1)) :
    Took pages t.allocated t1.allocated := by
  rcases enter_cases pages vaddr pfn e t with ⟨-, h'⟩ | ⟨-, ⟨-, h'⟩ | ⟨page, hpage, h'⟩⟩
  · cases h'.symm.trans h
    exact Took.refl _
  · cases h'.symm.trans h
  · cases h'.symm.trans h
    refine ⟨by simp, fun n h1 h2 => ?_⟩
    obtain rfl : n = t.allocated := by
      rw [install_allocated] at h2
      omega
    rw [hpage]
    exact Option.some_ne_none page

/-- A call that takes pages from where its entry is entered takes pages.
Source: `sys/vmem.hpp` `traverse_page_table`
Kind: L -/
theorem took_of_enter {level base : ℕ} {e : Entry} {t : Tables}
    (h : ∀ t1, enter (mapCallbacks pages vaddr pfn) e t = .ok (true, t1) → Took pages t1.allocated
      (traverseKept (mapCallbacks pages vaddr pfn) virtStart virtEnd level e base t).tables.allocated) :
    Took pages t.allocated
      (traverseKept (mapCallbacks pages vaddr pfn) virtStart virtEnd level e base t).tables.allocated := by
  rcases enter_cases pages vaddr pfn e t with ⟨-, h'⟩ | ⟨-, ⟨-, h'⟩ | ⟨page, -, h'⟩⟩
  · exact h t h'
  · rw [traverseKept_error level h']
    exact Took.refl _
  · exact (enter_took h').trans (h _ h')

/-- Source: `sys/vmem.hpp` `traverse_page_table`. Kind: L -/
theorem traverseWrappedKept_took (e : Entry) (t : Tables) : Took pages t.allocated
    (traverseWrappedKept (mapCallbacks pages vaddr pfn) e t).tables.allocated := by
  unfold traverseWrappedKept
  rcases enter_cases pages vaddr pfn e t with ⟨-, h⟩ | ⟨-, ⟨-, h⟩ | ⟨page, -, h⟩⟩
  · rw [h]
    exact Took.refl _
  · rw [h]
    exact Took.refl _
  · have htook := enter_took h
    rw [h]
    exact htook

/-- **Every page that becomes a table was there.** By induction on the level.
Source: `sys/vmem.cpp` `map_memory`
Kind: P -/
theorem traverseKept_took_enter {level base : ℕ} {e : Entry} {t t1 : Tables}
    (h : enter (mapCallbacks pages vaddr pfn) e t = .ok (true, t1)) : Took pages t1.allocated
      (traverseKept (mapCallbacks pages vaddr pfn) virtStart virtEnd level e base t).tables.allocated := by
  induction level generalizing e base t t1 with
  | zero =>
      rw [traverseBottomKept_enter h rfl rfl]
      exact forSlotsKept_took (fun _ _ _ => traverseWrappedKept_took _ _) _ _ _ _
        { t1 with descents := (0, t1.read e) :: t1.descents }
  | succ k ih =>
      rw [traverseKept_enter h rfl rfl rfl]
      have hcall : ∀ e base t, Took pages t.allocated
          (traverseKept (mapCallbacks pages vaddr pfn) virtStart virtEnd k e base t).tables.allocated :=
        fun _ _ _ => took_of_enter fun _ h => ih h
      exact forSlotsKept_took (visitSlotKept_took hcall _ _) _ _ _ _
        { t1 with descents := (k + 1, t1.read e) :: t1.descents }

/-- The same from the start of the call. Source: `sys/vmem.cpp` `map_memory`. Kind: L -/
theorem traverseKept_took (level : ℕ) (e : Entry) (base : ℕ) (t : Tables) :
    Took pages t.allocated
      (traverseKept (mapCallbacks pages vaddr pfn) virtStart virtEnd level e base t).tables.allocated :=
  took_of_enter fun _ h => traverseKept_took_enter h

/-! ## Two allocators -/

/-- The first of two calls had fewer pages: the second ended the same way, or went on with a page where
the first stopped for lack of one.
Source: none: infrastructure
Kind: D -/
def Agrees (more : ℕ → Option ℕ) (r r' : Ended) : Prop :=
  (r' = r ∧ (r.stop = some .noPage → more r.tables.allocated = none)) ∨
    (r.stop = some .noPage ∧ more r.tables.allocated ≠ none ∧
      r.tables.allocated < r'.tables.allocated)

/-- The loop over the slots. Source: `sys/vmem.hpp` `traverse_page_table`. Kind: L -/
theorem forSlotsKept_agrees {slot slot' : ℕ → ℕ → Tables → Ended}
    (h : ∀ idx base t, Agrees more (slot idx base t) (slot' idx base t))
    (htook : ∀ idx base t, Took more t.allocated (slot' idx base t).tables.allocated)
    (step n idx base : ℕ) (t : Tables) :
    Agrees more (forSlotsKept slot step n idx base t) (forSlotsKept slot' step n idx base t) := by
  induction n generalizing idx base t with
  | zero => exact Or.inl ⟨rfl, fun h => nomatch h⟩
  | succ n ih =>
      unfold forSlotsKept
      dsimp only
      rcases h idx base t with ⟨heq, hstop⟩ | ⟨hstop, hmore, hlt⟩
      · rw [heq]
        split
        · exact ih _ _ _
        · exact Or.inl ⟨rfl, hstop⟩
      · right
        rw [if_neg (by rw [hstop]; exact Option.some_ne_none _)]
        refine ⟨hstop, hmore, ?_⟩
        split
        · exact hlt.trans_le (forSlotsKept_took htook ..).1
        · exact hlt

/-- Entering with fewer and with more pages. Source: `sys/vmem.cpp` `map_memory`. Kind: L -/
theorem enter_agrees (hpages : ∀ n page, fewer n = some page → more n = some page) (e : Entry)
    (t : Tables) :
    (enter (mapCallbacks more vaddr pfn) e t = enter (mapCallbacks fewer vaddr pfn) e t ∧
        (enter (mapCallbacks fewer vaddr pfn) e t = .error .noPage → more t.allocated = none)) ∨
      (enter (mapCallbacks fewer vaddr pfn) e t = .error .noPage ∧ ∃ page,
        more t.allocated = some page ∧
          enter (mapCallbacks more vaddr pfn) e t = .ok (true, t.install page e)) := by
  rcases enter_cases fewer vaddr pfn e t with ⟨hpres, h⟩ | ⟨habsent, ⟨-, h⟩ | ⟨page, hpage, h⟩⟩ <;>
    rcases enter_cases more vaddr pfn e t with ⟨hpres', h'⟩ | ⟨habsent', ⟨hnone', h'⟩ | ⟨page', hpage', h'⟩⟩
  · exact Or.inl ⟨h'.trans h.symm, fun herror => nomatch h.symm.trans herror⟩
  · exact absurd (hpres.symm.trans habsent') (by decide)
  · exact absurd (hpres.symm.trans habsent') (by decide)
  · exact absurd (hpres'.symm.trans habsent) (by decide)
  · exact Or.inl ⟨h'.trans h.symm, fun _ => hnone'⟩
  · exact Or.inr ⟨h, page', hpage', h'⟩
  · exact absurd (hpres'.symm.trans habsent) (by decide)
  · exact absurd (hnone'.symm.trans (hpages _ _ hpage)) (Option.some_ne_none page).symm
  · obtain rfl : page' = page := Option.some.inj (hpage'.symm.trans (hpages _ _ hpage))
    exact Or.inl ⟨h'.trans h.symm, fun herror => nomatch h.symm.trans herror⟩

/-- The body of the loop. Source: `sys/vmem.hpp` `traverse_page_table`. Kind: L -/
theorem visitSlotKept_agrees {k : ℕ}
    (h : ∀ e base t, Agrees more
      (traverseKept (mapCallbacks fewer vaddr pfn) virtStart virtEnd k e base t)
      (traverseKept (mapCallbacks more vaddr pfn) virtStart virtEnd k e base t))
    (step pt idx base : ℕ) (t : Tables) :
    Agrees more (visitSlotKept (mapCallbacks fewer vaddr pfn) virtStart virtEnd k step pt idx base t)
      (visitSlotKept (mapCallbacks more vaddr pfn) virtStart virtEnd k step pt idx base t) := by
  unfold visitSlotKept
  split
  · -- `found` does not look at the stream
    have hfound : foundKept (mapCallbacks more vaddr pfn) (.slot pt idx) base k t =
        foundKept (mapCallbacks fewer vaddr pfn) (.slot pt idx) base k t := rfl
    exact Or.inl ⟨hfound, fun hstop => absurd hstop (foundKept_allocated (.slot pt idx) base k t).2⟩
  · exact h _ base t

/-- Where the call with fewer pages stops at its entry the other goes on.
Source: `sys/vmem.cpp` `map_memory`
Kind: L -/
theorem agrees_of_more {level base page : ℕ} {e : Entry} {t : Tables}
    (h : enter (mapCallbacks fewer vaddr pfn) e t = .error .noPage) (hpage : more t.allocated = some page)
    (h' : enter (mapCallbacks more vaddr pfn) e t = .ok (true, t.install page e)) :
    Agrees more (traverseKept (mapCallbacks fewer vaddr pfn) virtStart virtEnd level e base t)
      (traverseKept (mapCallbacks more vaddr pfn) virtStart virtEnd level e base t) := by
  have htook : Took more (t.install page e).allocated
      (traverseKept (mapCallbacks more vaddr pfn) virtStart virtEnd level e base t).tables.allocated :=
    traverseKept_took_enter h'
  rw [install_allocated] at htook
  right
  rw [traverseKept_error level h]
  exact ⟨rfl, by rw [hpage]; exact Option.some_ne_none page, htook.1⟩

/-- Source: `sys/vmem.hpp` `traverse_page_table`. Kind: L -/
theorem traverseWrappedKept_agrees (hpages : ∀ n page, fewer n = some page → more n = some page)
    (e : Entry) (t : Tables) : Agrees more (traverseWrappedKept (mapCallbacks fewer vaddr pfn) e t)
      (traverseWrappedKept (mapCallbacks more vaddr pfn) e t) := by
  unfold traverseWrappedKept
  rcases enter_agrees hpages e t with ⟨heq, hnone⟩ | ⟨h, page, hpage, h'⟩
  · left
    rw [heq]
    cases henter : enter (mapCallbacks fewer vaddr pfn) e t with
    | error a => exact ⟨rfl, fun hstop => hnone (by rw [henter, Option.some.inj hstop])⟩
    | ok r =>
        obtain ⟨goOn, t1⟩ := r
        cases goOn <;> exact ⟨rfl, fun hstop => nomatch hstop⟩
  · right
    rw [h, h']
    refine ⟨rfl, ?_, ?_⟩
    · rw [hpage]
      exact Option.some_ne_none page
    · dsimp only
      rw [install_allocated]
      exact Nat.lt_succ_self _

/-- **The same call with fewer and with more pages.** By induction on the level.
Source: `sys/vmem.cpp` `map_memory`
Kind: P -/
theorem traverseKept_agrees (hpages : ∀ n page, fewer n = some page → more n = some page)
    (level : ℕ) (e : Entry) (base : ℕ) (t : Tables) :
    Agrees more (traverseKept (mapCallbacks fewer vaddr pfn) virtStart virtEnd level e base t)
      (traverseKept (mapCallbacks more vaddr pfn) virtStart virtEnd level e base t) := by
  induction level generalizing e base t with
  | zero =>
      rcases enter_agrees hpages e t with ⟨heq, hnone⟩ | ⟨h, page, hpage, h'⟩
      · cases henter : enter (mapCallbacks fewer vaddr pfn) e t with
        | error a =>
            rw [traverseKept_error 0 henter, traverseKept_error 0 (heq.trans henter)]
            exact Or.inl ⟨rfl, fun hstop => hnone (by rw [henter, Option.some.inj hstop])⟩
        | ok r =>
            obtain ⟨goOn, t1⟩ := r
            cases goOn with
            | false =>
                rw [traverseKept_return 0 henter, traverseKept_return 0 (heq.trans henter)]
                exact Or.inl ⟨rfl, fun hstop => nomatch hstop⟩
            | true =>
                rw [traverseBottomKept_enter henter rfl rfl, traverseBottomKept_enter (heq.trans henter) rfl rfl]
                exact forSlotsKept_agrees (fun _ _ _ => traverseWrappedKept_agrees hpages _ _)
                  (fun _ _ _ => traverseWrappedKept_took _ _) _ _ _ _ _
      · exact agrees_of_more h hpage h'
  | succ k ih =>
      rcases enter_agrees hpages e t with ⟨heq, hnone⟩ | ⟨h, page, hpage, h'⟩
      · cases henter : enter (mapCallbacks fewer vaddr pfn) e t with
        | error a =>
            rw [traverseKept_error (k + 1) henter, traverseKept_error (k + 1) (heq.trans henter)]
            exact Or.inl ⟨rfl, fun hstop => hnone (by rw [henter, Option.some.inj hstop])⟩
        | ok r =>
            obtain ⟨goOn, t1⟩ := r
            cases goOn with
            | false =>
                rw [traverseKept_return (k + 1) henter, traverseKept_return (k + 1) (heq.trans henter)]
                exact Or.inl ⟨rfl, fun hstop => nomatch hstop⟩
            | true =>
                rw [traverseKept_enter henter rfl rfl rfl,
                  traverseKept_enter (heq.trans henter) rfl rfl rfl]
                exact forSlotsKept_agrees (visitSlotKept_agrees ih _ _)
                  (visitSlotKept_took (traverseKept_took k) _ _) _ _ _ _ _
      · exact agrees_of_more h hpage h'

end Pages

end EbbRT
