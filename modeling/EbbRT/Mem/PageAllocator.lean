import EbbRT.Lib.Dyadic
import EbbRT.Lib.System
import EbbRT.Mem.Pfn

/-!
# The buddy allocator

`PageAllocator` keeps, for each NUMA node, one intrusive list of free blocks for each order up to
`MAX_ORDER`; whether a frame heads a free block, and of which order, is read from the frame's
`page` structure, which all nodes share. A free list entry lives in the first page of its block,
so a list is modelled by the frame numbers of its entries, head first.

`erase(iterator_to(entry))` on an intrusive list rewires the entry's own links, so the entry
leaves *whichever* list holds it, not the list the call names: `unlink` takes the frame out of the
list of its order on every node. A `kassert` that fails stops the machine: the result is `none`.
-/

namespace EbbRT

open EbbRT.Lib

/-- Source: `sys/page_allocator.hpp` `PageAllocator::MAX_ORDER`
Kind: D -/
def maxOrder : ℕ := 11

/-- Source: `sys/mem_map.hpp` `page::Usage`
Kind: D -/
inductive Usage where
  | reserved
  | pageAllocator
  | slabAllocator
  | inUse
  deriving DecidableEq, Repr

/-- The part of a frame's `page` structure that the page allocator reads and writes.
Source: `sys/mem_map.hpp` `page`
Kind: D -/
structure Page where
  /-- What the frame is used for. -/
  usage : Usage
  /-- The order of the free block the frame heads (`data.order`). -/
  order : ℕ
  deriving DecidableEq, Repr

/-- Source: `sys/mem_map.hpp` `PFN_SECTION_SHIFT`
Kind: D -/
def pfnSectionShift : ℕ := 27 - pageShift

/-- Source: `sys/mem_map.hpp` `pfn_to_section_num`
Kind: D -/
def pfnToSectionNum (pfn : ℕ) : ℕ := pfn >>> pfnSectionShift

/-- The frames and the free lists of all nodes.
Source: `sys/page_allocator.hpp` `PageAllocator`, `sys/mem_map.hpp` `sections`
Kind: D -/
structure PageState where
  /-- Whether a section has a map (`present() && valid()`). -/
  present : ℕ → Bool
  /-- The `page` structures. -/
  pages : ℕ → Page
  /-- `allocators[nid].free_page_lists[order]`, head first. -/
  lists : ℕ → ℕ → List ℕ

namespace PageState

/-- `none` is the null pointer: the frame's section has no map.
Source: `sys/mem_map.hpp` `pfn_to_page`
Kind: D -/
def pfnToPage (s : PageState) (pfn : ℕ) : Option Page :=
  if s.present (pfnToSectionNum pfn) then some (s.pages pfn) else none

/-- Write a frame's `page` structure. Source: none: infrastructure. Kind: D -/
def setPage (s : PageState) (pfn : ℕ) (page : Page) : PageState :=
  { s with pages := Function.update s.pages pfn page }

/-- Replace one free list. Source: none: infrastructure. Kind: D -/
def setList (s : PageState) (n : ℕ) (k : ℕ) (l : List ℕ) : PageState :=
  { s with lists := Function.update s.lists n (Function.update (s.lists n) k l) }

/-- `free_page_lists[order].erase(iterator_to(*entry))`: the entry's links are rewired, so it
leaves the list that holds it, on whichever node that is.
Source: `sys/page_allocator.cpp` `PageAllocator::Free`
Kind: D -/
def unlink (s : PageState) (pfn : ℕ) : PageState :=
  { s with lists := fun n k => (s.lists n k).erase pfn }

/-- Source: `sys/page_allocator.hpp` `PageAllocator::pfn_to_buddy`
Kind: D -/
def pfnToBuddy (pfn : ℕ) (order : ℕ) : ℕ := pfn ^^^ (1 <<< order)

/-- Push the block on the node's list and record it in its head frame.
Source: `sys/page_allocator.cpp` `PageAllocator::FreePageNoCoalesce`
Kind: D -/
def freePageNoCoalesce (n : ℕ) (pfn : ℕ) (order : ℕ) (s : PageState) : Option PageState :=
  let s := s.setList n order (pfn :: s.lists n order)
  match s.pfnToPage pfn with
  | none => none
  | some page => some (s.setPage pfn { page with usage := .pageAllocator, order := order })

/-- Source: `sys/page_allocator.cpp` `PageAllocator::early_free_page`
Kind: D -/
def earlyFreePage (start : ℕ) (order : ℕ) (nid : ℕ) (s : PageState) : Option PageState :=
  if order ≤ maxOrder then freePageNoCoalesce nid start order s else none

/-- The search loop of `AllocLocal`: the first non-empty list from order `k` on, with its head.
Source: `sys/page_allocator.cpp` `PageAllocator::AllocLocal`
Kind: D -/
def findFree (s : PageState) (n : ℕ) : ℕ → ℕ → Option (ℕ × ℕ)
  | 0, _ => none
  | fuel + 1, k =>
      match s.lists n k with
      | fp :: _ => some (k, fp)
      | [] => findFree s n fuel (k + 1)

/-- The split loop of `AllocLocal`: from `order + d` down to `order`, give the upper half back.
Source: `sys/page_allocator.cpp` `PageAllocator::AllocLocal`
Kind: D -/
def splitTo (n : ℕ) (fp : ℕ) (order : ℕ) : ℕ → PageState → Option PageState
  | 0, s => some s
  | d + 1, s =>
      (freePageNoCoalesce n (pfnToBuddy fp (order + d)) (order + d) s).bind
        (splitTo n fp order d)

/-- `none` for the returned frame is `NO_PFN`. The entry of a block at page 0 is at address 0: it is taken
off its list, and then for the null pointer.
Source: `sys/page_allocator.cpp` `PageAllocator::AllocLocal`
Kind: D -/
def allocLocal (n : ℕ) (order : ℕ) (s : PageState) : Option (Option ℕ × PageState) :=
  match findFree s n (maxOrder + 1 - order) order with
  | none => some (none, s)
  | some (thisOrder, fp) =>
      let s := s.setList n thisOrder (s.lists n thisOrder).tail
      if fp = 0 then some (none, s)
      else
        (splitTo n fp order (thisOrder - order) s).bind fun s =>
          match s.pfnToPage fp with
          | none => none
          | some page => some (some fp, s.setPage fp { page with usage := .inUse })

/-- The block that `AllocLocal` comes to is at page 0, and is lost.
Source: `sys/page_allocator.cpp` `PageAllocator::AllocLocal`
Kind: D -/
def TakesNull (n : ℕ) (order : ℕ) (s : PageState) : Prop :=
  (findFree s n (maxOrder + 1 - order) order).map Prod.snd = some 0

instance (n order : ℕ) (s : PageState) : Decidable (TakesNull n order s) :=
  inferInstanceAs (Decidable (_ = _))

/-- The test that ends the loop of `Free`, negated: the frame heads a free block of this order.
Source: `sys/page_allocator.cpp` `PageAllocator::Free`
Kind: D -/
def isFree (s : PageState) (pfn : ℕ) (order : ℕ) : Bool :=
  match s.pfnToPage pfn with
  | none => false
  | some page => page.usage == .pageAllocator && page.order == order

/-- The coalescing loop of `Free`: `fuel` levels are left. The frame number stays the one passed
to `Free`, whichever side the buddy is on.
Source: `sys/page_allocator.cpp` `PageAllocator::Free`
Kind: D -/
def coalesce (pfn : ℕ) : ℕ → ℕ → PageState → ℕ × PageState
  | 0, order, s => (order, s)
  | fuel + 1, order, s =>
      let buddy := pfnToBuddy pfn order
      if s.isFree buddy order then coalesce pfn fuel (order + 1) (s.unlink buddy) else (order, s)

/-- Source: `sys/page_allocator.cpp` `PageAllocator::Free`
Kind: D -/
def free (n : ℕ) (pfn : ℕ) (order : ℕ) (s : PageState) : Option PageState :=
  if order ≤ maxOrder then
    let r := coalesce pfn (maxOrder - order) order s
    freePageNoCoalesce n pfn r.1 r.2
  else none

/-- `Alloc` on the allocator of node `my`: the local path, or the other node's allocator.
Source: `sys/page_allocator.cpp` `PageAllocator::Alloc`
Kind: D -/
def alloc (my : ℕ) (order : ℕ) (nid : ℕ) (s : PageState) : Option (Option ℕ × PageState) :=
  if nid = my then allocLocal my order s else allocLocal nid order s

/-! ## Page 0 -/

/-- What is handed out is not page 0. Source: `sys/page_allocator.cpp` `PageAllocator::AllocLocal`. Kind: L -/
theorem allocLocal_ne_zero {n order fp : ℕ} {s s' : PageState}
    (h : allocLocal n order s = some (some fp, s')) : fp ≠ 0 := by
  unfold allocLocal at h
  split at h
  · cases h
  · rename_i thisOrder fp' _
    dsimp only at h
    split at h
    · cases h
    · rename_i hne
      obtain ⟨t, -, ht⟩ := Option.bind_eq_some_iff.mp h
      split at ht
      · cases ht
      · cases ht
        exact hne

/-- On no node. Source: `sys/page_allocator.cpp` `PageAllocator::Alloc`. Kind: L -/
theorem alloc_ne_zero {my order nid pfn : ℕ} {s s' : PageState}
    (h : alloc my order nid s = some (some pfn, s')) : pfn ≠ 0 := by
  unfold alloc at h
  split at h <;> exact allocLocal_ne_zero h

/-! ## What the operations leave alone -/

@[simp] theorem pfnToBuddy_eq (pfn : ℕ) (k : ℕ) : pfnToBuddy pfn k = buddy pfn k := by
  simp [pfnToBuddy, buddy, Nat.shiftLeft_eq]

@[simp] theorem setPage_present (s : PageState) (p : ℕ) (page : Page) :
    (s.setPage p page).present = s.present := rfl

@[simp] theorem setPage_lists (s : PageState) (p : ℕ) (page : Page) :
    (s.setPage p page).lists = s.lists := rfl

@[simp] theorem setPage_pages_self (s : PageState) (p : ℕ) (page : Page) :
    (s.setPage p page).pages p = page := Function.update_self ..

theorem setPage_pages_of_ne {p q : ℕ} (h : q ≠ p) (s : PageState) (page : Page) :
    (s.setPage p page).pages q = s.pages q := Function.update_of_ne h ..

@[simp] theorem setList_present (s : PageState) (n : ℕ) (k : ℕ) (l : List ℕ) :
    (s.setList n k l).present = s.present := rfl

@[simp] theorem setList_pages (s : PageState) (n : ℕ) (k : ℕ) (l : List ℕ) :
    (s.setList n k l).pages = s.pages := rfl

@[simp] theorem setList_lists_self (s : PageState) (n : ℕ) (k : ℕ) (l : List ℕ) :
    (s.setList n k l).lists n k = l := by
  simp [setList]

theorem setList_lists_of_ne {n m : ℕ} {k j : ℕ} (h : m ≠ n ∨ j ≠ k) (s : PageState)
    (l : List ℕ) : (s.setList n k l).lists m j = s.lists m j := by
  by_cases hm : m = n
  · subst hm
    have hj : j ≠ k := h.resolve_left (not_not_intro rfl)
    simp [setList, Function.update_of_ne hj]
  · simp [setList, Function.update_of_ne hm]

@[simp] theorem unlink_present (s : PageState) (p : ℕ) : (s.unlink p).present = s.present := rfl

@[simp] theorem unlink_pages (s : PageState) (p : ℕ) : (s.unlink p).pages = s.pages := rfl

@[simp] theorem unlink_lists (s : PageState) (p : ℕ) (n : ℕ) (k : ℕ) :
    (s.unlink p).lists n k = (s.lists n k).erase p := rfl

/-- Unlinking does not change what the loop of `Free` reads.
Source: `sys/page_allocator.cpp` `PageAllocator::Free`
Kind: L -/
@[simp] theorem unlink_isFree (s : PageState) (p q : ℕ) (k : ℕ) :
    (s.unlink p).isFree q k = s.isFree q k := rfl

/-- What the loop of `Free` reads, spelled out.
Source: `sys/page_allocator.cpp` `PageAllocator::Free`
Kind: L -/
theorem isFree_iff {s : PageState} {p : ℕ} {k : ℕ} :
    s.isFree p k = true ↔ s.present (pfnToSectionNum p) = true ∧
      (s.pages p).usage = .pageAllocator ∧ (s.pages p).order = k := by
  unfold isFree pfnToPage
  by_cases h : s.present (pfnToSectionNum p) = true <;> simp [h]

end PageState

end EbbRT
