import EbbRT.Mem.PageAllocator

/-!
# The early page allocator

Before the buddy allocator exists, free physical memory is a set of `page_range` records ordered
by their start, each stored in the first page of the range it describes. A range that is freed is
inserted and joined with its neighbours where they touch; an allocation is cut from the end of the
first range that is long enough. Arithmetic on page numbers is arithmetic on 64-bit words.
-/

namespace EbbRT

/-- A free range; its start is the page the record is stored in.
Source: `sys/early_page_allocator.hpp` `page_range`
Kind: D -/
structure PageRange where
  /-- The page that holds the record (`pfn_down(this)`). -/
  start : ℕ
  /-- The number of pages. -/
  npages : ℕ
  /-- The node. -/
  nid : ℕ
  deriving DecidableEq, Repr

namespace PageRange

/-- Source: `sys/early_page_allocator.hpp` `page_range::end`
Kind: D -/
def pfnEnd (r : PageRange) : ℕ := (r.start + r.npages) % word

end PageRange

/-- Source: `sys/numa.hpp` `ANY_NID`
Kind: D -/
def anyNid : ℕ := 256

namespace EarlyPageAllocator

/-- `free_pages`, in the order of the set.
Source: `sys/early_page_allocator.hpp` `free_pages_tree`
Kind: D -/
abbrev FreePages := List PageRange

/-- The range that replaces `a` and `b`, when `a` ends where `b` starts; `none` when both stay.
The node ids are not compared: the joined range keeps that of `a`.
Source: `sys/early_page_allocator.cpp` `coalesce`
Kind: D -/
def coalesce (a b : PageRange) : Option PageRange :=
  if a.pfnEnd ≠ b.start then none else some { a with npages := (a.npages + b.npages) % word }

/-- `if (it != begin()) it = coalesce(prior(it), it)`: what is left before the range, and the
range.
Source: `sys/early_page_allocator.cpp` `free_page_range`
Kind: D -/
def joinPrior (pre : List PageRange) (it : PageRange) : List PageRange × PageRange :=
  match pre.getLast? with
  | none => (pre, it)
  | some a =>
      match coalesce a it with
      | none => (pre, it)
      | some m => (pre.dropLast, m)

/-- `if (next(it) != end()) coalesce(it, next(it))`: the range and what follows it.
Source: `sys/early_page_allocator.cpp` `free_page_range`
Kind: D -/
def joinNext (it : PageRange) : List PageRange → List PageRange
  | [] => [it]
  | b :: post =>
      match coalesce it b with
      | none => it :: b :: post
      | some m => m :: post

/-- Insert the range and join it with its neighbours. A record at the same page would be
overwritten while it is linked in the set: that is undefined, `none`.
Source: `sys/early_page_allocator.cpp` `free_page_range`
Kind: D -/
def freePageRange (start stop : ℕ) (nid : ℕ) (l : FreePages) : Option FreePages :=
  let range : PageRange := ⟨start, wsub stop start, nid⟩
  let pre := l.takeWhile fun r => r.start < start
  let post := l.dropWhile fun r => r.start < start
  if post.head?.map PageRange.start = some start then none
  else
    let r := joinPrior pre range
    some (r.1 ++ joinNext r.2 post)

/-- Source: `sys/early_page_allocator.cpp` `early_free_page`
Kind: D -/
def earlyFreePage (start stop : ℕ) (nid : ℕ) (l : FreePages) : Option FreePages :=
  freePageRange start stop nid l

/-- The first page of the block and the ranges that remain; `none` is the `kabort` at the end.
Source: `sys/early_page_allocator.cpp` `early_allocate_page`
Kind: D -/
def earlyAllocatePage (npages : ℕ) (nid : ℕ) : FreePages → Option (ℕ × FreePages)
  | [] => none
  | it :: rest =>
      let continue' := (earlyAllocatePage npages nid rest).map fun r => (r.1, it :: r.2)
      if nid ≠ anyNid ∧ it.nid ≠ nid then continue'
      else
        let ret := wsub it.pfnEnd npages
        if ret < it.start then continue'
        else if ret = it.start then some (ret, rest)
        else some (ret, { it with npages := wsub it.npages npages } :: rest)

end EarlyPageAllocator

end EbbRT
