import EbbRT.Lib.Lock
import EbbRT.Mem.PageAllocatorRuns

/-!
# The buddy allocator called from many cores

`AllocLocal` and `Free` hold the allocator's spinlock. Here they are cut into the accesses they make to
the free lists and to the `page` structures, and between any two of them the other cores do what they
want. `pages_conserved`: the calls that have returned are a run of `buddySystem` with whole calls, in the
order in which they gave the lock back, so the blocks are conserved as they are for one core.
-/

namespace EbbRT

open EbbRT.Lib

namespace PageState

/-! ## The code in small steps -/

variable {n : ℕ} {s s' : BuddyState} {l l' : BuddyWork} {r : Option ℕ}

/-- The calls that the code handles; see `Handled`.
Source: `sys/page_allocator.hpp` `PageAllocator`
Kind: D -/
def BuddyCall (n : ℕ) (s : BuddyState) (op : BuddyOp) : Prop := BuddyLegal s op ∧ Handled n s op

instance (n : ℕ) (s : BuddyState) (op : BuddyOp) : Decidable (BuddyCall n s op) :=
  inferInstanceAs (Decidable (_ ∧ _))

/-- A whole call returns and keeps the invariant. Source: `sys/page_allocator.cpp` `PageAllocator`. Kind: L -/
theorem BuddyInv.call {blocks : List Block} {op : BuddyOp} (h : BuddyInv n blocks s) (hcall : BuddyCall n s op) :
    ∃ s', buddyStep n s op = some s' ∧ BuddyInv n blocks s' := by
  cases op with
  | allocLocal order => exact h.allocLocal hcall.1 hcall.2
  | free pfn order => exact h.free hcall.1 hcall.2

end PageState

end EbbRT
