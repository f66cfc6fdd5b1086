import EbbRT.Mem.PageAllocatorAlloc

/-!
# One call of `AllocLocal` after the other

`allocCalls` is the stream of pages that an allocator returns: distinct pages of its node
(`NodeInv.allocCalls_mem`, `NodeInv.allocCalls_ne`), as many as are free (`NodeInv.allocCalls_iff`), and
`NO_PFN` from then on, on a node without page 0.
-/

namespace EbbRT

open EbbRT.Lib

/-- Source: `sys/pfn.hpp` `NO_PFN`
Kind: D -/
def noPfn : ℕ := word - 1

namespace PageState

/-- What one call of `AllocLocal(0)` after the other returns. A failed `kassert` has no result; there is
none on an allocator with its invariant (`NodeInv.allocLocal`).
Source: `sys/page_allocator.cpp` `PageAllocator::AllocLocal`
Kind: D -/
def allocCalls (n : ℕ) : ℕ → PageState → ℕ
  | 0, s =>
      match allocLocal n 0 s with
      | none => noPfn
      | some (pfn, _) => pfn.getD noPfn
  | k + 1, s =>
      match allocLocal n 0 s with
      | none => noPfn
      | some (_, s) => allocCalls n k s

variable {s s' : PageState} {n k p : ℕ} {held : List Block} {S : Set ℕ}

/-- An allocator without pages stays without. Source: `sys/page_allocator.cpp` `PageAllocator::AllocLocal`.
Kind: L -/
theorem allocCalls_empty (h : allocLocal n 0 s = some (none, s)) (k : ℕ) :
    allocCalls n k s = noPfn := by
  induction k with
  | zero => rw [allocCalls, h]; rfl
  | succ k ih => rw [allocCalls, h]; exact ih

/-- Source: `sys/page_allocator.cpp` `PageAllocator::AllocLocal`. Kind: L -/
theorem allocCalls_zero (h : allocLocal n 0 s = some (some p, s')) : allocCalls n 0 s = p := by
  rw [allocCalls, h]
  rfl

/-- Source: `sys/page_allocator.cpp` `PageAllocator::AllocLocal`. Kind: L -/
theorem allocCalls_succ (h : allocLocal n 0 s = some (some p, s')) (k : ℕ) :
    allocCalls n (k + 1) s = allocCalls n k s' := by
  rw [allocCalls, h]

/-- The head of the block that was handed out last. Source: none: infrastructure. Kind: L -/
theorem NodeInv.last_mem {b : Block} (h : NodeInv s n [] (b :: held) S) :
    b.start ∈ S ∧ ∀ b' ∈ held, b.start ≠ b'.start := by
  refine ⟨h.tiles.mem_of_mem_part (List.mem_append_left _ (List.mem_cons_self ..)) b.start_mem_cells, ?_⟩
  intro b' hb' heq
  have hd : Disjoint b.cells b'.cells := h.tiles.disjoint_of_cons (List.mem_append_left _ hb')
  refine Set.disjoint_left.mp hd b.start_mem_cells ?_
  rw [heq]
  exact b'.start_mem_cells

/-- What is returned is a page of the node that was not held. By induction on the calls before.
Source: `sys/page_allocator.cpp` `PageAllocator::AllocLocal`
Kind: L -/
theorem NodeInv.allocCalls_mem (h : NodeInv s n [] held S) (hzero : 0 ∉ S) (hp : allocCalls n k s = p)
    (hne : p ≠ noPfn) : p ∈ S ∧ ∀ b ∈ held, p ≠ b.start := by
  induction k generalizing s held with
  | zero =>
      rcases h.allocLocal (Nat.zero_le maxOrder) (h.not_takesNull hzero) with hnone | ⟨p', s', hsome, hinv, -⟩
      · exact absurd (hp.symm.trans (allocCalls_empty hnone 0)) hne
      · obtain rfl : p' = p := (allocCalls_zero hsome).symm.trans hp
        exact hinv.last_mem
  | succ k ih =>
      rcases h.allocLocal (Nat.zero_le maxOrder) (h.not_takesNull hzero) with hnone | ⟨p', s', hsome, hinv, -⟩
      · exact absurd (hp.symm.trans (allocCalls_empty hnone (k + 1))) hne
      · rw [allocCalls_succ hsome] at hp
        obtain ⟨hmem, hheld⟩ := ih hinv hp
        exact ⟨hmem, fun b hb => hheld b (List.mem_cons_of_mem _ hb)⟩

/-- No page is returned twice. By induction on the calls before the first.
Source: `sys/page_allocator.cpp` `PageAllocator::AllocLocal`
Kind: L -/
theorem NodeInv.allocCalls_ne {m : ℕ} (h : NodeInv s n [] held S) (hzero : 0 ∉ S) (hmk : m < k)
    (hp : allocCalls n k s = p) (hne : p ≠ noPfn) : allocCalls n m s ≠ p := by
  obtain ⟨k, rfl⟩ : ∃ j, k = j + 1 := ⟨k - 1, by omega⟩
  induction m generalizing s held k with
  | zero =>
      rcases h.allocLocal (Nat.zero_le maxOrder) (h.not_takesNull hzero) with hnone | ⟨p', s', hsome, hinv, -⟩
      · exact absurd (hp.symm.trans (allocCalls_empty hnone (k + 1))) hne
      · rw [allocCalls_succ hsome] at hp
        rw [allocCalls_zero hsome]
        exact ((hinv.allocCalls_mem hzero hp hne).2 ⟨p', 0⟩ (List.mem_cons_self ..)).symm
  | succ m ih =>
      rcases h.allocLocal (Nat.zero_le maxOrder) (h.not_takesNull hzero) with hnone | ⟨p', s', hsome, hinv, -⟩
      · exact absurd (hp.symm.trans (allocCalls_empty hnone (k + 1))) hne
      · rw [allocCalls_succ hsome] at hp ⊢
        obtain ⟨k, rfl⟩ : ∃ j, k = j + 1 := ⟨k - 1, by omega⟩
        exact ih hinv k (by omega) hp

/-! ## How many there are -/

/-- How many pages are free. Source: `sys/page_allocator.hpp` `PageAllocator::free_page_lists`
Kind: D -/
def room (n : ℕ) (s : PageState) : ℕ := ((s.freeBlocks n).map fun b => 2 ^ b.order).sum

/-- Source: none: infrastructure. Kind: L -/
theorem ncard_cells (b : Block) : b.cells.ncard = 2 ^ b.order := by
  unfold Block.cells
  rw [Set.ncard_eq_toFinset_card', Set.toFinset_Ico, Nat.card_Ico, Nat.add_sub_cancel_left]

/-- The pages that are held and those that are free are the node's. Source: none: infrastructure.
Kind: L -/
theorem NodeInv.room_eq (h : NodeInv s n [] held S) :
    (held.map fun b => 2 ^ b.order).sum + room n s = S.ncard := by
  have hsum := h.tiles.sum_ncard fun b _ => Set.finite_Ico _ _
  rw [← hsum, List.nil_append, List.map_append, List.sum_append]
  unfold room
  simp only [ncard_cells]

/-- When nothing is returned nothing is free. Source: `sys/page_allocator.cpp` `PageAllocator::AllocLocal`.
Kind: L -/
theorem room_of_allocLocal (h : allocLocal n 0 s = some (none, s)) (hnull : ¬TakesNull n 0 s) :
    room n s = 0 := by
  have hfree : s.freeBlocks n = [] := by
    refine List.eq_nil_iff_forall_not_mem.mpr fun b hb => ?_
    cases hfind : s.findFree n (maxOrder + 1 - 0) 0 with
    | none => exact absurd ((findFree_eq_none_iff s n 0).mp hfind b hb) (Nat.not_lt_zero _)
    | some r =>
        have hne : r.2 ≠ 0 := fun heq => hnull (by rw [TakesNull, hfind, Option.map_some, heq])
        simp only [allocLocal, hfind, if_neg hne] at h
        obtain ⟨t, -, ht⟩ := Option.bind_eq_some_iff.mp h
        split at ht <;> cases ht
  unfold room
  rw [hfree]
  rfl

/-- **As many calls return a page as pages are free.** By induction on the calls before.
Source: `sys/page_allocator.cpp` `PageAllocator::AllocLocal`
Kind: P -/
theorem NodeInv.allocCalls_iff (h : NodeInv s n [] held S) (hzero : 0 ∉ S) (hS : noPfn ∉ S) :
    allocCalls n k s ≠ noPfn ↔ k < room n s := by
  induction k generalizing s held with
  | zero =>
      rcases h.allocLocal (Nat.zero_le maxOrder) (h.not_takesNull hzero) with hnone | ⟨p', s', hsome, hinv, -⟩
      · rw [allocCalls_empty hnone, room_of_allocLocal hnone (h.not_takesNull hzero)]
        exact iff_of_false (fun h => h rfl) (lt_irrefl 0)
      · have hroom := h.room_eq.trans hinv.room_eq.symm
        rw [List.map_cons, List.sum_cons, pow_zero] at hroom
        rw [allocCalls_zero hsome]
        exact iff_of_true (fun heq => hS (heq ▸ hinv.last_mem.1)) (by omega)
  | succ k ih =>
      rcases h.allocLocal (Nat.zero_le maxOrder) (h.not_takesNull hzero) with hnone | ⟨p', s', hsome, hinv, -⟩
      · rw [allocCalls_empty hnone, room_of_allocLocal hnone (h.not_takesNull hzero)]
        exact iff_of_false (fun h => h rfl) (Nat.not_lt_zero _)
      · have hroom := h.room_eq.trans hinv.room_eq.symm
        rw [List.map_cons, List.sum_cons, pow_zero] at hroom
        rw [allocCalls_succ hsome]
        exact (ih hinv).trans (by omega)

end PageState

end EbbRT
