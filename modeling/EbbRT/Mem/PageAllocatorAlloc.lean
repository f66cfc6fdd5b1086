import EbbRT.Mem.PageAllocatorInv

/-!
# Allocation takes the smallest block that suffices

`WellFormed` says that the free lists of a node hold disjoint aligned blocks whose heads have the right
metadata. From any such state without a block at page 0, whose entry is at the null address, `AllocLocal`
either finds no list to serve the request from, and changes nothing, or takes a block of the smallest order
that suffices and gives its upper halves back, one of each order below it (`allocLocal_exact`). Of the pages it returns only the first one is marked: the other
`page` structures are as they were.
-/

namespace EbbRT

open EbbRT.Lib

namespace PageState

/-! ## Well-formed states -/

/-- The free blocks of a node are aligned and disjoint, and the metadata matches them.
Source: `sys/page_allocator.hpp` `PageAllocator::free_page_lists`
Kind: D -/
structure WellFormed (s : PageState) (n : ℕ) : Prop where
  aligned : ∀ b ∈ s.freeBlocks n, b.Aligned
  disjoint : (s.freeBlocks n).Pairwise fun a b => Disjoint a.cells b.cells
  /-- The head of a free block says so, with the block's order. -/
  head : ∀ b ∈ s.freeBlocks n,
    (s.pages b.start).usage = .pageAllocator ∧ (s.pages b.start).order = b.order
  /-- Every free page has a `page` structure. -/
  present : ∀ b ∈ s.freeBlocks n, ∀ p ∈ b.cells, s.present (pfnToSectionNum p) = true

variable {s s' : PageState} {n order m p d : ℕ} {cur held : List Block} {S : Set ℕ}

/-- The pages of the free blocks of a node. Source: none: infrastructure. Kind: D -/
def freePages (s : PageState) (n : ℕ) : Set ℕ := {p | ∃ b ∈ s.freeBlocks n, p ∈ b.cells}

/-- A well-formed state has the invariant of the node, over its free pages.
Source: none: infrastructure
Kind: L -/
theorem WellFormed.nodeInv (h : WellFormed s n) : NodeInv s n [] [] (s.freePages n) where
  tiles := ⟨h.disjoint, fun _ => Iff.rfl⟩
  aligned := h.aligned
  small _ hb := absurd hb List.not_mem_nil
  freeHead := h.head
  heldHead _ hb := absurd hb List.not_mem_nil
  present p hp := by
    obtain ⟨b, hb, hpb⟩ := hp
    exact h.present b hb p hpb

/-- The invariant of the node gives a well-formed state, whatever is held.
Source: none: infrastructure
Kind: L -/
theorem NodeInv.wellFormed (h : NodeInv s n cur held S) : WellFormed s n where
  aligned b hb := h.aligned b (List.mem_append_right _ hb)
  disjoint := (List.pairwise_append.mp h.tiles.disjoint).2.1
  head := h.freeHead
  present _ hb p hp := h.present p (h.tiles.mem_of_mem_part (List.mem_append_right _ hb) hp)

/-! ## What an allocation does -/

/-- The upper halves that splitting a block at `p` of order `m` down to `order` gives back: one block of
each order below `m`.
Source: `sys/page_allocator.cpp` `PageAllocator::AllocLocal`
Kind: D -/
def halves (p order m : ℕ) : List Block :=
  (List.range' order (m - order)).map fun i => ⟨p + 2 ^ i, i⟩

/-- An allocation of order `order` takes the block at `p` of order `m`.
Source: `sys/page_allocator.cpp` `PageAllocator::AllocLocal`
Kind: D -/
structure Takes (s s' : PageState) (n order m p : ℕ) : Prop where
  /-- The block that is taken is free and suffices. -/
  taken : ⟨p, m⟩ ∈ s.freeBlocks n ∧ order ≤ m
  /-- No smaller one suffices. -/
  smallest : ∀ b ∈ s.freeBlocks n, order ≤ b.order → m ≤ b.order
  /-- The block returned and the halves given back tile the one taken. -/
  tiles : Partitions Block.cells (⟨p, order⟩ :: halves p order m) (⟨p, m⟩ : Block).cells
  /-- The free blocks are the halves and the other free blocks. -/
  free : (s'.freeBlocks n).Perm (halves p order m ++ (s.freeBlocks n).erase ⟨p, m⟩)
  /-- The first page is marked. -/
  inUse : (s'.pages p).usage = .inUse
  /-- Only the first page and the heads of the halves are written. -/
  pages : ∀ q, q ≠ p → (∀ b ∈ halves p order m, q ≠ b.start) → s'.pages q = s.pages q
  /-- The other nodes keep their lists. -/
  lists : ∀ n', n' ≠ n → ∀ k ≤ maxOrder, s'.lists n' k = s.lists n' k
  wellFormed : WellFormed s' n

/-- Nothing is split. Source: none: infrastructure. Kind: L -/
theorem halves_self (p order : ℕ) : halves p order order = [] := by
  unfold halves
  rw [Nat.sub_self]
  rfl

/-- Splitting once more gives one more half back. Source: none: infrastructure. Kind: L -/
theorem halves_succ (p order d : ℕ) :
    halves p order (order + (d + 1)) = halves p order (order + d) ++ [⟨p + 2 ^ (order + d), order + d⟩] := by
  unfold halves
  rw [Nat.add_sub_cancel_left, Nat.add_sub_cancel_left, List.range'_concat, List.map_append, one_mul]
  rfl

/-- The block kept and the halves tile the block that is split.
Source: `sys/page_allocator.cpp` `PageAllocator::AllocLocal`
Kind: L -/
theorem partitions_halves (p order d : ℕ) :
    Partitions Block.cells (⟨p, order⟩ :: halves p order (order + d))
      (⟨p, order + d⟩ : Block).cells := by
  induction d with
  | zero =>
      rw [Nat.add_zero, halves_self, ← Set.empty_union (⟨p, order⟩ : Block).cells]
      exact partitions_nil.cons (Set.empty_disjoint _)
  | succ d ih =>
      rw [← Nat.add_assoc, Block.cells_succ, Nat.add_assoc, halves_succ]
      refine (ih.cons (Block.disjoint_halves p (order + d))).perm ?_
      rw [← List.cons_append]
      exact (List.perm_append_singleton _ _).symm

/-- A block put on its list is one more free block, and only its head is written.
Source: `sys/page_allocator.cpp` `PageAllocator::FreePageNoCoalesce`
Kind: L -/
theorem freePageNoCoalesce_spec {b : Block} (hk : b.order ≤ maxOrder)
    (h : freePageNoCoalesce n b.start b.order s = some s') :
    (s'.freeBlocks n).Perm (b :: s.freeBlocks n) ∧ ∀ q, q ≠ b.start → s'.pages q = s.pages q := by
  unfold freePageNoCoalesce at h
  dsimp only at h
  split at h
  · exact (Option.some_ne_none _ h.symm).elim
  · obtain rfl := Option.some.inj h
    constructor
    · refine binned_cons (Nat.lt_succ_of_le hk) ?_ fun j _ hj => ?_
      · rw [setPage_lists, setList_lists_self]
      · rw [setPage_lists, setList_lists_of_ne (Or.inr hj)]
    · intro q hq
      rw [setPage_pages_of_ne hq, setList_pages]

/-- **The split loop** gives back the upper halves and writes their heads only.
Source: `sys/page_allocator.cpp` `PageAllocator::AllocLocal`
Kind: P -/
theorem NodeInv.splitTo_spec (h : NodeInv s n [⟨p, order + d⟩] held S) :
    ∃ s', PageState.splitTo n p order d s = some s' ∧ NodeInv s' n [⟨p, order⟩] held S ∧
      Frame s s' n S ∧
      (s'.freeBlocks n).Perm (halves p order (order + d) ++ s.freeBlocks n) ∧
      ∀ q, (∀ b ∈ halves p order (order + d), q ≠ b.start) → s'.pages q = s.pages q := by
  induction d generalizing s with
  | zero =>
      refine ⟨s, rfl, h, Frame.refl s n S, ?_, fun _ _ => rfl⟩
      rw [Nat.add_zero, halves_self, List.nil_append]
  | succ d ih =>
      have hdvd : 2 ^ (order + d + 1) ∣ p := h.aligned ⟨p, order + d + 1⟩ List.mem_cons_self
      have hsucc : NodeInv s n [⟨p, (order + d) + 1⟩] held S := h
      have hsmall : order + d ≤ maxOrder :=
        Nat.le_of_succ_le (h.small ⟨p, order + d + 1⟩ List.mem_cons_self)
      obtain ⟨s₁, hpush, hinv₁, hf₁⟩ := hsucc.split.push
      obtain ⟨hfree₁, hpages₁⟩ := freePageNoCoalesce_spec hsmall hpush
      obtain ⟨s₂, hrest, hinv₂, hf₂, hfree₂, hpages₂⟩ := ih hinv₁
      refine ⟨s₂, ?_, hinv₂, hf₁.trans hf₂, ?_, fun q hq => ?_⟩
      · rw [PageState.splitTo, pfnToBuddy_eq, buddy_of_dvd hdvd, hpush, Option.bind_some, hrest]
      · rw [halves_succ, List.append_assoc, List.singleton_append]
        exact hfree₂.trans (hfree₁.append_left _)
      · rw [halves_succ] at hq
        have hlast := hq ⟨p + 2 ^ (order + d), order + d⟩
          (List.mem_append_right _ (List.mem_singleton_self _))
        rw [hpages₂ q fun b hb => hq b (List.mem_append_left _ hb), hpages₁ q hlast]

/-- The search comes to nothing when all lists from the order on are empty.
Source: `sys/page_allocator.cpp` `PageAllocator::AllocLocal`
Kind: L -/
theorem findFree_eq_none {fuel k : ℕ} (h : s.findFree n fuel k = none) :
    ∀ i, k ≤ i → i < k + fuel → s.lists n i = [] := by
  induction fuel generalizing k with
  | zero =>
      intro i hi hlt
      omega
  | succ fuel ih =>
      rw [findFree] at h
      cases hl : s.lists n k with
      | nil =>
          rw [hl] at h
          intro i hi hlt
          rcases Nat.eq_or_lt_of_le hi with rfl | hi
          · exact hl
          · exact ih h i hi (by omega)
      | cons fp l =>
          rw [hl] at h
          exact (Option.some_ne_none _ h).elim

/-- There is no free block from the order on exactly when the search comes to nothing.
Source: `sys/page_allocator.cpp` `PageAllocator::AllocLocal`
Kind: L -/
theorem findFree_eq_none_iff (s : PageState) (n order : ℕ) :
    s.findFree n (maxOrder + 1 - order) order = none ↔ ∀ b ∈ s.freeBlocks n, b.order < order := by
  constructor
  · intro hnone b hb
    obtain ⟨hk, hstart⟩ := mem_binned.mp hb
    by_contra hge
    have hempty := findFree_eq_none hnone b.order (Nat.le_of_not_lt hge) (by omega)
    rw [hempty] at hstart
    exact List.not_mem_nil hstart
  · intro hnone
    cases hfind : s.findFree n (maxOrder + 1 - order) order with
    | none => rfl
    | some r =>
        obtain ⟨k, p⟩ := r
        obtain ⟨hk, hk', hlist, -⟩ := findFree_eq_some hfind
        have hmem : (⟨p, k⟩ : Block) ∈ s.freeBlocks n := by
          refine mem_binned.mpr ⟨by dsimp only; omega, ?_⟩
          rw [hlist]
          exact List.mem_cons_self
        have hlt := hnone _ hmem
        dsimp only at hlt
        omega

/-- **A request that can be served** takes a block of the smallest order that suffices.
Source: `sys/page_allocator.cpp` `PageAllocator::AllocLocal`
Kind: P -/
theorem WellFormed.takes {k : ℕ} (h : WellFormed s n) (hzero : p ≠ 0)
    (hfind : s.findFree n (maxOrder + 1 - order) order = some (k, p)) :
    ∃ s', allocLocal n order s = some (some p, s') ∧ Takes s s' n order k p := by
  obtain ⟨hk, hk', hlist, hbefore⟩ := findFree_eq_some hfind
  have hmax : k ≤ maxOrder := by omega
  obtain ⟨d, rfl⟩ := Nat.exists_eq_add_of_le hk
  obtain ⟨hpop, hf₁⟩ := h.nodeInv.pop hmax hlist
  obtain ⟨s₂, hsplit, hinv₂, hf₂, hfree₂, hpages₂⟩ := hpop.splitTo_spec
  have hpage : s₂.pfnToPage p = some (s₂.pages p) := by
    have hpresent := hinv₂.present p hinv₂.start_mem
    unfold pfnToPage
    rw [if_pos hpresent]
  have hmark : ({ s₂.pages p with usage := .inUse } : Page).usage ≠ .pageAllocator := by
    intro husage
    cases husage
  obtain ⟨hinv₃, hf₃⟩ := hinv₂.hold hmark
  have hfree₁ : (s.freeBlocks n).Perm
      (⟨p, order + d⟩ :: (s.setList n (order + d) (s.lists n (order + d)).tail).freeBlocks n) := by
    refine binned_cons (Nat.lt_succ_of_le hmax) ?_ fun j _ hj => ?_
    · rw [setList_lists_self]
      exact hlist
    · rw [setList_lists_of_ne (Or.inr hj)]
  have hmem : (⟨p, order + d⟩ : Block) ∈ s.freeBlocks n :=
    hfree₁.mem_iff.mpr List.mem_cons_self
  have hframe := (hf₁.trans hf₂).trans hf₃
  refine ⟨_, ?_, ⟨hmem, hk⟩, fun b hb hge => ?_, partitions_halves p order d, ?_, ?_, fun q hq hhalves => ?_,
    hframe.lists, hinv₃.wellFormed⟩
  · simp only [allocLocal, hfind, if_neg hzero, Nat.add_sub_cancel_left, hsplit, Option.bind_some, hpage]
  · -- the lists that were searched before are empty
    by_contra hlt
    have hempty := hbefore b.order hge (Nat.lt_of_not_le hlt)
    have hstart := (mem_binned.mp hb).2
    rw [hempty] at hstart
    exact List.not_mem_nil hstart
  · refine hfree₂.trans (List.Perm.append_left _ ?_)
    have herase := hfree₁.erase ⟨p, order + d⟩
    rw [List.erase_cons_head] at herase
    exact herase.symm
  · rw [setPage_pages_self]
  · rw [setPage_pages_of_ne hq, hpages₂ q hhalves, setList_pages]

/-- **Allocation is exact.** In a well-formed state without a block at page 0 `AllocLocal` returns `NO_PFN`
exactly when no free block is large enough, and then leaves the state alone; otherwise it takes a block of
the smallest order that suffices, marks its first page and gives the upper halves back.
Source: `sys/page_allocator.cpp` `PageAllocator::AllocLocal`, `PageAllocator::FreePageNoCoalesce`
Kind: C
Hyps: `hzero`, since a block at page 0 is popped and then taken for the null pointer (`TakesNull`) -/
theorem allocLocal_exact (s : PageState) (n order : ℕ) (hw : WellFormed s n)
    (hzero : ∀ b ∈ s.freeBlocks n, b.start ≠ 0) :
    ((∃ s', allocLocal n order s = some (none, s')) ↔ ∀ b ∈ s.freeBlocks n, b.order < order) ∧
      (∀ s', allocLocal n order s = some (none, s') → s' = s) ∧
      ((∃ b ∈ s.freeBlocks n, order ≤ b.order) →
        ∃ m p s', allocLocal n order s = some (some p, s') ∧ Takes s s' n order m p) := by
  have hnone := findFree_eq_none_iff s n order
  cases hfind : s.findFree n (maxOrder + 1 - order) order with
  | none =>
      have hcall : allocLocal n order s = some (none, s) := by
        simp only [allocLocal, hfind]
      have hall := hnone.mp hfind
      refine ⟨⟨fun _ => hall, fun _ => ⟨s, hcall⟩⟩, fun s' hs' => ?_, ?_⟩
      · rw [hcall] at hs'
        exact ((Prod.mk.inj (Option.some.inj hs')).2).symm
      · rintro ⟨b, hb, hge⟩
        exact absurd (hall b hb) hge.not_gt
  | some r =>
      obtain ⟨m, p⟩ := r
      obtain ⟨hm, hm', hlist, -⟩ := findFree_eq_some hfind
      have hmem : (⟨p, m⟩ : Block) ∈ s.freeBlocks n := by
        refine mem_binned.mpr ⟨by dsimp only; omega, ?_⟩
        rw [hlist]
        exact List.mem_cons_self
      obtain ⟨t, hcall, htakes⟩ := hw.takes (hzero _ hmem) hfind
      have hsome : ∀ s', allocLocal n order s ≠ some (none, s') := by
        intro s' hs'
        rw [hcall] at hs'
        exact Option.some_ne_none _ (Prod.mk.inj (Option.some.inj hs')).1
      refine ⟨⟨?_, fun hall => ?_⟩, fun s' hs' => absurd hs' (hsome s'), fun _ => ⟨m, p, t, hcall, htakes⟩⟩
      · rintro ⟨s', hs'⟩
        exact absurd hs' (hsome s')
      · have hfind' := hnone.mpr hall
        rw [hfind] at hfind'
        exact (Option.some_ne_none _ hfind').elim

/-- One node with one free block, of order 2 at page 4.
Source: none: infrastructure
Kind: D -/
def oneBlock : PageState where
  present _ := true
  pages p := if p = 4 then ⟨.pageAllocator, 2⟩ else ⟨.reserved, 0⟩
  lists n k := if n = 0 ∧ k = 2 then [4] else []

/-- It is well formed. Source: none: infrastructure. Kind: L -/
theorem wellFormed_oneBlock : WellFormed oneBlock 0 := by
  have hfree : oneBlock.freeBlocks 0 = [⟨4, 2⟩] := rfl
  refine ⟨fun b hb => ?_, ?_, fun b hb => ?_, fun _ _ _ _ => rfl⟩
  · rw [hfree] at hb
    obtain rfl := List.mem_singleton.mp hb
    decide
  · rw [hfree]
    exact List.pairwise_singleton _ _
  · rw [hfree] at hb
    obtain rfl := List.mem_singleton.mp hb
    exact ⟨rfl, rfl⟩

/-- A page is allocated from the block of order 2.
Source: `sys/page_allocator.cpp` `PageAllocator::AllocLocal`
Kind: C -/
theorem allocLocal_exact_page :
    ∃ m p s', allocLocal 0 0 oneBlock = some (some p, s') ∧ Takes oneBlock s' 0 0 m p :=
  (allocLocal_exact oneBlock 0 0 wellFormed_oneBlock (by decide)).2.2
    ⟨⟨4, 2⟩, by decide, by decide⟩

/-- Two pages from the block of order 2: the second one is not marked.
Source: `sys/page_allocator.cpp` `PageAllocator::AllocLocal`
Kind: C -/
theorem allocLocal_not_all_inUse :
    ¬ ∀ (s : PageState) (n order : ℕ), WellFormed s n → order ≤ maxOrder →
      ∀ p s', allocLocal n order s = some (some p, s') →
        ∀ q ∈ (⟨p, order⟩ : Block).cells, (s'.pages q).usage = .inUse := by
  intro hall
  obtain ⟨s', hs'⟩ : ∃ s', allocLocal 0 1 oneBlock = some (some 4, s') := ⟨_, rfl⟩
  have husage := hall oneBlock 0 1 wellFormed_oneBlock (by decide) 4 s' hs' 5 (by simp)
  obtain rfl := (Prod.mk.inj (Option.some.inj hs')).2
  exact absurd husage (by decide)

end PageState

end EbbRT
