import EbbRT.Mem.PageAllocator

/-!
# What every operation of the buddy allocator keeps

`NodeInv s n cur held S`: the free blocks of node `n`, the blocks its callers hold and the blocks
an operation has in hand (`cur`) partition the page set `S`, all naturally aligned, and the head
frame of every *block of the partition* tells the truth: a free block's head carries its order, a
held block's head is not marked free. A block at page 0 that `AllocLocal` has lost counts as held, with
the mark of a free one. Nothing is said about inner frames, whose structures are
stale. The invariant has one move for each thing an operation does with a block: take it off a
list (`pop`), split it, merge it with its buddy, put it on a list (`push`), hand it out (`hold`).
`Frame` says what a move on one node leaves alone, and `Inv` puts the nodes together.
-/

namespace EbbRT

open EbbRT.Lib

namespace PageState

/-- The free blocks of a node: an entry `pfn` on list `k` covers `[pfn, pfn + 2 ^ k)`.
Source: `sys/page_allocator.hpp` `PageAllocator::free_page_lists`
Kind: D -/
def freeBlocks (s : PageState) (n : ℕ) : List Block := binned (maxOrder + 1) (s.lists n)

/-- The invariant of one node.
Source: none: infrastructure
Kind: D -/
structure NodeInv (s : PageState) (n : ℕ) (cur held : List Block) (S : Set ℕ) : Prop where
  /-- Every page of the node is in exactly one block. -/
  tiles : Partitions Block.cells (cur ++ held ++ s.freeBlocks n) S
  /-- Every block is naturally aligned. -/
  aligned : ∀ b ∈ cur ++ held ++ s.freeBlocks n, b.Aligned
  /-- No block is larger than the largest order. -/
  small : ∀ b ∈ cur ++ held, b.order ≤ maxOrder
  /-- The head of a free block says so, with the block's order. -/
  freeHead : ∀ b ∈ s.freeBlocks n,
    (s.pages b.start).usage = .pageAllocator ∧ (s.pages b.start).order = b.order
  /-- The head of a held block is not marked free, page 0 apart: a block there is lost, not handed out. -/
  heldHead : ∀ b ∈ held, b.start ≠ 0 → (s.pages b.start).usage ≠ .pageAllocator
  /-- Every page of the node has a `page` structure. -/
  present : ∀ p ∈ S, s.present (pfnToSectionNum p) = true

/-- What a step on node `n`, whose pages are `S`, leaves alone.
Source: none: infrastructure
Kind: D -/
structure Frame (s s' : PageState) (n : ℕ) (S : Set ℕ) : Prop where
  present : s'.present = s.present
  lists : ∀ m, m ≠ n → ∀ k ≤ maxOrder, s'.lists m k = s.lists m k
  pages : ∀ p, p ∉ S → s'.pages p = s.pages p

variable {s s' s'' : PageState} {n m : ℕ} {cur held : List Block} {S T : Set ℕ}

/-- Nothing changed. Source: none: infrastructure. Kind: L -/
theorem Frame.refl (s : PageState) (n : ℕ) (S : Set ℕ) : Frame s s n S :=
  ⟨rfl, fun _ _ _ _ => rfl, fun _ _ => rfl⟩

/-- Two steps. Source: none: infrastructure. Kind: L -/
theorem Frame.trans (h : Frame s s' n S) (h' : Frame s' s'' n S) : Frame s s'' n S where
  present := h'.present.trans h.present
  lists m hm k hk := (h'.lists m hm k hk).trans (h.lists m hm k hk)
  pages p hp := (h'.pages p hp).trans (h.pages p hp)

/-- A node is untouched by a step on another node's pages and lists.
Source: none: infrastructure
Kind: L -/
theorem NodeInv.of_frame (h : NodeInv s m cur held T) (hmn : m ≠ n) (hST : Disjoint S T)
    (hf : Frame s s' n S) : NodeInv s' m cur held T := by
  have hfree : s'.freeBlocks m = s.freeBlocks m :=
    binned_congr fun k hk => hf.lists m hmn k (Nat.lt_succ_iff.mp hk)
  have hpages : ∀ b ∈ cur ++ held ++ s.freeBlocks m, s'.pages b.start = s.pages b.start :=
    fun b hb => hf.pages _ fun hS => Set.disjoint_left.mp hST hS
      (h.tiles.mem_of_mem_part hb b.start_mem_cells)
  refine ⟨hfree ▸ h.tiles, hfree ▸ h.aligned, h.small, fun b hb => ?_, fun b hb => ?_,
    fun p hp => hf.present ▸ h.present p hp⟩
  · rw [hfree] at hb
    rw [hpages b (List.mem_append_right _ hb)]
    exact h.freeHead b hb
  · rw [hpages b (List.mem_append_left _ (List.mem_append_right _ hb))]
    exact h.heldHead b hb

/-- The head of the block in hand heads no other block.
Source: none: infrastructure
Kind: L -/
theorem NodeInv.start_ne {b b' : Block} (h : NodeInv s n (b :: cur) held S)
    (hb' : b' ∈ cur ++ held ++ s.freeBlocks n) : b'.start ≠ b.start := by
  intro he
  have hd : Disjoint b.cells b'.cells := h.tiles.disjoint_of_cons hb'
  exact Set.disjoint_left.mp hd b.start_mem_cells (he ▸ b'.start_mem_cells)

/-- The pages of the block in hand are pages of the node.
Source: none: infrastructure
Kind: L -/
theorem NodeInv.start_mem {b : Block} (h : NodeInv s n (b :: cur) held S) : b.start ∈ S :=
  h.tiles.mem_of_mem_part (List.mem_cons_self ..) b.start_mem_cells

/-- A write to the head frame of the block in hand and to the node's own lists is a step on the
node. Source: none: infrastructure. Kind: L -/
theorem frame_setList_setPage {p : ℕ} (hp : p ∈ S) (k : ℕ) (l : List ℕ) (page : Page) :
    Frame s ((s.setList n k l).setPage p page) n S where
  present := rfl
  lists _ hm _ _ := setList_lists_of_ne (Or.inl hm) s l
  pages q hq := setPage_pages_of_ne (fun he : q = p => hq (he ▸ hp)) _ _

/-- **Put the block in hand on its list.** `FreePageNoCoalesce` does not abort.
Source: `sys/page_allocator.cpp` `PageAllocator::FreePageNoCoalesce`
Kind: P -/
theorem NodeInv.push {b : Block} (h : NodeInv s n (b :: cur) held S) :
    ∃ s', freePageNoCoalesce n b.start b.order s = some s' ∧ NodeInv s' n cur held S ∧
      Frame s s' n S := by
  have hS := h.start_mem
  have hk : b.order < maxOrder + 1 := Nat.lt_succ_of_le (h.small b (List.mem_cons_self ..))
  have hpage : (s.setList n b.order (b.start :: s.lists n b.order)).pfnToPage b.start =
      some (s.pages b.start) := by
    simp [pfnToPage, h.present _ hS]
  refine ⟨_, by simp only [freePageNoCoalesce, hpage]; rfl, ?_, frame_setList_setPage hS _ _ _⟩
  set s₁ := (s.setList n b.order (b.start :: s.lists n b.order)).setPage b.start
    { usage := .pageAllocator, order := b.order } with hs₁
  have hfree : (s₁.freeBlocks n).Perm (b :: s.freeBlocks n) :=
    binned_cons hk (by simp [hs₁]) fun j _ hj => by
      rw [hs₁, setPage_lists, setList_lists_of_ne (Or.inr hj)]
  have hperm : (b :: (cur ++ held ++ s.freeBlocks n)).Perm (cur ++ held ++ s₁.freeBlocks n) :=
    List.perm_middle.symm.trans (hfree.symm.append_left _)
  refine ⟨h.tiles.perm hperm, fun b' hb' => h.aligned b' (hperm.mem_iff.mpr hb'),
    fun b' hb' => h.small b' (List.mem_cons_of_mem _ hb'), fun b' hb' => ?_, fun b' hb' => ?_,
    h.present⟩
  · rcases List.mem_cons.mp (hfree.mem_iff.mp hb') with rfl | hb'
    · simp [hs₁]
    · rw [hs₁, setPage_pages_of_ne (h.start_ne (List.mem_append_right _ hb')), setList_pages]
      exact h.freeHead b' hb'
  · rw [hs₁, setPage_pages_of_ne
      (h.start_ne (List.mem_append_left _ (List.mem_append_right _ hb'))), setList_pages]
    exact h.heldHead b' hb'

/-- **Take the head block of a list in hand.**
Source: `sys/page_allocator.cpp` `PageAllocator::AllocLocal`
Kind: P -/
theorem NodeInv.pop {k : ℕ} {p : ℕ} {l : List ℕ} (h : NodeInv s n cur held S)
    (hk : k ≤ maxOrder) (hl : s.lists n k = p :: l) :
    NodeInv (s.setList n k l) n (⟨p, k⟩ :: cur) held S ∧ Frame s (s.setList n k l) n S := by
  have hfree : (s.freeBlocks n).Perm (⟨p, k⟩ :: (s.setList n k l).freeBlocks n) :=
    binned_cons (Nat.lt_succ_of_le hk) (by simpa using hl) fun j _ hj => by
      rw [setList_lists_of_ne (Or.inr hj)]
  have hperm : (cur ++ held ++ s.freeBlocks n).Perm
      (⟨p, k⟩ :: (cur ++ held ++ (s.setList n k l).freeBlocks n)) :=
    (hfree.append_left _).trans List.perm_middle
  refine ⟨⟨h.tiles.perm hperm, fun b hb => h.aligned b (hperm.mem_iff.mpr hb), ?_,
    fun b hb => h.freeHead b (hfree.mem_iff.mpr (List.mem_cons_of_mem _ hb)), h.heldHead,
    h.present⟩, rfl, fun m hm j _ => setList_lists_of_ne (Or.inl hm) s l, fun _ _ => rfl⟩
  intro b hb
  rcases List.mem_cons.mp hb with rfl | hb
  · exact hk
  · exact h.small b hb

/-- **Split the block in hand** into its halves.
Source: `sys/page_allocator.cpp` `PageAllocator::AllocLocal`
Kind: P -/
theorem NodeInv.split {p k : ℕ} (h : NodeInv s n (⟨p, k + 1⟩ :: cur) held S) :
    NodeInv s n (⟨p + 2 ^ k, k⟩ :: ⟨p, k⟩ :: cur) held S := by
  have hal : 2 ^ (k + 1) ∣ p := h.aligned ⟨p, k + 1⟩ (List.mem_cons_self ..)
  have hal' : 2 ^ k ∣ p := (Nat.pow_dvd_pow 2 (Nat.le_succ k)).trans hal
  have hk : k + 1 ≤ maxOrder := h.small ⟨p, k + 1⟩ (List.mem_cons_self ..)
  refine ⟨?_, fun b hb => ?_, fun b hb => ?_, h.freeHead, h.heldHead, h.present⟩
  · exact ((partitions_split (Block.cells_succ p k) (Block.disjoint_halves p k)).mp h.tiles).perm
      (List.Perm.swap _ _ _)
  · simp only [List.cons_append, List.mem_cons] at hb
    rcases hb with rfl | rfl | hb
    · exact Nat.dvd_add hal' (dvd_refl _)
    · exact hal'
    · exact h.aligned b (List.mem_cons_of_mem _ hb)
  · simp only [List.cons_append, List.mem_cons] at hb
    rcases hb with rfl | rfl | hb
    · exact Nat.le_of_succ_le hk
    · exact Nat.le_of_succ_le hk
    · exact h.small b (List.mem_cons_of_mem _ hb)

/-- **Hand the block in hand out**: its head frame is marked in use.
Source: `sys/page_allocator.cpp` `PageAllocator::AllocLocal`
Kind: P -/
theorem NodeInv.hold {b : Block} {page : Page} (h : NodeInv s n (b :: cur) held S)
    (hpage : page.usage ≠ .pageAllocator) :
    NodeInv (s.setPage b.start page) n cur (b :: held) S ∧
      Frame s (s.setPage b.start page) n S := by
  have hperm : (b :: (cur ++ held ++ s.freeBlocks n)).Perm
      (cur ++ (b :: held) ++ s.freeBlocks n) := by
    have hmiddle : (cur ++ b :: (held ++ s.freeBlocks n)).Perm (b :: (cur ++ (held ++ s.freeBlocks n))) :=
      List.perm_middle
    simpa using hmiddle.symm
  refine ⟨⟨h.tiles.perm hperm, fun b' hb' => h.aligned b' (hperm.mem_iff.mpr hb'),
    fun b' hb' => ?_, fun b' hb' => ?_, fun b' hb' => ?_, h.present⟩, rfl, fun _ _ _ _ => rfl,
    fun q hq => setPage_pages_of_ne (fun he : q = b.start => hq (he ▸ h.start_mem)) _ _⟩
  · refine h.small b' ?_
    simp only [List.cons_append, List.mem_append, List.mem_cons] at hb' ⊢
    tauto
  · rw [setPage_pages_of_ne (h.start_ne (List.mem_append_right _ hb'))]
    exact h.freeHead b' hb'
  · rcases List.mem_cons.mp hb' with rfl | hb'
    · intro _
      simpa using hpage
    · rw [setPage_pages_of_ne (h.start_ne (List.mem_append_left _ (List.mem_append_right _ hb')))]
      exact h.heldHead b' hb'

/-- **Lose the block in hand**, at page 0: nothing is written.
Source: `sys/page_allocator.cpp` `PageAllocator::AllocLocal`
Kind: P -/
theorem NodeInv.lose {k : ℕ} (h : NodeInv s n (⟨0, k⟩ :: cur) held S) : NodeInv s n cur (⟨0, k⟩ :: held) S := by
  have hperm : (⟨0, k⟩ :: (cur ++ held)).Perm (cur ++ ⟨0, k⟩ :: held) := List.perm_middle.symm
  have hperm' := hperm.append_right (s.freeBlocks n)
  refine ⟨h.tiles.perm hperm', fun b hb => h.aligned b (hperm'.mem_iff.mpr hb),
    fun b hb => h.small b (hperm.mem_iff.mpr hb), h.freeHead, fun b hb hne => ?_, h.present⟩
  rcases List.mem_cons.mp hb with rfl | hb
  · exact absurd rfl hne
  · exact h.heldHead b hb hne

/-- **Take a held block back in hand.**
Source: `sys/page_allocator.cpp` `PageAllocator::Free`
Kind: P -/
theorem NodeInv.unhold {b : Block} (h : NodeInv s n cur held S) (hb : b ∈ held) :
    NodeInv s n (b :: cur) (held.erase b) S := by
  have hperm : (cur ++ held).Perm (b :: cur ++ held.erase b) :=
    ((List.perm_cons_erase hb).append_left cur).trans List.perm_middle
  have hperm' := hperm.append_right (s.freeBlocks n)
  exact ⟨h.tiles.perm hperm', fun b' hb' => h.aligned b' (hperm'.mem_iff.mpr hb'),
    fun b' hb' => h.small b' (hperm.mem_iff.mpr hb'), h.freeHead,
    fun b' hb' => h.heldHead b' (List.mem_of_mem_erase hb'), h.present⟩

/-- **The metadata is truthful about the buddy.** If the frame of the buddy of the block in hand
lies on this node and says it heads a free block of the same order, it does: the buddy is on that
list. (A held block's head would not be marked free, and a block holding the buddy as an inner
frame would hold the block in hand too.)
Source: `sys/page_allocator.cpp` `PageAllocator::Free`
Kind: P -/
theorem NodeInv.buddy_mem {p k : ℕ} (h : NodeInv s n [⟨p, k⟩] held S) (hS : buddy p k ∈ S)
    (hzero : buddy p k ≠ 0) (hfree : s.isFree (buddy p k) k = true) : buddy p k ∈ s.lists n k := by
  obtain ⟨-, husage, horder⟩ := isFree_iff.mp hfree
  have hp : 2 ^ k ∣ p := h.aligned ⟨p, k⟩ (List.mem_cons_self ..)
  obtain ⟨b, hb, hmem⟩ := (h.tiles.cover _).mp hS
  have hpos := Nat.two_pow_pos k
  have hmine : buddy p k ∉ (⟨p, k⟩ : Block).cells := by
    rcases buddy_cases hp with ⟨he, -⟩ | ⟨he, -⟩ <;> simp only [Block.mem_cells] <;> omega
  have hne : b ≠ ⟨p, k⟩ := fun he => hmine (he ▸ hmem)
  have hal := h.aligned b hb
  have hhead : buddy p k = b.start := by
    by_cases hbk : b.order ≤ k
    · exact Block.eq_start_of_dvd hal (dvd_buddy hp) hmem hbk
    · have := mem_cells_of_buddy_mem hal hp (by omega) hmem
      exact absurd (h.tiles.eq_of_mem hb (List.mem_cons_self ..) this
        (Block.start_mem_cells ⟨p, k⟩)) hne
  simp only [List.cons_append, List.nil_append, List.mem_cons, List.mem_append] at hb
  rcases hb with hb | hb | hb
  · exact absurd hb hne
  · exact absurd (hhead ▸ husage) (h.heldHead b hb (hhead ▸ hzero))
  · obtain ⟨-, horder'⟩ := h.freeHead b hb
    rw [← hhead, horder] at horder'
    obtain ⟨-, hlist⟩ := mem_binned.mp hb
    rwa [← hhead, ← horder'] at hlist

/-- **Merge with the buddy above.** One turn of the loop of `Free`.
Source: `sys/page_allocator.cpp` `PageAllocator::Free`
Kind: P -/
theorem NodeInv.merge {p k : ℕ} (h : NodeInv s n [⟨p, k⟩] held S) (hk : k < maxOrder)
    (hup : p < buddy p k) (hb : buddy p k ∈ s.lists n k)
    (hother : ∀ m j, j ≤ maxOrder → m ≠ n ∨ j ≠ k → buddy p k ∉ s.lists m j) :
    NodeInv (s.unlink (buddy p k)) n [⟨p, k + 1⟩] held S ∧
      Frame s (s.unlink (buddy p k)) n S := by
  have hp : 2 ^ k ∣ p := h.aligned ⟨p, k⟩ (List.mem_cons_self ..)
  obtain ⟨he, hal⟩ := buddy_of_lt hp hup
  have hfree : (s.freeBlocks n).Perm
      (⟨p + 2 ^ k, k⟩ :: (s.unlink (buddy p k)).freeBlocks n) := by
    rw [← he]
    refine binned_erase (by omega) hb rfl fun j hj hjk => ?_
    exact List.erase_of_not_mem (hother n j (by omega) (Or.inr hjk))
  refine ⟨⟨?_, fun b hb' => ?_, fun b hb' => ?_, fun b hb' => ?_, h.heldHead, h.present⟩, rfl,
    fun m hm j hj => List.erase_of_not_mem (hother m j hj (Or.inl hm)), fun _ _ => rfl⟩
  · refine (partitions_split (Block.cells_succ p k) (Block.disjoint_halves p k)).mpr ?_
    refine h.tiles.perm (List.Perm.cons _ ?_)
    exact (hfree.append_left held).trans List.perm_middle
  · simp only [List.cons_append, List.nil_append, List.mem_cons, List.mem_append] at hb'
    rcases hb' with rfl | hb' | hb'
    · exact hal
    · exact h.aligned b (by simp [hb'])
    · exact h.aligned b (by simp [hfree.mem_iff, hb'])
  · simp only [List.cons_append, List.nil_append, List.mem_cons] at hb'
    rcases hb' with rfl | hb'
    · exact hk
    · exact h.small b (by simp [hb'])
  · exact h.freeHead b (hfree.mem_iff.mpr (List.mem_cons_of_mem _ hb'))

/-! ## `AllocLocal` -/

/-- What the search of `AllocLocal` finds: the head of the first non-empty list from `k` on.
Source: `sys/page_allocator.cpp` `PageAllocator::AllocLocal`
Kind: L -/
theorem findFree_eq_some {fuel k j : ℕ} {p : ℕ} (h : s.findFree n fuel k = some (j, p)) :
    k ≤ j ∧ j < k + fuel ∧ s.lists n j = p :: (s.lists n j).tail ∧
      ∀ i, k ≤ i → i < j → s.lists n i = [] := by
  induction fuel generalizing k with
  | zero => simp [findFree] at h
  | succ fuel ih =>
      rw [findFree] at h
      cases hl : s.lists n k with
      | nil =>
          rw [hl] at h
          obtain ⟨h1, h2, h3, h4⟩ := ih h
          refine ⟨by omega, by omega, h3, fun i hi hij => ?_⟩
          rcases Nat.eq_or_lt_of_le hi with rfl | hi
          · exact hl
          · exact h4 i hi hij
      | cons fp l =>
          rw [hl] at h
          simp only [Option.some.injEq, Prod.mk.injEq] at h
          obtain ⟨rfl, rfl⟩ := h
          exact ⟨le_rfl, by omega, by rw [hl]; rfl, fun i hi hij => by omega⟩

/-- The split loop gives the upper halves back and keeps a block of the order asked for in hand.
Source: `sys/page_allocator.cpp` `PageAllocator::AllocLocal`
Kind: P -/
theorem NodeInv.splitTo {p order d : ℕ} (h : NodeInv s n [⟨p, order + d⟩] held S) :
    ∃ s', PageState.splitTo n p order d s = some s' ∧ NodeInv s' n [⟨p, order⟩] held S ∧
      Frame s s' n S := by
  induction d generalizing s with
  | zero => exact ⟨s, rfl, h, Frame.refl s n S⟩
  | succ d ih =>
      have hal : 2 ^ (order + d + 1) ∣ p := h.aligned ⟨p, order + d + 1⟩ (List.mem_cons_self ..)
      have hsucc : NodeInv s n [⟨p, (order + d) + 1⟩] held S := h
      obtain ⟨s₁, h1, hinv₁, hf₁⟩ := hsucc.split.push
      obtain ⟨s₂, h2, hinv₂, hf₂⟩ := ih hinv₁
      refine ⟨s₂, ?_, hinv₂, hf₁.trans hf₂⟩
      rw [PageState.splitTo, pfnToBuddy_eq, buddy_of_dvd hal, h1, Option.bind_some, h2]

/-- A node without page 0 has no block there. Source: `sys/page_allocator.cpp` `PageAllocator::AllocLocal`. Kind: L -/
theorem NodeInv.not_takesNull {order : ℕ} (h : NodeInv s n cur held S) (hzero : 0 ∉ S) : ¬TakesNull n order s := by
  intro hnull
  obtain ⟨⟨k, p⟩, hfind, hp⟩ := Option.map_eq_some_iff.mp hnull
  obtain rfl : p = 0 := hp
  obtain ⟨hk, hk', hlist, -⟩ := findFree_eq_some hfind
  have hfree : (⟨0, k⟩ : Block) ∈ s.freeBlocks n := by
    refine mem_binned.mpr ⟨by dsimp only; omega, ?_⟩
    rw [hlist]
    exact List.mem_cons_self
  exact hzero (h.tiles.mem_of_mem_part (List.mem_append_right _ hfree) (Block.start_mem_cells ⟨0, k⟩))

/-- **`AllocLocal` loses a block at page 0**: it is off its list, and nothing is returned.
Source: `sys/page_allocator.cpp` `PageAllocator::AllocLocal`
Kind: P -/
theorem NodeInv.allocLocal_null {order : ℕ} (h : NodeInv s n [] held S) (ho : order ≤ maxOrder)
    (hnull : TakesNull n order s) :
    ∃ k s', PageState.allocLocal n order s = some (none, s') ∧ NodeInv s' n [⟨0, k⟩] held S ∧
      Frame s s' n S := by
  obtain ⟨⟨k, p⟩, hfind, hp⟩ := Option.map_eq_some_iff.mp hnull
  obtain rfl : p = 0 := hp
  obtain ⟨hk, hk', hlist, -⟩ := findFree_eq_some hfind
  obtain ⟨hpop, hf⟩ := h.pop (show k ≤ maxOrder by omega) hlist
  refine ⟨k, _, ?_, hpop, hf⟩
  simp only [PageState.allocLocal, hfind, if_true]

/-- **`AllocLocal` keeps the node's invariant** where it does not come to a block at page 0. It does not
abort; it hands nothing out and leaves the state alone, or hands out a block of the order asked for.
Source: `sys/page_allocator.cpp` `PageAllocator::AllocLocal`
Kind: P -/
theorem NodeInv.allocLocal {order : ℕ} (h : NodeInv s n [] held S) (ho : order ≤ maxOrder)
    (hnull : ¬TakesNull n order s) :
    PageState.allocLocal n order s = some (none, s) ∨
      ∃ p s', PageState.allocLocal n order s = some (some p, s') ∧
        NodeInv s' n [] (⟨p, order⟩ :: held) S ∧ Frame s s' n S := by
  cases hfind : s.findFree n (maxOrder + 1 - order) order with
  | none =>
      left
      simp only [PageState.allocLocal, hfind]
  | some r =>
      right
      obtain ⟨k, p⟩ := r
      have hp : p ≠ 0 := by
        rintro rfl
        exact hnull (by rw [TakesNull, hfind]; rfl)
      obtain ⟨hk, hk', hlist, -⟩ := findFree_eq_some hfind
      obtain ⟨d, rfl⟩ := Nat.exists_eq_add_of_le hk
      obtain ⟨hpop, hf₁⟩ := h.pop (show order + d ≤ maxOrder by omega) hlist
      obtain ⟨s₂, h2, hinv₂, hf₂⟩ := hpop.splitTo
      have hpage : s₂.pfnToPage p = some (s₂.pages p) := by
        have := hinv₂.present p hinv₂.start_mem
        simp [pfnToPage, this]
      obtain ⟨hinv₃, hf₃⟩ :=
        hinv₂.hold (show ({ s₂.pages p with usage := .inUse } : Page).usage ≠ .pageAllocator by simp)
      refine ⟨p, _, ?_, hinv₃, (hf₁.trans hf₂).trans hf₃⟩
      simp only [PageState.allocLocal, hfind, if_neg hp, Nat.add_sub_cancel_left, h2, Option.bind_some, hpage]

/-! ## All nodes together -/

/-- The invariant of the whole allocator: `held n` are the blocks obtained from node `n`, `S n`
its pages.
Source: none: infrastructure
Kind: D -/
structure Inv (s : PageState) (held : ℕ → List Block) (S : ℕ → Set ℕ) : Prop where
  /-- Every node keeps its own invariant. -/
  node : ∀ n, NodeInv s n [] (held n) (S n)
  /-- Nodes share no page. -/
  disjoint : ∀ m n, m ≠ n → Disjoint (S m) (S n)
  /-- A frame that no node owns is not marked free. -/
  outside : ∀ p, (s.pages p).usage = .pageAllocator → ∃ n, p ∈ S n

variable {held : ℕ → List Block} {S : ℕ → Set ℕ}

/-- The order of the blocks held does not matter. Source: none: infrastructure. Kind: L -/
theorem Inv.perm {held' : ℕ → List Block} (h : Inv s held S) (hheld : ∀ n, (held n).Perm (held' n)) :
    Inv s held' S where
  node n := by
    have hn := h.node n
    have hperm := (hheld n).append_left []
    have hall := hperm.append_right (s.freeBlocks n)
    exact ⟨hn.tiles.perm hall, fun b hb => hn.aligned b (hall.mem_iff.mpr hb),
      fun b hb => hn.small b (hperm.mem_iff.mpr hb), hn.freeHead,
      fun b hb => hn.heldHead b ((hheld n).mem_iff.mpr hb), hn.present⟩
  disjoint := h.disjoint
  outside := h.outside

/-- A step on one node keeps the invariant of all.
Source: none: infrastructure
Kind: L -/
theorem Inv.step (h : Inv s held S) {l : List Block} (hn : NodeInv s' n [] l (S n))
    (hf : Frame s s' n (S n)) : Inv s' (Function.update held n l) S where
  node m := by
    by_cases hm : m = n
    · subst hm
      rw [Function.update_self]
      exact hn
    · rw [Function.update_of_ne hm]
      exact (h.node m).of_frame hm (h.disjoint n m (Ne.symm hm)) hf
  disjoint := h.disjoint
  outside p hp := by
    by_cases hS : p ∈ S n
    · exact ⟨n, hS⟩
    · exact h.outside p (hf.pages p hS ▸ hp)

/-- The loop of `Free(pfn, order)` passes level `i`: it finds the buddies of all levels from
`order` to `i` free.
Source: `sys/page_allocator.cpp` `PageAllocator::Free`
Kind: D -/
def Passes (s : PageState) (pfn : ℕ) (order i : ℕ) : Prop :=
  order ≤ i ∧ ∀ j < i + 1, order ≤ j → s.isFree (pfnToBuddy pfn j) j = true

instance (s : PageState) (pfn : ℕ) (order i : ℕ) : Decidable (s.Passes pfn order i) :=
  inferInstanceAs (Decidable (_ ∧ _))

/-- Every buddy that `Free(pfn, order)` merges with lies above the block.
Source: `sys/page_allocator.cpp` `PageAllocator::Free`
Kind: D -/
def MergesUp (s : PageState) (pfn : ℕ) (order : ℕ) : Prop :=
  ∀ i < maxOrder, s.Passes pfn order i → pfn < pfnToBuddy pfn i

instance (s : PageState) (pfn : ℕ) (order : ℕ) : Decidable (s.MergesUp pfn order) :=
  inferInstanceAs (Decidable (∀ i < maxOrder, _))

/-- Every buddy that `Free(pfn, order)` merges with is a page of `T`.
Source: `sys/page_allocator.cpp` `PageAllocator::Free`
Kind: D -/
def MergesWithin (s : PageState) (pfn : ℕ) (order : ℕ) (T : Set ℕ) : Prop :=
  ∀ i < maxOrder, s.Passes pfn order i → pfnToBuddy pfn i ∈ T

instance (s : PageState) (pfn : ℕ) (order : ℕ) (T : Set ℕ) [DecidablePred (· ∈ T)] :
    Decidable (s.MergesWithin pfn order T) :=
  inferInstanceAs (Decidable (∀ i < maxOrder, s.Passes pfn order i → pfnToBuddy pfn i ∈ T))

/-- A frame that heads a free block of node `n` is on no other list.
Source: none: infrastructure
Kind: L -/
theorem not_mem_other {p : ℕ} {k : ℕ} {cur rest : List Block} (hn : NodeInv s n cur rest (S n))
    (hoth : ∀ m, m ≠ n → NodeInv s m [] (held m) (S m) ∧ Disjoint (S n) (S m)) (hk : k ≤ maxOrder)
    (hp : p ∈ s.lists n k) (m j : ℕ) (hj : j ≤ maxOrder) (hne : m ≠ n ∨ j ≠ k) :
    p ∉ s.lists m j := by
  intro hmem
  have hhere : (⟨p, k⟩ : Block) ∈ s.freeBlocks n := mem_binned.mpr ⟨by simp; omega, hp⟩
  have hthere : (⟨p, j⟩ : Block) ∈ s.freeBlocks m := mem_binned.mpr ⟨by simp; omega, hmem⟩
  by_cases hm : m = n
  · subst hm
    have h1 := (hn.freeHead _ hhere).2
    have h2 := (hn.freeHead _ hthere).2
    simp only at h1 h2
    omega
  · obtain ⟨hinv, hdis⟩ := hoth m hm
    have h1 : p ∈ S n := hn.tiles.mem_of_mem_part (List.mem_append_right _ hhere)
      (Block.start_mem_cells ⟨p, k⟩)
    have h2 : p ∈ S m := hinv.tiles.mem_of_mem_part (List.mem_append_right _ hthere)
      (Block.start_mem_cells ⟨p, j⟩)
    exact Set.disjoint_left.mp hdis h1 h2

/-! ## `Free` -/

/-- The entries that the loop of `Free` unlinks.
Source: `sys/page_allocator.cpp` `PageAllocator::Free`
Kind: D -/
def unlinked (pfn : ℕ) : ℕ → ℕ → PageState → List ℕ
  | 0, _, _ => []
  | fuel + 1, order, s =>
      let buddy := pfnToBuddy pfn order
      if s.isFree buddy order then
        buddy :: unlinked pfn fuel (order + 1) (s.unlink buddy)
      else []

/-- A level passed before the first unlinking is passed after it.
Source: `sys/page_allocator.cpp` `PageAllocator::Free`
Kind: L -/
theorem Passes.of_unlink {p q : ℕ} {k i : ℕ} (h : (s.unlink q).Passes p (k + 1) i)
    (hk : s.isFree (pfnToBuddy p k) k = true) : s.Passes p k i := by
  refine ⟨by have := h.1; omega, fun j hj hkj => ?_⟩
  rcases Nat.eq_or_lt_of_le hkj with rfl | hlt
  · exact hk
  · exact h.2 j hj hlt

/-- **The loop of `Free`.** As long as every buddy it meets is a page of the node and lies above
the block, it keeps the block in hand, aligned at its new order, and unlinks entries of the
node's own lists only.
Source: `sys/page_allocator.cpp` `PageAllocator::Free`
Kind: P -/
theorem NodeInv.coalesce {p : ℕ} {rest : List Block} {fuel k : ℕ}
    (hn : NodeInv s n [⟨p, k⟩] rest (S n))
    (hoth : ∀ m, m ≠ n → NodeInv s m [] (held m) (S m) ∧ Disjoint (S n) (S m))
    (hfuel : k + fuel = maxOrder)
    (hup : s.MergesUp p k) (hin : s.MergesWithin p k (S n)) :
    NodeInv (PageState.coalesce p fuel k s).2 n [⟨p, (PageState.coalesce p fuel k s).1⟩] rest
        (S n) ∧ Frame s (PageState.coalesce p fuel k s).2 n (S n) ∧
      ∀ q ∈ unlinked p fuel k s, ∀ m, m ≠ n → ∀ j ≤ maxOrder, q ∉ s.lists m j := by
  induction fuel generalizing k s with
  | zero => exact ⟨hn, Frame.refl s n (S n), by simp [unlinked]⟩
  | succ fuel ih =>
      by_cases hfree : s.isFree (pfnToBuddy p k) k = true
      · have hpass : s.Passes p k k := ⟨le_rfl, fun j hj hkj => by
          obtain rfl : j = k := by omega
          exact hfree⟩
        have hkmax : k < maxOrder := by omega
        have hlt := hup k hkmax hpass
        have hmem := hin k hkmax hpass
        rw [pfnToBuddy_eq] at hlt hmem hfree
        have hb : buddy p k ∈ s.lists n k := hn.buddy_mem hmem (Nat.ne_of_gt (Nat.zero_lt_of_lt hlt)) hfree
        have hother := fun m j hj => not_mem_other hn hoth (Nat.le_of_lt hkmax) hb m j hj
        obtain ⟨hn', hf⟩ := hn.merge hkmax hlt hb hother
        have hpassed : ∀ i, (s.unlink (buddy p k)).Passes p (k + 1) i → s.Passes p k i :=
          fun i h => h.of_unlink (by rwa [pfnToBuddy_eq])
        obtain ⟨h1, h2, h3⟩ := ih hn'
          (fun m hm => ⟨(hoth m hm).1.of_frame hm (hoth m hm).2 hf, (hoth m hm).2⟩) (by omega)
          (fun i hi h => hup i hi (hpassed i h)) (fun i hi h => hin i hi (hpassed i h))
        have hco : PageState.coalesce p (fuel + 1) k s =
            PageState.coalesce p fuel (k + 1) (s.unlink (buddy p k)) := by
          simp [PageState.coalesce, hfree]
        have hun : unlinked p (fuel + 1) k s =
            buddy p k :: unlinked p fuel (k + 1) (s.unlink (buddy p k)) := by
          simp [unlinked, hfree]
        rw [hco, hun]
        refine ⟨h1, hf.trans h2, fun q hq m hm j hj => ?_⟩
        rcases List.mem_cons.mp hq with rfl | hq
        · exact hother m j hj (Or.inl hm)
        · have := h3 q hq m hm j hj
          rwa [hf.lists m hm j hj] at this
      · have hco : PageState.coalesce p (fuel + 1) k s = (k, s) := by
          simp only [PageState.coalesce, hfree]
          rfl
        have hun : unlinked p (fuel + 1) k s = [] := by
          simp only [unlinked, hfree]
          rfl
        rw [hco, hun]
        exact ⟨hn, Frame.refl s n (S n), by simp⟩

/-- **`Free` keeps the invariant** when it is called on the allocator of the node the block came
from, every buddy it merges with is of that node and none lies below the block.
Source: `sys/page_allocator.cpp` `PageAllocator::Free`
Kind: P -/
theorem Inv.free {p : ℕ} {k : ℕ} (h : Inv s held S) (hheld : ⟨p, k⟩ ∈ held n)
    (hup : s.MergesUp p k) (hin : s.MergesWithin p k (S n)) :
    (∃ s', PageState.free n p k s = some s' ∧
      Inv s' (Function.update held n ((held n).erase ⟨p, k⟩)) S) ∧
      ∀ q ∈ unlinked p (maxOrder - k) k s, ∀ m, m ≠ n → ∀ j ≤ maxOrder, q ∉ s.lists m j := by
  have hk : k ≤ maxOrder := (h.node n).small ⟨p, k⟩ (by simpa using hheld)
  obtain ⟨hn, hf, hown⟩ := ((h.node n).unhold hheld).coalesce
    (fun m hm => ⟨h.node m, h.disjoint n m (Ne.symm hm)⟩)
    (show k + (maxOrder - k) = maxOrder by omega) hup hin
  obtain ⟨s', hs', hn', hf'⟩ := hn.push
  refine ⟨⟨s', ?_, h.step hn' (hf.trans hf')⟩, hown⟩
  simp only [PageState.free, hk, if_true]
  exact hs'

end PageState

end EbbRT
