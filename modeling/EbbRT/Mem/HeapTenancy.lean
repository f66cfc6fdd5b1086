import EbbRT.Mem.Heap

/-!
# Who has which block of pages

Every block that the page allocators have handed out is a slab of one size class, with that class in its
page structures, or is lent to the rest of the kernel (`Tenancy`). There is one lemma for each thing that a
step of the heap can do to it.
-/

namespace EbbRT

open EbbRT.Lib

namespace Heap

/-! ## Families of lists -/

section Families

variable {α β : Type*} [DecidableEq α] {f : α → List β} {i j : α} {x y : β}

/-- Source: none: infrastructure. Kind: L -/
theorem mem_update_cons : x ∈ Function.update f i (y :: f i) j ↔ j = i ∧ x = y ∨ x ∈ f j := by
  by_cases hj : j = i
  · subst hj
    simp
  · simp [hj]

/-- Source: none: infrastructure. Kind: L -/
theorem mem_update_erase [DecidableEq β] (hnodup : ∀ i, (f i).Nodup) :
    x ∈ Function.update f i ((f i).erase y) j ↔ x ∈ f j ∧ ¬(j = i ∧ x = y) := by
  by_cases hj : j = i
  · subst hj
    rw [Function.update_self, (hnodup j).mem_erase_iff]
    simp [and_comm]
  · simp [hj]

end Families

end Heap

namespace PageState

/-! ## Blocks in use -/

variable {s : PageState} {held : ℕ → List Block} {pages : ℕ → Set ℕ} {b b' : Block} {m n p : ℕ}

/-- A node's blocks, held and free, are disjoint and make up its pages.
Source: none: infrastructure
Kind: L -/
theorem Inv.tiles (h : Inv s held pages) (n : ℕ) :
    Partitions Block.cells (held n ++ s.freeBlocks n) (pages n) := by
  simpa using (h.node n).tiles

/-- No block is in use twice. Source: none: infrastructure. Kind: L -/
theorem Inv.nodup (h : Inv s held pages) (n : ℕ) : (held n).Nodup := by
  have hpairwise := (List.pairwise_append.mp (h.tiles n).disjoint).1
  apply hpairwise.imp
  rintro b b' hdisjoint rfl
  exact Set.disjoint_left.mp hdisjoint b.start_mem_cells b.start_mem_cells

/-- Blocks in use with a common page are the same. Source: none: infrastructure. Kind: L -/
theorem Inv.eq_of_mem (h : Inv s held pages) (hb : b ∈ held m) (hb' : b' ∈ held n) (hp : p ∈ b.cells)
    (hp' : p ∈ b'.cells) : m = n ∧ b = b' := by
  have hm : p ∈ pages m := (h.tiles m).mem_of_mem_part (List.mem_append_left _ hb) hp
  have hn : p ∈ pages n := (h.tiles n).mem_of_mem_part (List.mem_append_left _ hb') hp'
  by_cases hmn : m = n
  · subst hmn
    exact ⟨rfl, (h.tiles m).eq_of_mem (List.mem_append_left _ hb) (List.mem_append_left _ hb') hp hp'⟩
  · exact absurd hn (Set.disjoint_left.mp (h.disjoint m n hmn) hm)

/-- A page of a block in use is not free. Source: none: infrastructure. Kind: L -/
theorem Inv.not_mem_free (h : Inv s held pages) (hb : b ∈ held m) (hp : p ∈ b.cells)
    (hb' : b' ∈ s.freeBlocks n) : p ∉ b'.cells := by
  intro hp'
  have hm : p ∈ pages m := (h.tiles m).mem_of_mem_part (List.mem_append_left _ hb) hp
  have hn : p ∈ pages n := (h.tiles n).mem_of_mem_part (List.mem_append_right _ hb') hp'
  by_cases hmn : m = n
  · subst hmn
    have hdisjoint := (List.pairwise_append.mp (h.tiles m).disjoint).2.2 b hb b' hb'
    exact Set.disjoint_left.mp hdisjoint hp hp'
  · exact Set.disjoint_left.mp (h.disjoint m n hmn) hm hn

/-- A new block in use has no page of another. Source: none: infrastructure. Kind: L -/
theorem Inv.not_mem_new (h : Inv s (Function.update held n (b :: held n)) pages) (hb' : b' ∈ held m)
    (hp : p ∈ b'.cells) : p ∉ b.cells := by
  intro hnew
  obtain ⟨rfl, rfl⟩ := h.eq_of_mem (Heap.mem_update_cons.mpr (Or.inr hb')) (Heap.mem_update_cons.mpr
    (Or.inl ⟨rfl, rfl⟩)) hp hnew
  have hnodup := h.nodup m
  rw [Function.update_self] at hnodup
  exact (List.nodup_cons.mp hnodup).1 hb'

/-- A block in use is aligned and in memory. Source: none: infrastructure. Kind: L -/
theorem Inv.isBlock (h : Inv s held pages) (hphys : ∀ n, ∀ p ∈ pages n, p < maxPhysPfn) (hb : b ∈ held n) :
    IsBlock b.order b.start := by
  refine ⟨(h.node n).aligned b (by simp [hb]), ?_⟩
  have hpos := Nat.two_pow_pos b.order
  have hlast : b.start + 2 ^ b.order - 1 ∈ b.cells := by
    rw [Block.mem_cells]
    omega
  have hlt := hphys n _ ((h.tiles n).mem_of_mem_part (List.mem_append_left _ hb) hlast)
  omega

end PageState

namespace Heap

open PageState (NumaState numaStep nodePages Layout)

/-! ## What the page allocator does -/

/-- **`Alloc`** gives nothing or a new block, where no node has page 0.
Source: `sys/page_allocator.cpp` `PageAllocator::Alloc`
Kind: L -/
theorem allocPages_spec {t : NumaState} {pages : ℕ → Set ℕ} {order : ℕ} (cpu nid : ℕ)
    (h : PageState.Inv t.pages t.held pages) (hzero : ∀ n, 0 ∉ pages n) (ho : order ≤ maxOrder) :
    ∃ page t', allocPages cpu order nid t = some (page, t') ∧ PageState.Inv t'.pages t'.held pages ∧
      (page = none ∧ t'.held = t.held ∨
        ∃ pfn, page = some pfn ∧ t'.held = Function.update t.held nid (⟨pfn, order⟩ :: t.held nid)) := by
  obtain ⟨t', lost, hstep, hinv, -, hnone⟩ := PageState.Inv.alloc cpu nid (fun _ => []) h ho
  rw [hnone ((h.node nid).not_takesNull (hzero nid))] at hinv
  simp only [List.nil_append] at hinv
  obtain ⟨⟨page, p⟩, halloc, rfl⟩ := Option.map_eq_some_iff.mp hstep
  cases page with
  | none => exact ⟨none, _, by rw [allocPages, halloc]; rfl, hinv, Or.inl ⟨rfl, rfl⟩⟩
  | some pfn => exact ⟨some pfn, _, by rw [allocPages, halloc]; rfl, hinv, Or.inr ⟨pfn, rfl, rfl⟩⟩

/-- What **`Alloc`** gives is not page 0. Source: `sys/page_allocator.cpp` `PageAllocator::Alloc`. Kind: L -/
theorem allocPages_ne_zero {t t' : NumaState} {cpu order nid pfn : ℕ}
    (h : allocPages cpu order nid t = some (some pfn, t')) : pfn ≠ 0 := by
  obtain ⟨⟨page, p⟩, halloc, heq⟩ := Option.map_eq_some_iff.mp h
  obtain rfl : page = some pfn := congrArg Prod.fst heq
  exact PageState.alloc_ne_zero halloc

/-- **`Free`** takes a block back.
Source: `sys/page_allocator.cpp` `PageAllocator::Free`
Kind: L -/
theorem freePages_spec {t : NumaState} {pages : ℕ → Set ℕ} {cpu owner pfn order : ℕ}
    (h : PageState.Inv t.pages t.held pages) (hheld : ⟨pfn, order⟩ ∈ t.held owner)
    (hhome : PageState.FreesAtHome pages t (.free cpu owner pfn order)) :
    ∃ t', numaStep t (.free cpu owner pfn order) = some t' ∧ PageState.Inv t'.pages t'.held pages ∧
      t'.held = Function.update t.held owner ((t.held owner).erase ⟨pfn, order⟩) := by
  obtain ⟨rfl, hin, hup⟩ := hhome
  obtain ⟨⟨p, hp, hinv⟩, -⟩ := h.free hheld hup hin
  refine ⟨⟨p, Function.update t.held cpu ((t.held cpu).erase ⟨pfn, order⟩)⟩, ?_, hinv, rfl⟩
  rw [numaStep, hp]
  rfl

/-! ## Who has which block -/

variable {ι : Type*} {C : Config ι} {pages : ℕ → Set ℕ} {t t' : NumaState} {blocks : ι → List ℕ}
  {cacheRoot : ℕ → Option ι} {askedOf : ℕ → ℕ} {lent : List (ℕ × Block)} {i j : ι} {b pfn nid order p o : ℕ}

/-- Every block in use is a slab of one class, with that class in its page structures, or is lent to the
rest of the kernel.
Source: none: infrastructure
Kind: D -/
structure Tenancy (C : Config ι) (pages : ℕ → Set ℕ) (t : NumaState) (blocks : ι → List ℕ)
    (cacheRoot : ℕ → Option ι) (askedOf : ℕ → ℕ) (lent : List (ℕ × Block)) : Prop where
  inv : PageState.Inv t.pages t.held pages
  slab : ∀ i, ∀ b ∈ blocks i, ⟨b, (C.root i).order⟩ ∈ t.held (askedOf b)
  inUse : ∀ l ∈ lent, l.2 ∈ t.held l.1
  apart : ∀ i j b, b ∈ blocks i → b ∈ blocks j → i = j
  notLent : ∀ i, ∀ b ∈ blocks i, ∀ l ∈ lent, l.2.start ≠ b
  nodupBlocks : ∀ i, (blocks i).Nodup
  nodupLent : lent.Nodup
  whole : ∀ n, ∀ b ∈ t.held n,
    (n, b) ∈ lent ∨ ∃ i, b.start ∈ blocks i ∧ b.order = (C.root i).order ∧ askedOf b.start = n
  written : ∀ i, ∀ b ∈ blocks i, ∀ o ∈ (C.root i).objects b, cacheRoot (pfnDown o) = some i

/-- An object starts in a page of its slab.
Source: `sys/slab_allocator.cpp` `SlabCache::AddSlab`
Kind: L -/
theorem pfnDown_mem_cells {root : SlabAllocatorRoot} (hb : IsBlock root.order b) (ho : o ∈ root.objects b) :
    pfnDown o ∈ (⟨b, root.order⟩ : Block).cells := by
  obtain ⟨hlow, hhigh⟩ := root.bounds_of_mem_objects hb ho
  have hdown : pfnDown o = o / pageSize := Nat.shiftRight_eq_div_pow o pageShift
  rw [Block.mem_cells, hdown]
  exact ⟨(Nat.le_div_iff_mul_le (by decide)).mpr hlow, (Nat.div_lt_iff_lt_mul (by decide)).mpr hhigh⟩

/-- **`AddSlab` names the class** in the pages where its objects start, and in no others.
Source: `sys/slab_allocator.cpp` `SlabCache::AddSlab`
Kind: L -/
theorem claim_apply (root : SlabAllocatorRoot) (i : ι) (pfn p : ℕ) (cacheRoot : ℕ → Option ι) :
    claim root i pfn cacheRoot p = if p ∈ (root.objects pfn).map pfnDown then some i else cacheRoot p := by
  unfold claim
  induction root.objects pfn generalizing cacheRoot with
  | nil => simp
  | cons o objects ih =>
      rw [List.foldl_cons, ih]
      by_cases hp : p = pfnDown o
      · simp [hp]
      · simp [hp]

namespace Tenancy

/-- A block of a class is aligned and in memory. Source: none: infrastructure. Kind: L -/
theorem isBlock (h : Tenancy C pages t blocks cacheRoot askedOf lent)
    (hphys : ∀ n, ∀ p ∈ pages n, p < maxPhysPfn) (hb : b ∈ blocks i) : IsBlock (C.root i).order b :=
  h.inv.isBlock hphys (h.slab i b hb)

/-- Slabs with a common page are the same. Source: none: infrastructure. Kind: L -/
theorem eq_of_mem {b' : ℕ} (h : Tenancy C pages t blocks cacheRoot askedOf lent) (hb : b ∈ blocks i)
    (hb' : b' ∈ blocks j) (hp : p ∈ (⟨b, (C.root i).order⟩ : Block).cells)
    (hp' : p ∈ (⟨b', (C.root j).order⟩ : Block).cells) : i = j ∧ b = b' := by
  obtain ⟨-, heq⟩ := h.inv.eq_of_mem (h.slab i b hb) (h.slab j b' hb') hp hp'
  obtain rfl : b = b' := congrArg Block.start heq
  exact ⟨h.apart i j b hb hb', rfl⟩

/-- A new block has no page of the blocks in use. Source: none: infrastructure. Kind: L -/
theorem not_mem_new (h : Tenancy C pages t blocks cacheRoot askedOf lent)
    (hinv : PageState.Inv t'.pages t'.held pages)
    (hheld : t'.held = Function.update t.held nid (⟨pfn, order⟩ :: t.held nid)) :
    (∀ j, ∀ b ∈ blocks j, ∀ p ∈ (⟨b, (C.root j).order⟩ : Block).cells, p ∉ (⟨pfn, order⟩ : Block).cells) ∧
      (∀ j, pfn ∉ blocks j) ∧ ∀ l ∈ lent, l.2.start ≠ pfn := by
  rw [hheld] at hinv
  have hslab : ∀ j, ∀ b ∈ blocks j, ∀ p ∈ (⟨b, (C.root j).order⟩ : Block).cells,
      p ∉ (⟨pfn, order⟩ : Block).cells := fun j b hb p hp => hinv.not_mem_new (h.slab j b hb) hp
  refine ⟨hslab, fun j hj => ?_, fun l hl heq => ?_⟩
  · exact hslab j pfn hj pfn (Block.start_mem_cells _) (Block.start_mem_cells _)
  · apply hinv.not_mem_new (h.inUse l hl) l.2.start_mem_cells
    rw [heq]
    exact Block.start_mem_cells ⟨pfn, order⟩

/-- The same blocks are in use. Source: `sys/page_allocator.cpp` `PageAllocator::Alloc`. Kind: L -/
theorem same (h : Tenancy C pages t blocks cacheRoot askedOf lent)
    (hinv : PageState.Inv t'.pages t'.held pages) (hheld : t'.held = t.held) :
    Tenancy C pages t' blocks cacheRoot askedOf lent where
  inv := hinv
  slab i b hb := hheld ▸ h.slab i b hb
  inUse l hl := hheld ▸ h.inUse l hl
  apart := h.apart
  notLent := h.notLent
  nodupBlocks := h.nodupBlocks
  nodupLent := h.nodupLent
  whole n b hb := h.whole n b (hheld ▸ hb)
  written := h.written

/-- What the page allocator gives is what a slab allocator relies on.
Source: `sys/page_allocator.cpp` `PageAllocator::Alloc`
Kind: L -/
theorem pageLegal {u : Slab.State} (h : Tenancy C pages t blocks cacheRoot askedOf lent)
    (hphys : ∀ n, ∀ p ∈ pages n, p < maxPhysPfn) (hne : pfn ≠ 0)
    (hinv : PageState.Inv t'.pages t'.held pages)
    (hheld : t'.held = Function.update t.held nid (⟨pfn, (C.root i).order⟩ :: t.held nid))
    (hblocks : u.blocks = blocks i) : Slab.PageLegal (C.root i) u (some pfn) := by
  have hnew : ⟨pfn, (C.root i).order⟩ ∈ t'.held nid := by
    rw [hheld]
    exact mem_update_cons.mpr (Or.inl ⟨rfl, rfl⟩)
  refine ⟨hinv.isBlock hphys hnew, ?_, hne⟩
  intro b hb
  rw [hblocks] at hb
  obtain ⟨hpages, -⟩ := h.not_mem_new hinv hheld
  by_contra hoverlap
  rw [not_or, Nat.not_le, Nat.not_le] at hoverlap
  apply hpages i b hb (max pfn b)
  · rw [Block.mem_cells]
    exact ⟨le_max_right pfn b, max_lt hoverlap.2 (Nat.lt_add_of_pos_right (Nat.two_pow_pos _))⟩
  · rw [Block.mem_cells]
    exact ⟨le_max_left pfn b, max_lt (Nat.lt_add_of_pos_right (Nat.two_pow_pos _)) hoverlap.1⟩

/-- **Other code takes a new block.** Source: `sys/page_allocator.cpp` `PageAllocator::Alloc`. Kind: P -/
theorem lend (h : Tenancy C pages t blocks cacheRoot askedOf lent)
    (hinv : PageState.Inv t'.pages t'.held pages)
    (hheld : t'.held = Function.update t.held nid (⟨pfn, order⟩ :: t.held nid)) :
    Tenancy C pages t' blocks cacheRoot askedOf ((nid, ⟨pfn, order⟩) :: lent) := by
  obtain ⟨-, hslab, hlent⟩ := h.not_mem_new hinv hheld
  refine ⟨hinv, ?_, ?_, h.apart, ?_, h.nodupBlocks, ?_, ?_, h.written⟩
  · intro j b hb
    rw [hheld]
    exact mem_update_cons.mpr (Or.inr (h.slab j b hb))
  · intro l hl
    rw [hheld]
    rcases List.mem_cons.mp hl with rfl | hl
    · exact mem_update_cons.mpr (Or.inl ⟨rfl, rfl⟩)
    · exact mem_update_cons.mpr (Or.inr (h.inUse l hl))
  · intro j b hb l hl
    rcases List.mem_cons.mp hl with rfl | hl
    · rintro rfl
      exact hslab j hb
    · exact h.notLent j b hb l hl
  · refine List.nodup_cons.mpr ⟨fun hl => ?_, h.nodupLent⟩
    exact hlent _ hl rfl
  · intro n b hb
    rw [hheld] at hb
    rcases mem_update_cons.mp hb with ⟨rfl, rfl⟩ | hb
    · exact Or.inl List.mem_cons_self
    · exact (h.whole n b hb).imp (List.mem_cons_of_mem _) id

/-- **Other code gives a block back.** Source: `sys/page_allocator.cpp` `PageAllocator::Free`. Kind: P -/
theorem giveBack (h : Tenancy C pages t blocks cacheRoot askedOf lent) (hl : (nid, ⟨pfn, order⟩) ∈ lent)
    (hinv : PageState.Inv t'.pages t'.held pages)
    (hheld : t'.held = Function.update t.held nid ((t.held nid).erase ⟨pfn, order⟩)) :
    Tenancy C pages t' blocks cacheRoot askedOf (lent.erase (nid, ⟨pfn, order⟩)) := by
  have hmem : ∀ n x, x ∈ t'.held n ↔ x ∈ t.held n ∧ ¬(n = nid ∧ x = ⟨pfn, order⟩) := by
    intro n x
    rw [hheld]
    exact mem_update_erase h.inv.nodup
  refine ⟨hinv, ?_, ?_, h.apart, ?_, h.nodupBlocks, h.nodupLent.erase _, ?_, h.written⟩
  · intro j x hx
    refine (hmem _ _).mpr ⟨h.slab j x hx, fun heq => ?_⟩
    exact h.notLent j x hx _ hl (congrArg Block.start heq.2).symm
  · intro l hl'
    obtain ⟨hne, hl'⟩ := h.nodupLent.mem_erase_iff.mp hl'
    refine (hmem _ _).mpr ⟨h.inUse l hl', fun heq => hne ?_⟩
    exact Prod.ext heq.1 heq.2
  · intro j x hx l hl'
    exact h.notLent j x hx l (List.mem_of_mem_erase hl')
  · intro n x hx
    obtain ⟨hx, hne⟩ := (hmem n x).mp hx
    refine (h.whole n x hx).imp (fun hx => ?_) id
    refine h.nodupLent.mem_erase_iff.mpr ⟨fun heq => hne ?_, hx⟩
    exact ⟨congrArg Prod.fst heq, congrArg Prod.snd heq⟩

variable [DecidableEq ι]

/-- **A class takes a new block** for a slab.
Source: `sys/slab_allocator.cpp` `SlabCache::AddSlab`
Kind: P -/
theorem take (h : Tenancy C pages t blocks cacheRoot askedOf lent)
    (hphys : ∀ n, ∀ p ∈ pages n, p < maxPhysPfn) (hinv : PageState.Inv t'.pages t'.held pages)
    (hheld : t'.held = Function.update t.held nid (⟨pfn, (C.root i).order⟩ :: t.held nid)) :
    Tenancy C pages t' (Function.update blocks i (pfn :: blocks i)) (claim (C.root i) i pfn cacheRoot)
      (Function.update askedOf pfn nid) lent := by
  obtain ⟨hpages, hslab, hlent⟩ := h.not_mem_new hinv hheld
  have hasked : ∀ j, ∀ b ∈ blocks j, Function.update askedOf pfn nid b = askedOf b := by
    intro j b hb
    apply Function.update_of_ne
    rintro rfl
    exact hslab j hb
  have hnew : IsBlock (C.root i).order pfn := by
    apply hinv.isBlock hphys (b := ⟨pfn, (C.root i).order⟩) (n := nid)
    rw [hheld]
    exact mem_update_cons.mpr (Or.inl ⟨rfl, rfl⟩)
  refine ⟨hinv, ?_, ?_, ?_, ?_, ?_, h.nodupLent, ?_, ?_⟩
  · intro j b hb
    rw [hheld]
    rcases mem_update_cons.mp hb with ⟨rfl, rfl⟩ | hb
    · rw [Function.update_self]
      exact mem_update_cons.mpr (Or.inl ⟨rfl, rfl⟩)
    · rw [hasked j b hb]
      exact mem_update_cons.mpr (Or.inr (h.slab j b hb))
  · intro l hl
    rw [hheld]
    exact mem_update_cons.mpr (Or.inr (h.inUse l hl))
  · intro j k b hj hk
    rcases mem_update_cons.mp hj with ⟨rfl, rfl⟩ | hold
    · rcases mem_update_cons.mp hk with ⟨rfl, -⟩ | hold
      · rfl
      · exact absurd hold (hslab k)
    · rcases mem_update_cons.mp hk with ⟨rfl, rfl⟩ | hold'
      · exact absurd hold (hslab j)
      · exact h.apart j k b hold hold'
  · intro j b hb l hl
    rcases mem_update_cons.mp hb with ⟨-, rfl⟩ | hb
    · exact hlent l hl
    · exact h.notLent j b hb l hl
  · intro j
    by_cases hj : j = i
    · rw [hj, Function.update_self]
      exact List.nodup_cons.mpr ⟨hslab i, h.nodupBlocks i⟩
    · rw [Function.update_of_ne hj]
      exact h.nodupBlocks j
  · intro n b hb
    rw [hheld] at hb
    rcases mem_update_cons.mp hb with ⟨rfl, rfl⟩ | hb
    · refine Or.inr ⟨i, mem_update_cons.mpr (Or.inl ⟨rfl, rfl⟩), rfl, ?_⟩
      exact Function.update_self ..
    · rcases h.whole n b hb with hb | ⟨j, hj, horder, hn⟩
      · exact Or.inl hb
      · exact Or.inr ⟨j, mem_update_cons.mpr (Or.inr hj), horder, (hasked j _ hj).trans hn⟩
  · intro j b hb o ho
    rw [claim_apply]
    rcases mem_update_cons.mp hb with ⟨rfl, rfl⟩ | hb
    · rw [if_pos (List.mem_map_of_mem ho)]
    · rw [if_neg, h.written j b hb o ho]
      intro hmem
      obtain ⟨o', ho', heq⟩ := List.mem_map.mp hmem
      apply hpages j b hb (pfnDown o) (pfnDown_mem_cells (h.isBlock hphys hb) ho)
      rw [← heq]
      exact pfnDown_mem_cells hnew ho'

/-- **A class gives a block back.** Source: `sys/slab_allocator.cpp` `SlabCache::FlushFreeList`. Kind: P -/
theorem release (h : Tenancy C pages t blocks cacheRoot askedOf lent) (hb : b ∈ blocks i)
    (hinv : PageState.Inv t'.pages t'.held pages)
    (hheld : t'.held = Function.update t.held (askedOf b)
      ((t.held (askedOf b)).erase ⟨b, (C.root i).order⟩)) :
    Tenancy C pages t' (Function.update blocks i ((blocks i).erase b)) cacheRoot askedOf lent := by
  have hmem : ∀ n x, x ∈ t'.held n ↔ x ∈ t.held n ∧ ¬(n = askedOf b ∧ x = ⟨b, (C.root i).order⟩) := by
    intro n x
    rw [hheld]
    exact mem_update_erase h.inv.nodup
  have hblocks : ∀ j x, x ∈ Function.update blocks i ((blocks i).erase b) j ↔ x ∈ blocks j ∧ ¬(j = i ∧ x = b) :=
    fun j x => mem_update_erase h.nodupBlocks
  refine ⟨hinv, ?_, ?_, ?_, ?_, ?_, h.nodupLent, ?_, ?_⟩
  · intro j x hx
    obtain ⟨hold, hne⟩ := (hblocks j x).mp hx
    refine (hmem _ _).mpr ⟨h.slab j x hold, fun heq => hne ?_⟩
    have hxb : x = b := congrArg Block.start heq.2
    exact ⟨h.apart j i b (hxb ▸ hold) hb, hxb⟩
  · intro l hl
    refine (hmem _ _).mpr ⟨h.inUse l hl, fun heq => ?_⟩
    exact h.notLent i b hb l hl (congrArg Block.start heq.2)
  · intro j k x hj hk
    exact h.apart j k x ((hblocks j x).mp hj).1 ((hblocks k x).mp hk).1
  · intro j x hx
    exact h.notLent j x ((hblocks j x).mp hx).1
  · intro j
    by_cases hj : j = i
    · rw [hj, Function.update_self]
      exact (h.nodupBlocks i).erase b
    · rw [Function.update_of_ne hj]
      exact h.nodupBlocks j
  · intro n x hx
    obtain ⟨hx, hne⟩ := (hmem n x).mp hx
    rcases h.whole n x hx with hx | ⟨j, hj, horder, hn⟩
    · exact Or.inl hx
    · refine Or.inr ⟨j, (hblocks j _).mpr ⟨hj, ?_⟩, horder, hn⟩
      rintro ⟨rfl, hstart⟩
      subst hstart
      exact hne ⟨hn.symm, by rw [← horder]⟩
  · intro j x hx
    exact h.written j x ((hblocks j x).mp hx).1

end Tenancy

end Heap

end EbbRT
