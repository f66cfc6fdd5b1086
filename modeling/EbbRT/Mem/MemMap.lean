import EbbRT.Mem.Numa
import EbbRT.Mem.PageAllocatorInit

/-!
# The node of a page

Two things say on which node a page is. `numa_init` gives each free range a node, page by page, and
`PageAllocator::Init` puts the range on the free lists of that node. `mem_map_init` makes the `page`
structures, for a section of 128 MB at a time and all with one node: that of the first memory block
that reaches into the section, going over the nodes in order. `SlabAllocator::Free` reads the second
where the allocation has used the first. `pageNid_exactlyWhen` says when they are the same.
-/

namespace EbbRT

open EbbRT.Lib EarlyPageAllocator

/-! ## Sections -/

/-- Source: `sys/mem_map.hpp` `PAGES_PER_SECTION`
Kind: D -/
def pagesPerSection : ℕ := 1 <<< pfnSectionShift

/-- `1 << (MAX_PHYSMEM_BITS - SECTION_SIZE_BITS)`.
Source: `sys/mem_map.hpp` `NUM_MEM_SECTIONS`
Kind: D -/
def numMemSections : ℕ := 1 <<< (46 - 27)

/-- The word of a section, and the node in the `page` structures that it leads to: they are made with
the same one.
Source: `sys/mem_map.hpp` `mem_section`
Kind: D -/
structure MemSection where
  memMap : ℕ
  pageNid : ℕ
  deriving DecidableEq, Repr

namespace MemSection

/-- What `sections` has at the start.
Source: `sys/mem_map.cpp` `sections`
Kind: D -/
def zero : MemSection := ⟨0, 0⟩

/-- Source: `sys/mem_map.hpp` `mem_section::present`
Kind: D -/
def present (s : MemSection) : Bool := s.memMap &&& 1 ≠ 0

/-- `MAP_MASK` is all but the two lowest bits.
Source: `sys/mem_map.hpp` `mem_section::valid`
Kind: D -/
def valid (s : MemSection) : Bool := s.memMap &&& (word - 4) ≠ 0

/-- Source: `sys/mem_map.hpp` `mem_section::set_early_nid`
Kind: D -/
def setEarlyNid (s : MemSection) (nid : ℕ) : MemSection := { s with memMap := nid <<< 2 ||| 1 }

/-- Source: `sys/mem_map.hpp` `mem_section::early_get_nid`
Kind: D -/
def earlyGetNid (s : MemSection) : ℕ := s.memMap >>> 2

/-- `addr` is that of the map less the frames below the section.
Source: `sys/mem_map.hpp` `mem_section::set_map`
Kind: D -/
def setMap (sizeofPage : ℕ) (s : MemSection) (mapAddr index : ℕ) : MemSection :=
  let addr := wsub mapAddr (index * pagesPerSection * sizeofPage % word)
  { s with memMap := addr ||| 1 ||| 2 }

/-- The node that a section was marked with can be read back, and a marked section is present.
Source: `sys/mem_map.hpp` `mem_section::set_early_nid`, `mem_section::early_get_nid`
Kind: L -/
theorem earlyGetNid_setEarlyNid (s : MemSection) (nid : ℕ) :
    (s.setEarlyNid nid).earlyGetNid = nid ∧ (s.setEarlyNid nid).present = true := by
  unfold setEarlyNid earlyGetNid present
  constructor
  · rw [Nat.shiftRight_or_distrib, Nat.shiftLeft_shiftRight, show 1 >>> 2 = 0 from rfl, Nat.or_zero]
  · have hodd : (nid <<< 2 ||| 1) % 2 = 1 := Nat.or_mod_two_eq_one.mpr (Or.inr rfl)
    rw [Nat.and_one_is_mod, hodd]
    rfl

end MemSection

/-! ## The code -/

/-- The loop over the sections of a block; beyond the array the access is undefined, `none`. A turn
takes at least one page, so with `fuel = stop - pfn` the loop ends with the fuel.
Source: `sys/mem_map.cpp` `mem_map_init`
Kind: D -/
def markSections (stop nid : ℕ) : ℕ → ℕ → (ℕ → MemSection) → Option (ℕ → MemSection)
  | 0, _, sections => some sections
  | fuel + 1, pfn, sections =>
      if pfn < stop then
        let i := pfnToSectionNum pfn
        if i < numMemSections then
          markSections stop nid fuel (pfn + pagesPerSection) <|
            if !(sections i).present then
              Function.update sections i ((sections i).setEarlyNid nid)
            else sections
        else none
      else some sections

/-- `start &= PAGE_SECTION_MASK`, and the loop.
Source: `sys/mem_map.cpp` `mem_map_init`
Kind: D -/
def markMemblock (sections : ℕ → MemSection) (memblock : MemBlock) : Option (ℕ → MemSection) :=
  let start := alignDown memblock.start pagesPerSection
  markSections memblock.stop memblock.nid (memblock.stop - start) start sections

/-- The first half.
Source: `sys/mem_map.cpp` `mem_map_init`
Kind: D -/
def markNodes (nodes : NumaNodes) : Option (ℕ → MemSection) :=
  nodes.foldlM (fun sections node => List.foldlM markMemblock sections node) fun _ => MemSection.zero

/-- `early_allocate_page` by a caller that then writes to the pages: beyond the address space there
are none, `none`.
Source: `sys/early_page_allocator.cpp` `early_allocate_page`
Kind: D -/
def earlyAllocateMapped (npages nid : ℕ) (free : FreePages) : Option (ℕ × FreePages) :=
  (earlyAllocatePage (npages % 2 ^ 32) nid free).bind fun r => if r.1 < maxPfn then some r else none

/-- The loop's body in the second half; the `page` structures keep the lowest 8 bits of the node.
Source: `sys/mem_map.cpp` `mem_map_init`, `sys/mem_map.hpp` `page`
Kind: D -/
def mapSection (sizeofPage : ℕ) (s : (ℕ → MemSection) × FreePages) (i : ℕ) :
    Option ((ℕ → MemSection) × FreePages) :=
  if (s.1 i).present then
    let nid := (s.1 i).earlyGetNid
    let sectionMapPages := alignUp (pagesPerSection * sizeofPage) pageSize >>> pageShift
    (earlyAllocateMapped sectionMapPages nid s.2).map fun r =>
      (Function.update s.1 i
        { (s.1 i).setMap sizeofPage (pfnToAddr r.1) i with pageNid := nid % 2 ^ 8 }, r.2)
  else some s

/-- The sections and the free ranges after it. `sizeofPage` is the size of a `page` structure.
Source: `sys/mem_map.cpp` `mem_map_init`
Kind: D -/
def memMapInit (sizeofPage : ℕ) (nodes : NumaNodes) (free : FreePages) :
    Option ((ℕ → MemSection) × FreePages) :=
  (markNodes nodes).bind fun sections =>
    (List.range numMemSections).foldlM (mapSection sizeofPage) (sections, free)

/-- Whether `pfn_to_page` leads to a `page` structure for the frames of a section.
Source: `sys/mem_map.hpp` `pfn_to_page`
Kind: D -/
def hasPages (sections : ℕ → MemSection) (i : ℕ) : Bool :=
  i < numMemSections && ((sections i).valid && (sections i).present)

/-- What there is after `PageAllocator::Init`, and the free ranges that there were before it.
Source: `sys/main.cpp` `kmain`
Kind: D -/
structure Boot where
  sections : ℕ → MemSection
  ranges : FreePages
  pages : PageState

/-- `numa_init`, `mem_map_init` and `PageAllocator::Init`, which makes an allocator for each node; a
range of another has none, and the access is undefined. `later` are the nodes that pages are asked
for in between, by `trans_init`.
Source: `sys/main.cpp` `kmain`
Kind: D -/
def bootPages (sizeofPage : ℕ) (nodes : NumaNodes) (free : FreePages) (later : List ℕ) :
    Option Boot :=
  let numa := numaInit nodes free
  (memMapInit sizeofPage numa.1 numa.2).bind fun mem =>
    (later.foldlM (fun free nid => (earlyAllocateMapped 1 nid free).map Prod.snd) mem.2).bind
      fun ranges =>
        if ∀ r ∈ ranges, r.nid < nodes.length then
          (PageState.init ranges (PageState.boot (hasPages mem.1))).map fun pages =>
            ⟨mem.1, ranges, pages⟩
        else none

/-- `pfn_to_page(pfn)->nid`; `none` is the null pointer.
Source: `sys/slab_allocator.cpp` `SlabAllocator::Free`
Kind: D -/
def Boot.pageNid (r : Boot) (pfn : ℕ) : Option ℕ :=
  let i := pfnToSectionNum pfn
  if hasPages r.sections i then some (r.sections i).pageNid else none

/-! ## What the sections are marked with -/

/-- The block has pages in a section, or its loop gets there all the same.
Source: `sys/mem_map.cpp` `mem_map_init`
Kind: D -/
def MemBlock.reaches (b : MemBlock) (i : ℕ) : Bool :=
  b.start / pagesPerSection ≤ i ∧ i * pagesPerSection < b.stop

/-- The node of the first block that reaches into a section.
Source: `sys/mem_map.cpp` `mem_map_init`
Kind: D -/
def firstNid (nodes : NumaNodes) (i : ℕ) : Option ℕ :=
  ((memblocks nodes).find? fun b => b.reaches i).map MemBlock.nid

section Marks

variable {sections sections' : ℕ → MemSection} {blocks bs : List MemBlock} {b : MemBlock}
variable {stop nid fuel k : ℕ}

/-- Sections are numbered by their pages.
Source: `sys/mem_map.hpp` `pfn_to_section_num`
Kind: L -/
theorem pfnToSectionNum_eq (pfn : ℕ) : pfnToSectionNum pfn = pfn / pagesPerSection :=
  Nat.shiftRight_eq_div_pow pfn 15

/-- Source: `sys/mem_map.hpp` `PAGES_PER_SECTION`
Kind: L -/
theorem pagesPerSection_pos : 0 < pagesPerSection := by
  unfold pagesPerSection pfnSectionShift pageShift
  norm_num

/-- The loop marks the sections from the first on that are not marked.
Source: `sys/mem_map.cpp` `mem_map_init`
Kind: L -/
theorem markSections_spec
    (h : markSections stop nid fuel (k * pagesPerSection) sections = some sections')
    (hfuel : stop ≤ k * pagesPerSection + fuel) (i : ℕ) :
    sections' i = if (k ≤ i ∧ i * pagesPerSection < stop) ∧ (sections i).present = false then
      (sections i).setEarlyNid nid else sections i := by
  -- no section from `k` on when the pages are used up
  have hdone : stop ≤ k * pagesPerSection → ¬ (k ≤ i ∧ i * pagesPerSection < stop) := by
    rintro hstop ⟨hki, hi⟩
    exact absurd (hstop.trans (Nat.mul_le_mul_right pagesPerSection hki)) hi.not_ge
  induction fuel generalizing k sections with
  | zero =>
      obtain rfl := Option.some.inj h
      rw [Nat.add_zero] at hfuel
      rw [if_neg fun hc => hdone hfuel hc.1]
  | succ fuel ih =>
      have hk : pfnToSectionNum (k * pagesPerSection) = k :=
        (pfnToSectionNum_eq _).trans (Nat.mul_div_cancel k pagesPerSection_pos)
      have hpos := pagesPerSection_pos
      unfold markSections at h
      rw [hk, ← Nat.succ_mul] at h
      dsimp only at h
      split_ifs at h with h1 h2 h3
      · have hrest := ih h (by rw [Nat.succ_mul]; omega) fun hstop hc =>
          absurd (hstop.trans (Nat.mul_le_mul_right pagesPerSection hc.1)) hc.2.not_ge
        rw [hrest]
        rw [Bool.not_eq_true'] at h3
        by_cases hik : i = k
        · subst hik
          rw [Function.update_self, if_neg fun hc => absurd hc.1.1 (Nat.lt_irrefl _),
            if_pos ⟨⟨le_rfl, h1⟩, h3⟩]
        · rw [Function.update_of_ne hik]
          have hle : k.succ ≤ i ↔ k ≤ i := by omega
          simp only [hle]
      · have hrest := ih h (by rw [Nat.succ_mul]; omega) fun hstop hc =>
          absurd (hstop.trans (Nat.mul_le_mul_right pagesPerSection hc.1)) hc.2.not_ge
        rw [hrest]
        by_cases hik : i = k
        · subst hik
          rw [if_neg fun hc => absurd hc.1.1 (Nat.lt_irrefl _), if_neg]
          rintro ⟨-, hp⟩
          rw [hp] at h3
          exact h3 rfl
        · have hle : k.succ ≤ i ↔ k ≤ i := by omega
          simp only [hle]
      · obtain rfl := Option.some.inj h
        rw [if_neg fun hc => hdone (Nat.le_of_not_lt h1) hc.1]

/-- Each section is marked with the node of the first of the blocks that reaches into it.
Source: `sys/mem_map.cpp` `mem_map_init`
Kind: D -/
def Marked (blocks : List MemBlock) (sections : ℕ → MemSection) : Prop :=
  ∀ i, sections i = (blocks.find? fun b => b.reaches i).elim MemSection.zero fun b =>
    MemSection.zero.setEarlyNid b.nid

/-- Source: `sys/mem_map.cpp` `mem_map_init`
Kind: L -/
theorem Marked.present (h : Marked blocks sections) (i : ℕ) :
    (sections i).present = (blocks.find? fun b => b.reaches i).isSome := by
  rw [h i]
  cases blocks.find? fun b => b.reaches i with
  | none => rfl
  | some b => exact (MemSection.earlyGetNid_setEarlyNid _ _).2

/-- One more block. Source: `sys/mem_map.cpp` `mem_map_init`. Kind: L -/
theorem Marked.markMemblock (h : Marked blocks sections) (hb : b.start < word)
    (hs : markMemblock sections b = some sections') : Marked (blocks ++ [b]) sections' := by
  intro i
  have hstart : alignDown b.start pagesPerSection = b.start / pagesPerSection * pagesPerSection :=
    alignDown_two_pow (k := 15) hb (by norm_num)
  unfold EbbRT.markMemblock at hs
  rw [hstart] at hs
  rw [markSections_spec hs (by omega) i, h.present, List.find?_append, List.find?_singleton]
  have hreach : b.reaches i = true ↔
      b.start / pagesPerSection ≤ i ∧ i * pagesPerSection < b.stop := by
    unfold MemBlock.reaches
    exact decide_eq_true_iff
  simp only [h i, ← hreach]
  cases blocks.find? fun b => b.reaches i with
  | none =>
      by_cases hi : b.reaches i = true
      · rw [if_pos ⟨hi, rfl⟩, if_pos hi]
        rfl
      · rw [if_neg fun hc => hi hc.1, if_neg hi]
        rfl
  | some a =>
      rw [if_neg fun hc => absurd hc.2 (by simp)]
      rfl

/-- Blocks that come one after the other. Source: `sys/mem_map.cpp` `mem_map_init`. Kind: L -/
theorem Marked.foldlM (h : Marked blocks sections) (hb : ∀ b ∈ bs, b.start < word)
    (hs : bs.foldlM EbbRT.markMemblock sections = some sections') :
    Marked (blocks ++ bs) sections' := by
  induction bs generalizing blocks sections with
  | nil =>
      obtain rfl := Option.some.inj hs
      rwa [List.append_nil]
  | cons b bs ih =>
      obtain ⟨hbw, hbs⟩ := List.forall_mem_cons.mp hb
      rw [List.foldlM_cons] at hs
      obtain ⟨s₁, h1, h2⟩ := Option.bind_eq_some_iff.mp hs
      rw [List.append_cons]
      exact ih (h.markMemblock hbw h1) hbs h2

/-- Two loops, one inside the other, are one over all.
Source: none: infrastructure
Kind: L -/
theorem foldlM_flatten {α β : Type*} (f : β → α → Option β) (ls : List (List α)) (b : β) :
    ls.foldlM (fun b l => List.foldlM f b l) b = ls.flatten.foldlM f b := by
  induction ls generalizing b with
  | nil => rfl
  | cons l ls ih =>
      rw [List.foldlM_cons, List.flatten_cons, List.foldlM_append]
      exact congrArg _ (funext fun b => ih b)

/-- **The first half of `mem_map_init`.**
Source: `sys/mem_map.cpp` `mem_map_init`
Kind: P -/
theorem marked_markNodes {nodes : NumaNodes} (hnodes : NumaLayout nodes) (free : FreePages)
    (h : markNodes (numaInit nodes free).1 = some sections) : Marked (memblocks nodes) sections := by
  unfold markNodes at h
  rw [foldlM_flatten] at h
  have hflat : (numaInit nodes free).1.flatten = memblocks nodes := List.flatMap_def.symm
  rw [hflat] at h
  have hzero : Marked [] fun _ => MemSection.zero := fun i => rfl
  refine hzero.foldlM (fun b hb => ?_) h
  exact (hnodes.ordered b hb).trans_lt (hnodes.bounded b hb)

end Marks

/-! ## The maps -/

section Maps

variable {sizeofPage i : ℕ} {l : List ℕ} {s s' : (ℕ → MemSection) × FreePages}
variable {npages nid ret : ℕ} {free free' : FreePages}

/-- A section that is not marked is passed over.
Source: `sys/mem_map.cpp` `mem_map_init`
Kind: L -/
theorem mapSection_of_not_present (h : (s.1 i).present = false) :
    mapSection sizeofPage s i = some s := by
  unfold mapSection
  rw [if_neg (by rw [h]; exact Bool.false_ne_true)]

/-- What the loop's body does to the sections.
Source: `sys/mem_map.cpp` `mem_map_init`
Kind: L -/
theorem mapSection_fst (h : mapSection sizeofPage s i = some s') :
    (∀ j, j ≠ i → s'.1 j = s.1 j) ∧ ((s'.1 i).present = true →
      (s.1 i).present = true ∧ (s'.1 i).pageNid = (s.1 i).earlyGetNid % 2 ^ 8) := by
  by_cases hp : (s.1 i).present = true
  · unfold mapSection at h
    rw [if_pos hp] at h
    obtain ⟨r, -, rfl⟩ := Option.map_eq_some_iff.mp h
    refine ⟨fun j hj => Function.update_of_ne hj .., fun _ => ⟨hp, ?_⟩⟩
    dsimp only
    rw [Function.update_self]
  · rw [mapSection_of_not_present (Bool.eq_false_of_not_eq_true hp)] at h
    obtain rfl := Option.some.inj h
    exact ⟨fun _ _ => rfl, fun hp' => absurd hp' hp⟩

/-- After the loop over some sections, the `page` structures of each have the node it was marked with.
Source: `sys/mem_map.cpp` `mem_map_init`
Kind: L -/
theorem mapSections_fst (hl : l.Nodup) (h : l.foldlM (mapSection sizeofPage) s = some s') (i : ℕ) :
    (i ∉ l → s'.1 i = s.1 i) ∧ (i ∈ l → (s'.1 i).present = true →
      (s.1 i).present = true ∧ (s'.1 i).pageNid = (s.1 i).earlyGetNid % 2 ^ 8) := by
  induction l generalizing s with
  | nil =>
      obtain rfl := Option.some.inj h
      exact ⟨fun _ => rfl, fun hi => absurd hi List.not_mem_nil⟩
  | cons a l ih =>
      obtain ⟨ha, hl'⟩ := List.nodup_cons.mp hl
      rw [List.foldlM_cons] at h
      obtain ⟨s₁, h1, h2⟩ := Option.bind_eq_some_iff.mp h
      obtain ⟨hother, hself⟩ := mapSection_fst h1
      obtain ⟨hout, hin⟩ := ih hl' h2
      constructor
      · intro hi
        obtain ⟨hia, hil⟩ := List.ne_and_not_mem_of_not_mem_cons hi
        exact (hout hil).trans (hother i hia)
      · intro hi
        by_cases hia : i = a
        · subst hia
          rw [hout ha]
          exact hself
        · rw [← hother i hia]
          exact hin ((List.mem_cons.mp hi).resolve_left hia)

/-- The sections that no loop before has marked are not gone over.
Source: `sys/mem_map.cpp` `mem_map_init`
Kind: L -/
theorem mapSections_of_not_present (h : ∀ i ∈ l, (s.1 i).present = false) :
    l.foldlM (mapSection sizeofPage) s = some s := by
  induction l with
  | nil => rfl
  | cons a l ih =>
      obtain ⟨ha, hl⟩ := List.forall_mem_cons.mp h
      rw [List.foldlM_cons, mapSection_of_not_present ha]
      exact ih hl

/-- What is left of a range.
Source: `sys/early_page_allocator.cpp` `early_allocate_page`
Kind: L -/
theorem cut_spec (a : PageRange) (npages : ℕ) : (EarlyPageAllocator.cut a npages).length ≤ 1 ∧
    ∀ c ∈ EarlyPageAllocator.cut a npages,
      c.nid = a.nid ∧ c.start = a.start ∧ stop c ≤ stop a := by
  unfold EarlyPageAllocator.cut stop
  split
  · exact ⟨Nat.zero_le _, fun c hc => absurd hc List.not_mem_nil⟩
  · refine ⟨le_rfl, fun c hc => ?_⟩
    obtain rfl := List.mem_singleton.mp hc
    refine ⟨rfl, rfl, ?_⟩
    dsimp only
    omega

/-- What an allocation leaves: the ranges, one of them cut short or gone.
Source: `sys/early_page_allocator.cpp` `early_allocate_page`
Kind: L -/
theorem earlyAllocateMapped_spec (h : FreeRanges free)
    (he : earlyAllocateMapped npages nid free = some (ret, free')) :
    FreeRanges free' ∧ Parts free free' := by
  obtain ⟨r, hr, hret⟩ := Option.bind_eq_some_iff.mp he
  split at hret
  · rename_i hlt
    obtain rfl := Option.some.inj hret
    have hok : EndsHighEnough free (npages % 2 ^ 32) nid := by
      by_contra hbad
      have hge := maxPfn_le_of_not_endsHighEnough h.apart h.bounded
        (Nat.mod_lt _ (Nat.two_pow_pos 32)) hbad hr
      exact absurd hlt hge.not_gt
    obtain ⟨pre, a, post, rfl, -, -, -, rfl⟩ := earlyAllocatePage_eq_some h.bounded hok hr
    obtain ⟨hone, hcut⟩ := cut_spec a (npages % 2 ^ 32)
    refine ⟨h.replace (fun c hc => (hcut c hc).2) hone, fun c hc => ?_⟩
    rcases List.mem_append.mp hc with hc | hc
    · rcases List.mem_append.mp hc with hc | hc
      · exact ⟨c, List.mem_append_left _ hc, rfl, le_rfl, le_rfl⟩
      · obtain ⟨hnid, hstart, hstop⟩ := hcut c hc
        exact ⟨a, List.mem_append_right _ List.mem_cons_self, hnid, hstart.ge, hstop⟩
    · exact ⟨c, List.mem_append_right _ (List.mem_cons_of_mem _ hc), rfl, le_rfl, le_rfl⟩
  · cases hret

/-- Source: `sys/mem_map.cpp` `mem_map_init`
Kind: L -/
theorem mapSection_snd (h : mapSection sizeofPage s i = some s') :
    s'.2 = s.2 ∨ ∃ npages nid ret, earlyAllocateMapped npages nid s.2 = some (ret, s'.2) := by
  unfold mapSection at h
  split at h
  · obtain ⟨r, hr, rfl⟩ := Option.map_eq_some_iff.mp h
    exact Or.inr ⟨_, _, r.1, hr⟩
  · obtain rfl := Option.some.inj h
    exact Or.inl rfl

end Maps

/-! ## The boot -/

section Boots

variable {sizeofPage : ℕ} {nodes : NumaNodes} {free : FreePages} {later : List ℕ} {r : Boot}

/-- What the blocks say of the free ranges, through all allocations.
Source: none: infrastructure
Kind: D -/
def BootFree (nodes : NumaNodes) (free : FreePages) : Prop :=
  Assigned (memblocks nodes) free ∧ FreeRanges free

/-- An allocation keeps it. Source: `sys/early_page_allocator.cpp` `early_allocate_page`.
Kind: L -/
theorem BootFree.allocate {npages nid ret : ℕ} {free' : FreePages} (h : BootFree nodes free)
    (he : earlyAllocateMapped npages nid free = some (ret, free')) : BootFree nodes free' := by
  obtain ⟨hfree, hparts⟩ := earlyAllocateMapped_spec h.2 he
  exact ⟨h.1.mono hparts, hfree⟩

/-- **Before `Init`** the free ranges are where their nodes' blocks are, and the `page` structures of a
section are of the first block's node.
Source: `sys/main.cpp` `kmain`
Kind: P -/
theorem bootPages_spec (hnodes : NumaLayout nodes) (hfree : FreeRanges free)
    (hany : ∀ q ∈ free, q.nid = anyNid) (h : bootPages sizeofPage nodes free later = some r) :
    BootFree nodes r.ranges ∧ (∀ q ∈ r.ranges, q.nid < nodes.length) ∧
      PageState.init r.ranges (PageState.boot (hasPages r.sections)) = some r.pages ∧
      ∀ i, hasPages r.sections i = true →
        ∃ nid, firstNid nodes i = some nid ∧ (r.sections i).pageNid = nid % 2 ^ 8 := by
  unfold bootPages at h
  obtain ⟨mem, hmem, h⟩ := Option.bind_eq_some_iff.mp h
  obtain ⟨ranges, hranges, h⟩ := Option.bind_eq_some_iff.mp h
  split at h
  · rename_i hnid
    obtain ⟨pages, hpages, rfl⟩ := Option.map_eq_some_iff.mp h
    obtain ⟨sections, hmark, hmaps⟩ := Option.bind_eq_some_iff.mp hmem
    have hmarked := marked_markNodes hnodes free hmark
    have hboot : BootFree nodes mem.2 := by
      have hnuma : BootFree nodes (sections, (numaInit nodes free).2).2 :=
        assigned_numaInit hnodes hfree hany
      refine PageState.foldlM_invariant (P := fun s : (ℕ → MemSection) × FreePages =>
        BootFree nodes s.2) ?_ hnuma hmaps
      intro s i s' hs hstep
      rcases mapSection_snd hstep with heq | ⟨npages, nid, ret, he⟩
      · rw [heq]
        exact hs
      · exact hs.allocate he
    refine ⟨?_, hnid, hpages, fun i hi => ?_⟩
    · refine PageState.foldlM_invariant (P := BootFree nodes) ?_ hboot hranges
      intro free nid free' hfree hstep
      obtain ⟨⟨ret, free''⟩, he, rfl⟩ := Option.map_eq_some_iff.mp hstep
      exact hfree.allocate he
    · unfold hasPages at hi
      simp only [Bool.and_eq_true, decide_eq_true_eq] at hi
      obtain ⟨hlt, -, hp⟩ := hi
      obtain ⟨hp₀, hpage⟩ :=
        (mapSections_fst List.nodup_range hmaps i).2 (List.mem_range.mpr hlt) hp
      dsimp only at hp₀ hpage
      rw [hmarked.present] at hp₀
      obtain ⟨b, hb⟩ := Option.isSome_iff_exists.mp hp₀
      refine ⟨b.nid, ?_, ?_⟩
      · unfold firstNid
        rw [hb]
        rfl
      · rw [hpage, hmarked i, hb]
        exact congrArg (· % 2 ^ 8) (MemSection.earlyGetNid_setEarlyNid _ _).1
  · cases h

/-- Every page on a node's free lists has a `page` structure that says so.
Source: `sys/slab_allocator.cpp` `SlabAllocator::Free`
Kind: D -/
def Boot.NodesAgree (r : Boot) : Prop :=
  ∀ n, ∀ b ∈ r.pages.freeBlocks n, ∀ p ∈ b.cells, r.pageNid p = some n

/-- A free page in a block is of the node of the first block that reaches into its section.
Source: `sys/mem_map.cpp` `mem_map_init`
Kind: D -/
def FirstBlocksAgree (nodes : NumaNodes) (ranges : FreePages) : Prop :=
  ∀ q ∈ ranges, ∀ p, q.start ≤ p → p < stop q → ∀ b ∈ memblocks nodes, p ∈ b.pages →
    firstNid nodes (pfnToSectionNum p) = some b.nid

/-- Free ranges are a layout for `Init`. Source: none: infrastructure. Kind: L -/
theorem layout_of_freeRanges (h : FreeRanges free) : PageState.Layout free := by
  refine ⟨h.apart.imp fun {a b} hab => ?_, h.bounded⟩
  rw [Set.Ico_disjoint_Ico]
  unfold stop at hab
  omega

/-- The pages on the free lists are those of the ranges.
Source: `sys/page_allocator.cpp` `PageAllocator::Init`
Kind: L -/
theorem Boot.nodesAgree_iff_nodePages (hnodes : NumaLayout nodes) (hfree : FreeRanges free)
    (hany : ∀ q ∈ free, q.nid = anyNid) (h : bootPages sizeofPage nodes free later = some r) :
    r.NodesAgree ↔ ∀ q ∈ r.ranges, ∀ p, q.start ≤ p → p < stop q →
      firstNid nodes (pfnToSectionNum p) = some q.nid := by
  obtain ⟨hboot, hnid, hinit, hsec⟩ := bootPages_spec hnodes hfree hany h
  have hinv := PageState.inv_init (layout_of_freeRanges hboot.2) hinit
  have hpresent := PageState.present_init hinit
  -- what `pfn_to_page` reads for a page of a range
  have hread : ∀ q ∈ r.ranges, ∀ p, q.start ≤ p → p < stop q →
      (r.pageNid p = some q.nid ↔ firstNid nodes (pfnToSectionNum p) = some q.nid) := by
    intro q hq p hp hp'
    have hhas : hasPages r.sections (pfnToSectionNum p) = true := by
      have := (hinv.node q.nid).present p ⟨q, hq, rfl, hp, hp'⟩
      rwa [hpresent] at this
    obtain ⟨nid, hfirst, hpage⟩ := hsec _ hhas
    have hlt : nid < 2 ^ 8 := by
      obtain ⟨b, hb, rfl⟩ := Option.map_eq_some_iff.mp hfirst
      exact (hnodes.nid_lt b (List.mem_of_find?_eq_some hb)).trans_le hnodes.few
    unfold Boot.pageNid
    dsimp only
    rw [if_pos hhas, hpage, hfirst, Nat.mod_eq_of_lt hlt]
  constructor
  · intro hagree q hq p hp hp'
    obtain ⟨b, hb, hpb⟩ := ((hinv.node q.nid).tiles.cover p).mp ⟨q, hq, rfl, hp, hp'⟩
    exact (hread q hq p hp hp').mp (hagree q.nid b (by simpa using hb) p hpb)
  · intro hfirst n b hb p hpb
    have hcover := ((hinv.node n).tiles.cover p).mpr ⟨b, by simpa using hb, hpb⟩
    obtain ⟨q, hq, rfl, hp, hp'⟩ := hcover
    exact (hread q hq p hp hp').mpr (hfirst q hq p hp hp')

/-- A range that has a node lies in one block, and has its node.
Source: `sys/numa.cpp` `numa_init`
Kind: L -/
theorem exists_memblock (hnodes : NumaLayout nodes) {q : PageRange}
    (hranges : Assigned (memblocks nodes) free) (hq : q ∈ free) (hnid : q.nid < nodes.length) :
    ∃ b ∈ memblocks nodes, q.nid = b.nid ∧ b.start ≤ q.start ∧ stop q ≤ b.stop := by
  rcases hranges q hq with hin | ⟨hany, -⟩
  · exact hin
  · have := hnodes.few
    omega

/-- It is so when no section is reached into by blocks of two nodes.
Source: `sys/mem_map.cpp` `mem_map_init`
Kind: C -/
theorem firstBlocksAgree_of_sections (ranges : FreePages)
    (h : ∀ i, ∀ a ∈ memblocks nodes, ∀ b ∈ memblocks nodes,
      a.reaches i = true → b.reaches i = true → a.nid = b.nid) :
    FirstBlocksAgree nodes ranges := by
  intro q hq p hp hp' b hb hpb
  have hreach : b.reaches (pfnToSectionNum p) = true := by
    unfold MemBlock.reaches
    rw [pfnToSectionNum_eq, decide_eq_true_iff]
    exact ⟨Nat.div_le_div_right hpb.1, (Nat.div_mul_le_self _ _).trans_lt hpb.2⟩
  have hsome : ((memblocks nodes).find? fun b => b.reaches (pfnToSectionNum p)).isSome = true :=
    List.find?_isSome.mpr ⟨b, hb, hreach⟩
  obtain ⟨a, ha⟩ := Option.isSome_iff_exists.mp hsome
  have hfirst : a.reaches (pfnToSectionNum p) = true :=
    List.find?_some (p := fun b : MemBlock => b.reaches (pfnToSectionNum p)) ha
  unfold firstNid
  rw [ha]
  exact congrArg some (h _ a (List.mem_of_find?_eq_some ha) b hb hfirst hreach)

/-! ## Two machines -/

/-- Sections above all blocks are not gone over.
Source: `sys/mem_map.cpp` `mem_map_init`
Kind: L -/
theorem memMapInit_eq_range {k : ℕ} (hnodes : NumaLayout nodes) (hk : k ≤ numMemSections)
    (hstop : ∀ b ∈ memblocks nodes, b.stop ≤ k * pagesPerSection) (l : FreePages) :
    memMapInit sizeofPage (numaInit nodes free).1 l =
      (markNodes (numaInit nodes free).1).bind fun sections =>
        (List.range k).foldlM (mapSection sizeofPage) (sections, l) := by
  have hsplit : List.range numMemSections =
      List.range k ++ (List.range (numMemSections - k)).map (k + ·) := by
    rw [← List.range_add, Nat.add_sub_cancel' hk]
  unfold memMapInit
  refine Option.bind_congr fun sections hsections => ?_
  have habsent : ∀ i, k ≤ i → (sections i).present = false := by
    intro i hi
    rw [(marked_markNodes hnodes free hsections).present, Option.isSome_eq_false_iff,
      Option.isNone_iff_eq_none]
    refine List.find?_eq_none.mpr fun b hb hreach => ?_
    unfold MemBlock.reaches at hreach
    rw [decide_eq_true_iff] at hreach
    have hle := (hstop b hb).trans (Nat.mul_le_mul_right pagesPerSection hi)
    exact absurd hreach.2 hle.not_gt
  rw [hsplit, List.foldlM_append]
  cases h : (List.range k).foldlM (mapSection sizeofPage) (sections, l) with
  | none => rfl
  | some s' =>
      refine mapSections_of_not_present fun i hi => ?_
      obtain ⟨j, -, rfl⟩ := List.mem_map.mp hi
      rw [(mapSections_fst List.nodup_range h (k + j)).1 (by rw [List.mem_range]; omega)]
      exact habsent _ (Nat.le_add_right k j)

/-- Two nodes that meet at the end of a section.
Source: `sys/numa.hpp` `numa_nodes`
Kind: D -/
def apartNodes : NumaNodes := [[⟨0, 32768, 0⟩], [⟨32768, 65536, 1⟩]]

/-- Two nodes that meet inside a section.
Source: `sys/numa.hpp` `numa_nodes`
Kind: D -/
def sharedNodes : NumaNodes := [[⟨0, 16384, 0⟩], [⟨16384, 32768, 1⟩]]

/-- Two free ranges, the second from page `p` on.
Source: `sys/early_page_allocator.hpp` `free_pages`
Kind: D -/
def twoRanges (p : ℕ) : FreePages := [⟨1024, 1024, anyNid⟩, ⟨p, 1024, anyNid⟩]

/-- Source: none: infrastructure
Kind: L -/
theorem freeRanges_twoRanges {p : ℕ} (h : 2048 ≤ p) (hp : p + 1024 ≤ maxPfn) :
    FreeRanges (twoRanges p) ∧ ∀ q ∈ twoRanges p, q.nid = anyNid := by
  unfold twoRanges
  refine ⟨⟨?_, ?_⟩, ?_⟩
  · exact List.pairwise_pair.mpr h
  · simp only [List.forall_mem_cons]
    exact ⟨by unfold stop maxPfn; norm_num, hp, fun r hr => absurd hr List.not_mem_nil⟩
  · simp

/-- Two nodes with one block each.
Source: none: infrastructure
Kind: L -/
theorem numaLayout_pair {a b c : ℕ} (hab : a ≤ b) (hbc : b ≤ c) (hc : c < word) :
    NumaLayout [[⟨a, b, 0⟩], [⟨b, c, 1⟩]] := by
  have hblocks : memblocks [[⟨a, b, 0⟩], [⟨b, c, 1⟩]] = [⟨a, b, 0⟩, ⟨b, c, 1⟩] := rfl
  refine ⟨by unfold anyNid; norm_num, ?_, ?_, ?_, ?_⟩
  · rw [hblocks]
    simpa using ⟨hab, hbc⟩
  · rw [hblocks]
    simpa using ⟨hbc.trans_lt hc, hc⟩
  · rw [hblocks]
    simp
  · rw [hblocks]
    refine List.pairwise_pair.mpr ?_
    unfold MemBlock.pages
    rw [Set.Ico_disjoint_Ico]
    simp

/-! ## When the two agree -/

/-- **Allocator and `page` structures.** After the boot, every page on a node's free lists has a
`page` structure with this node, if and only if no free page lies in a block of another node than
that of the first block that reaches into the page's section.
Source: `sys/mem_map.cpp` `mem_map_init`, `sys/page_allocator.cpp` `PageAllocator::Init`
Kind: P
Hyps: `hnodes`: the blocks of the SRAT are apart and in order; `hfree`, `hany`: what the passes over the
memory map freed -/
theorem Boot.pageNid_exactlyWhen (sizeofPage : ℕ) (nodes : NumaNodes) (free : FreePages)
    (later : List ℕ) (r : Boot) (hnodes : NumaLayout nodes) (hfree : FreeRanges free)
    (hany : ∀ q ∈ free, q.nid = anyNid) (h : bootPages sizeofPage nodes free later = some r) :
    r.NodesAgree ↔ FirstBlocksAgree nodes r.ranges := by
  obtain ⟨hboot, hnid, -, -⟩ := bootPages_spec hnodes hfree hany h
  rw [Boot.nodesAgree_iff_nodePages hnodes hfree hany h]
  constructor
  · intro hfirst q hq p hp hp' b hb hpb
    obtain ⟨a, ha, hqa, hlo, hhi⟩ := exists_memblock hnodes hboot.1 hq (hnid q hq)
    rw [hfirst q hq p hp hp', hqa]
    -- blocks are disjoint, so the block with the page is the range's
    by_contra hne
    have hab : a ≠ b := fun hab => hne (by rw [hab])
    have hsymm : Std.Symm fun x y : MemBlock => Disjoint x.pages y.pages :=
      ⟨fun x y hxy => Disjoint.symm hxy⟩
    have hdisj := hnodes.disjoint.forall ha hb hab
    exact Set.disjoint_left.mp hdisj ⟨hlo.trans hp, hp'.trans_le hhi⟩ hpb
  · intro hagree q hq p hp hp'
    obtain ⟨a, ha, hqa, hlo, hhi⟩ := exists_memblock hnodes hboot.1 hq (hnid q hq)
    rw [hqa]
    exact hagree q hq p hp hp' a ha ⟨hlo.trans hp, hp'.trans_le hhi⟩

/-- Two nodes that meet at the end of a section.
Source: `sys/mem_map.cpp` `mem_map_init`
Kind: C -/
theorem Boot.pageNid_exactlyWhen_apart : ∃ r,
    bootPages 42 apartNodes (twoRanges 32768) [0] = some r ∧
      r.ranges = [⟨1024, 687, 0⟩, ⟨32768, 688, 1⟩] ∧ r.NodesAgree := by
  have hnodes : NumaLayout apartNodes := numaLayout_pair (by norm_num) (by norm_num)
    (by unfold word; norm_num)
  obtain ⟨hfree, hany⟩ := freeRanges_twoRanges (p := 32768) (by norm_num)
    (by unfold maxPfn; norm_num)
  have hrun : (bootPages 42 apartNodes (twoRanges 32768) [0]).map Boot.ranges =
      some [⟨1024, 687, 0⟩, ⟨32768, 688, 1⟩] := by
    unfold bootPages
    dsimp only
    rw [memMapInit_eq_range hnodes (k := 2) (by decide +kernel) (by decide +kernel)]
    decide +kernel
  obtain ⟨r, hr, hranges⟩ := Option.map_eq_some_iff.mp hrun
  refine ⟨r, hr, hranges, ?_⟩
  apply (Boot.pageNid_exactlyWhen 42 apartNodes (twoRanges 32768) [0] r hnodes hfree hany hr).mpr
  apply firstBlocksAgree_of_sections
  intro i a ha b hb hai hbi
  have hblocks : memblocks apartNodes = [⟨0, 32768, 0⟩, ⟨32768, 65536, 1⟩] := by decide +kernel
  have hp : pagesPerSection = 32768 := by decide +kernel
  rw [hblocks] at ha hb
  unfold MemBlock.reaches at hai hbi
  rw [hp, decide_eq_true_iff] at hai hbi
  simp only [List.mem_cons, List.not_mem_nil, or_false] at ha hb
  rcases ha with rfl | rfl <;> rcases hb with rfl | rfl <;> simp only at hai hbi ⊢ <;> omega

/-- Two nodes that meet inside a section: the pages of the second are on its lists, and their `page`
structures have the first.
Source: `sys/mem_map.cpp` `mem_map_init`
Kind: C -/
theorem Boot.pageNid_not_always : ¬ ∀ (sizeofPage : ℕ) (nodes : NumaNodes) (free : FreePages)
    (later : List ℕ) (r : Boot), NumaLayout nodes → FreeRanges free → (∀ q ∈ free, q.nid = anyNid) →
      bootPages sizeofPage nodes free later = some r → r.NodesAgree := by
  intro hall
  have hnodes : NumaLayout sharedNodes := numaLayout_pair (by norm_num) (by norm_num)
    (by unfold word; norm_num)
  obtain ⟨hfree, hany⟩ := freeRanges_twoRanges (p := 16384) (by norm_num)
    (by unfold maxPfn; norm_num)
  have hrun : (bootPages 42 sharedNodes (twoRanges 16384) [0]).map Boot.ranges =
      some [⟨1024, 687, 0⟩, ⟨16384, 1024, 1⟩] := by
    unfold bootPages
    dsimp only
    rw [memMapInit_eq_range hnodes (k := 1) (by decide +kernel) (by decide +kernel)]
    decide +kernel
  obtain ⟨r, hr, hranges⟩ := Option.map_eq_some_iff.mp hrun
  have hagree := hall 42 sharedNodes (twoRanges 16384) [0] r hnodes hfree hany hr
  rw [Boot.nodesAgree_iff_nodePages hnodes hfree hany hr, hranges] at hagree
  have hbad := hagree ⟨16384, 1024, 1⟩ (by simp) 16384 le_rfl (by decide)
  exact absurd hbad (by decide +kernel)

end Boots

end EbbRT
