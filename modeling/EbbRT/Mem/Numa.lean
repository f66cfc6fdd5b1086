import EbbRT.Mem.EarlyPageAllocatorRuns

/-!
# Nodes of free ranges

`early_set_nid_range` goes over the free ranges and gives the pages from `start` on and below `end` a
node: a range that reaches over an end is split there. `setNidLoop_eq` says what becomes of each range;
`earlySetNidRange_exactlyWhen`, when no page and no node is lost in it. `numa_init` calls it for the
memory blocks of all nodes. `assigned_numaInit`: afterwards every free range lies inside one block,
with its node, or in none, with `ANY_NID`.
-/

namespace EbbRT

namespace EarlyPageAllocator

/-! ## The code -/

/-- `free_pages->insert(range)`: the set is ordered by the first page.
Source: `sys/early_page_allocator.cpp` `early_set_nid_range`
Kind: D -/
def insertRange (range : PageRange) (l : FreePages) : FreePages :=
  l.takeWhile (fun r => r.start < range.start) ++
    range :: l.dropWhile fun r => r.start < range.start

/-- The loop over the set from `it` on; what is inserted comes after `it`.
Source: `sys/early_page_allocator.cpp` `early_set_nid_range`
Kind: D -/
def setNidLoop (start stop nid : ℕ) : ℕ → FreePages → FreePages
  | 0, l => l
  | _ + 1, [] => []
  | fuel + 1, it :: rest =>
      if it.pfnEnd ≤ start then it :: setNidLoop start stop nid fuel rest
      else if it.start ≥ stop then it :: rest
      else if it.start < start ∧ it.pfnEnd > start then
        -- straddles below
        let newEnd := min stop it.pfnEnd
        let newRange : PageRange := ⟨start, wsub newEnd start, nid⟩
        { it with npages := wsub start it.start } ::
          setNidLoop start stop nid fuel (insertRange newRange rest)
      else if it.start < stop ∧ it.pfnEnd > stop then
        -- straddles above
        let newRange : PageRange := ⟨stop, wsub it.pfnEnd stop, anyNid⟩
        { it with npages := wsub stop it.start, nid := nid } ::
          setNidLoop start stop nid fuel (insertRange newRange rest)
      else { it with nid := nid } :: setNidLoop start stop nid fuel rest

/-- A range is split once at most, and what is inserted then is not split again: the loop has no more
than two turns for each range there was.
Source: `sys/early_page_allocator.cpp` `early_set_nid_range`
Kind: D -/
def earlySetNidRange (start stop nid : ℕ) (l : FreePages) : FreePages :=
  setNidLoop start stop nid (2 * l.length + 1) l

end EarlyPageAllocator

/-- Source: `sys/numa.hpp` `numa_memblock`
Kind: D -/
structure MemBlock where
  start : ℕ
  stop : ℕ
  nid : ℕ
  deriving DecidableEq, Repr

/-- `numa_nodes`: for each node its `memblocks`.
Source: `sys/numa.hpp` `numa_nodes`
Kind: D -/
abbrev NumaNodes := List (List MemBlock)

/-- `std::sort` by the first page.
Source: `sys/numa.cpp` `numa_init`
Kind: D -/
def sortMemblocks (memblocks : List MemBlock) : List MemBlock :=
  memblocks.insertionSort fun a b => a.start ≤ b.start

/-- The nodes with their blocks sorted, and the free ranges.
Source: `sys/numa.cpp` `numa_init`
Kind: D -/
def numaInit (nodes : NumaNodes) (free : EarlyPageAllocator.FreePages) :
    NumaNodes × EarlyPageAllocator.FreePages :=
  (nodes.map sortMemblocks,
    nodes.foldl (fun free node =>
      (sortMemblocks node).foldl (fun free memblock =>
        EarlyPageAllocator.earlySetNidRange memblock.start memblock.stop memblock.nid free) free)
      free)

/-- The pages of a block.
Source: `sys/numa.hpp` `numa_memblock`
Kind: D -/
def MemBlock.pages (b : MemBlock) : Set ℕ := Set.Ico b.start b.stop

/-- All blocks, in the order in which they are gone over.
Source: `sys/numa.cpp` `numa_init`, `sys/mem_map.cpp` `mem_map_init`
Kind: D -/
def memblocks (nodes : NumaNodes) : List MemBlock := nodes.flatMap sortMemblocks

namespace EarlyPageAllocator

/-! ## One block -/

/-- Free ranges: in order and apart, inside the address space.
Source: `sys/early_page_allocator.hpp` `free_pages`
Kind: D -/
structure FreeRanges (l : FreePages) : Prop where
  apart : l.Pairwise fun a b => stop a ≤ b.start
  bounded : ∀ r ∈ l, stop r ≤ maxPfn

/-- How a range comes out of one that was there, when the pages from `lo` on and below `hi` get the
node: inside them; outside them and as before; or above them, from a range that reaches out of them.
Source: `sys/early_page_allocator.cpp` `early_set_nid_range`
Kind: D -/
def CutFrom (lo hi nid : ℕ) (r r' : PageRange) : Prop :=
  (r.start ≤ r'.start ∧ stop r' ≤ stop r) ∧
    ((r'.nid = nid ∧ lo ≤ r'.start ∧ stop r' ≤ hi) ∨
      (r'.nid = r.nid ∧ (stop r' ≤ lo ∨ hi ≤ r'.start)) ∨
      (r'.nid = anyNid ∧ hi ≤ r'.start ∧ lo ≤ r.start ∧ r.start < hi ∧ hi < stop r))

variable {it range : PageRange} {rest l : FreePages} {lo hi nid fuel : ℕ}

/-- Source: none: infrastructure
Kind: L -/
theorem FreeRanges.tail (h : FreeRanges (it :: rest)) :
    FreeRanges rest ∧ ∀ r ∈ rest, stop it ≤ r.start := by
  obtain ⟨hit, hrest⟩ := List.pairwise_cons.mp h.apart
  exact ⟨⟨hrest, fun r hr => h.bounded r (List.mem_cons_of_mem _ hr)⟩, hit⟩

/-- A range in front. Source: none: infrastructure. Kind: L -/
theorem FreeRanges.cons (it : PageRange) (h : FreeRanges rest) (hb : stop it ≤ maxPfn)
    (hit : ∀ r ∈ rest, stop it ≤ r.start) : FreeRanges (it :: rest) :=
  ⟨List.pairwise_cons.mpr ⟨hit, h.apart⟩, List.forall_mem_cons.mpr ⟨hb, h.bounded⟩⟩

/-- Ranges inside one, all with its start, in its place.
Source: none: infrastructure
Kind: L -/
theorem FreeRanges.replace {pre post c : FreePages} (h : FreeRanges (pre ++ it :: post))
    (hc : ∀ r ∈ c, r.start = it.start ∧ stop r ≤ stop it) (hone : c.length ≤ 1) :
    FreeRanges (pre ++ c ++ post) := by
  obtain ⟨hpre, hpost, hcross⟩ := List.pairwise_append.mp h.apart
  obtain ⟨hit, hpost⟩ := List.pairwise_cons.mp hpost
  have hsingle : c.Pairwise fun a b => stop a ≤ b.start := by
    match c, hone with
    | [], _ => exact List.Pairwise.nil
    | [a], _ => exact List.pairwise_singleton _ _
  refine ⟨?_, fun r hr => ?_⟩
  · rw [List.append_assoc]
    refine List.pairwise_append.mpr ⟨hpre, List.pairwise_append.mpr ⟨hsingle, hpost, ?_⟩, ?_⟩
    · intro a ha b hb
      exact (hc a ha).2.trans (hit b hb)
    · intro a ha b hb
      rcases List.mem_append.mp hb with hb | hb
      · rw [(hc b hb).1]
        exact hcross a ha it List.mem_cons_self
      · exact hcross a ha b (List.mem_cons_of_mem _ hb)
  · rcases List.mem_append.mp hr with hr | hr
    · rcases List.mem_append.mp hr with hr | hr
      · exact h.bounded r (List.mem_append_left _ hr)
      · exact (hc r hr).2.trans (h.bounded it (List.mem_append_right _ List.mem_cons_self))
    · exact h.bounded r (List.mem_append_right _ (List.mem_cons_of_mem _ hr))

/-- A range below all others is inserted in front. Source: none: infrastructure. Kind: L -/
theorem insertRange_front (h : ∀ r ∈ rest, range.start ≤ r.start) :
    insertRange range rest = range :: rest := by
  unfold insertRange
  cases rest with
  | nil => rfl
  | cons r rest =>
      have hle := h r List.mem_cons_self
      rw [List.takeWhile_cons, List.dropWhile_cons, if_neg, if_neg]
      · rfl
      · simpa using hle
      · simpa using hle

/-- The number of pages between two page numbers. Source: none: infrastructure. Kind: L -/
theorem wsub_pfn {a b : ℕ} (hab : a ≤ b) (hb : b ≤ maxPfn) : wsub b a = b - a := by
  apply wsub_eq hab
  unfold maxPfn at hb
  unfold word
  omega

/-- Where a range ends that is made from its ends. Source: none: infrastructure. Kind: L -/
theorem stop_mk {a b n : ℕ} (hab : a ≤ b) : stop ⟨a, b - a, n⟩ = b := by
  unfold stop
  dsimp only
  omega

/-- A range below the pages stays. Source: `sys/early_page_allocator.cpp` `early_set_nid_range`.
Kind: L -/
theorem setNidLoop_below (hb : stop it ≤ maxPfn) (h : stop it ≤ lo) :
    setNidLoop lo hi nid (fuel + 1) (it :: rest) = it :: setNidLoop lo hi nid fuel rest := by
  rw [setNidLoop, pfnEnd_eq hb, if_pos h]

/-- From the first range above the pages on, all stay.
Source: `sys/early_page_allocator.cpp` `early_set_nid_range`
Kind: L -/
theorem setNidLoop_above (hb : stop it ≤ maxPfn) (h1 : lo < stop it) (h2 : hi ≤ it.start) :
    setNidLoop lo hi nid (fuel + 1) (it :: rest) = it :: rest := by
  rw [setNidLoop, pfnEnd_eq hb, if_neg h1.not_ge, if_pos h2]

/-- A range inside the pages gets the node.
Source: `sys/early_page_allocator.cpp` `early_set_nid_range`
Kind: L -/
theorem setNidLoop_inside (hb : stop it ≤ maxPfn) (h1 : lo < stop it) (h2 : it.start < hi)
    (h3 : lo ≤ it.start) (h4 : stop it ≤ hi) :
    setNidLoop lo hi nid (fuel + 1) (it :: rest) =
      ⟨it.start, it.npages, nid⟩ :: setNidLoop lo hi nid fuel rest := by
  rw [setNidLoop, pfnEnd_eq hb, if_neg h1.not_ge, if_neg h2.not_ge, if_neg fun h => h.1.not_ge h3,
    if_neg fun h => h.2.not_ge h4]

/-- A range that starts below the pages is split there; the turn after that is for the new range.
What it has above the pages is in neither.
Source: `sys/early_page_allocator.cpp` `early_set_nid_range`
Kind: L -/
theorem setNidLoop_straddles_below (h : FreeRanges (it :: rest)) (hlohi : lo ≤ hi)
    (h1 : it.start < lo) (h2 : lo < stop it) :
    setNidLoop lo hi nid (fuel + 2) (it :: rest) =
      ⟨it.start, lo - it.start, it.nid⟩ :: ⟨lo, min hi (stop it) - lo, nid⟩ ::
        setNidLoop lo hi nid fuel rest := by
  have hb : stop it ≤ maxPfn := h.bounded it List.mem_cons_self
  have hnew : stop ⟨lo, min hi (stop it) - lo, nid⟩ = min hi (stop it) := stop_mk (by omega)
  have hfront : ∀ r ∈ rest, lo ≤ r.start := fun r hr => h2.le.trans (h.tail.2 r hr)
  rw [setNidLoop, pfnEnd_eq hb, if_neg h2.not_ge, if_neg (by omega), if_pos ⟨h1, h2⟩]
  dsimp only
  rw [wsub_pfn h1.le (by omega), wsub_pfn (by omega) (by omega), insertRange_front hfront]
  congr 1
  by_cases hempty : lo = hi
  · exact setNidLoop_below (by omega) (by omega)
  · exact setNidLoop_inside (by omega) (by omega) (by dsimp only; omega) le_rfl (by omega)

/-- A range that ends above the pages is split there, and the loop ends with the new range.
Source: `sys/early_page_allocator.cpp` `early_set_nid_range`
Kind: L -/
theorem setNidLoop_straddles_above (h : FreeRanges (it :: rest)) (h1 : lo ≤ it.start)
    (h2 : it.start < hi) (h3 : hi < stop it) :
    setNidLoop lo hi nid (fuel + 2) (it :: rest) =
      ⟨it.start, hi - it.start, nid⟩ :: ⟨hi, stop it - hi, anyNid⟩ :: rest := by
  have hb : stop it ≤ maxPfn := h.bounded it List.mem_cons_self
  have hnew : stop ⟨hi, stop it - hi, anyNid⟩ = stop it := stop_mk h3.le
  have hfront : ∀ r ∈ rest, hi ≤ r.start := fun r hr => h3.le.trans (h.tail.2 r hr)
  rw [setNidLoop, pfnEnd_eq hb, if_neg (by omega), if_neg h2.not_ge, if_neg fun h => h.1.not_ge h1,
    if_pos ⟨h2, h3⟩]
  dsimp only
  rw [wsub_pfn h2.le (by omega), wsub_pfn h3.le hb, insertRange_front hfront]
  congr 1
  exact setNidLoop_above (by omega) (by omega) le_rfl

/-- What becomes of one range.
Source: `sys/early_page_allocator.cpp` `early_set_nid_range`
Kind: D -/
def pieces (lo hi nid : ℕ) (r : PageRange) : List PageRange :=
  if stop r ≤ lo ∨ hi ≤ r.start then [r]
  else if r.start < lo then
    [⟨r.start, lo - r.start, r.nid⟩, ⟨lo, min hi (stop r) - lo, nid⟩]
  else if hi < stop r then [⟨r.start, hi - r.start, nid⟩, ⟨hi, stop r - hi, anyNid⟩]
  else [⟨r.start, r.npages, nid⟩]

/-- Ranges above the pages stay. Source: `sys/early_page_allocator.cpp` `early_set_nid_range`.
Kind: L -/
theorem flatMap_pieces_above (h : ∀ r ∈ l, hi ≤ r.start) : l.flatMap (pieces lo hi nid) = l := by
  induction l with
  | nil => rfl
  | cons r rest ih =>
      obtain ⟨hr, hrest⟩ := List.forall_mem_cons.mp h
      rw [List.flatMap_cons, ih hrest]
      unfold pieces
      rw [if_pos (Or.inr hr)]
      rfl

/-- **The loop** cuts every range by itself.
Source: `sys/early_page_allocator.cpp` `early_set_nid_range`
Kind: P -/
theorem setNidLoop_eq (h : FreeRanges l) (hlohi : lo ≤ hi) (hfuel : 2 * l.length ≤ fuel) :
    setNidLoop lo hi nid fuel l = l.flatMap (pieces lo hi nid) := by
  induction l generalizing fuel with
  | nil => cases fuel <;> rfl
  | cons it rest ih =>
      obtain ⟨hrest, hit⟩ := h.tail
      have hb : stop it ≤ maxPfn := h.bounded it List.mem_cons_self
      rw [List.length_cons] at hfuel
      obtain ⟨f, rfl⟩ : ∃ f, fuel = f + 2 := ⟨fuel - 2, by omega⟩
      rw [List.flatMap_cons]
      unfold pieces
      by_cases h1 : stop it ≤ lo
      · rw [if_pos (Or.inl h1), setNidLoop_below hb h1, ih hrest (by omega)]
        rfl
      by_cases h2 : hi ≤ it.start
      · have habove : ∀ r ∈ rest, hi ≤ r.start := by
          intro r hr
          have hle := hit r hr
          unfold stop at hle
          omega
        rw [if_pos (Or.inr h2), setNidLoop_above hb (by omega) h2]
        exact congrArg (it :: ·) (flatMap_pieces_above habove).symm
      rw [if_neg (by omega)]
      by_cases h3 : it.start < lo
      · rw [if_pos h3, setNidLoop_straddles_below h hlohi h3 (by omega), ih hrest (by omega)]
        rfl
      by_cases h4 : hi < stop it
      · have habove : ∀ r ∈ rest, hi ≤ r.start := fun r hr => h4.le.trans (hit r hr)
        rw [if_neg h3, if_pos h4, setNidLoop_straddles_above h (by omega) (by omega) h4]
        show _ = _ ++ rest.flatMap (pieces lo hi nid)
        rw [flatMap_pieces_above habove]
        rfl
      · rw [if_neg h3, if_neg h4, setNidLoop_inside hb (by omega) (by omega) (by omega) (by omega),
          ih hrest (by omega)]
        rfl

/-- Source: `sys/early_page_allocator.cpp` `early_set_nid_range`
Kind: L -/
theorem earlySetNidRange_eq (nid : ℕ) (h : FreeRanges l) (hlohi : lo ≤ hi) :
    earlySetNidRange lo hi nid l = l.flatMap (pieces lo hi nid) :=
  setNidLoop_eq h hlohi (Nat.le_succ _)

/-- The pieces of a range come out of it, in order and apart.
Source: `sys/early_page_allocator.cpp` `early_set_nid_range`
Kind: L -/
theorem pieces_spec (hlohi : lo ≤ hi) (r : PageRange) :
    (∀ r' ∈ pieces lo hi nid r, CutFrom lo hi nid r r') ∧
      (pieces lo hi nid r).Pairwise fun a b => stop a ≤ b.start := by
  unfold pieces CutFrom
  split_ifs with h1 h2 h3
  · refine ⟨fun r' hr' => ?_, List.pairwise_singleton _ _⟩
    obtain rfl := List.mem_singleton.mp hr'
    exact ⟨⟨le_rfl, le_rfl⟩, Or.inr (Or.inl ⟨rfl, h1⟩)⟩
  · have hlow : stop ⟨r.start, lo - r.start, r.nid⟩ = lo := stop_mk h2.le
    have hhigh : stop ⟨lo, min hi (stop r) - lo, nid⟩ = min hi (stop r) := stop_mk (by omega)
    refine ⟨?_, List.pairwise_pair.mpr hlow.le⟩
    refine List.forall_mem_cons.mpr ⟨?_, List.forall_mem_singleton.mpr ?_⟩
    · exact ⟨⟨le_rfl, by omega⟩, Or.inr (Or.inl ⟨rfl, Or.inl hlow.le⟩)⟩
    · exact ⟨⟨h2.le, by omega⟩, Or.inl ⟨rfl, le_rfl, by omega⟩⟩
  · have hlow : stop ⟨r.start, hi - r.start, nid⟩ = hi := stop_mk (by omega)
    have hhigh : stop ⟨hi, stop r - hi, anyNid⟩ = stop r := stop_mk h3.le
    refine ⟨?_, List.pairwise_pair.mpr hlow.le⟩
    refine List.forall_mem_cons.mpr ⟨?_, List.forall_mem_singleton.mpr ?_⟩
    · exact ⟨⟨le_rfl, by omega⟩, Or.inl ⟨rfl, Nat.le_of_not_lt h2, hlow.le⟩⟩
    · exact ⟨⟨by dsimp only; omega, hhigh.le⟩,
        Or.inr (Or.inr ⟨rfl, le_rfl, by omega, by omega, h3⟩)⟩
  · refine ⟨fun r' hr' => ?_, List.pairwise_singleton _ _⟩
    obtain rfl := List.mem_singleton.mp hr'
    exact ⟨⟨le_rfl, le_rfl⟩, Or.inl ⟨rfl, by dsimp only; omega, Nat.le_of_not_lt h3⟩⟩

/-- **One block.** The ranges stay in order and apart, and each comes out of one that was there.
Source: `sys/early_page_allocator.cpp` `early_set_nid_range`
Kind: P -/
theorem earlySetNidRange_spec (nid : ℕ) (h : FreeRanges l) (hlohi : lo ≤ hi) :
    FreeRanges (earlySetNidRange lo hi nid l) ∧
      ∀ r' ∈ earlySetNidRange lo hi nid l, ∃ r ∈ l, CutFrom lo hi nid r r' := by
  have hcut : ∀ r' ∈ l.flatMap (pieces lo hi nid), ∃ r ∈ l, CutFrom lo hi nid r r' := by
    intro r' hr'
    obtain ⟨r, hr, hmem⟩ := List.mem_flatMap.mp hr'
    exact ⟨r, hr, (pieces_spec hlohi r).1 r' hmem⟩
  rw [earlySetNidRange_eq nid h hlohi]
  refine ⟨⟨List.pairwise_flatMap.mpr ⟨fun r _ => (pieces_spec hlohi r).2, ?_⟩, ?_⟩, hcut⟩
  · refine h.apart.imp fun {a b} hab x hx y hy => ?_
    have hx := ((pieces_spec hlohi a).1 x hx).1.2
    have hy := ((pieces_spec hlohi b).1 y hy).1.1
    omega
  · intro r' hr'
    obtain ⟨r, hr, hc⟩ := hcut r' hr'
    exact hc.1.2.trans (h.bounded r hr)

/-! ## What a block leaves of the free pages -/

/-- The node of a free page, `none` for a page that is not free.
Source: `sys/early_page_allocator.hpp` `page_range`
Kind: D -/
def nidAt (l : FreePages) (p : ℕ) : Option ℕ :=
  l.findSome? fun r => if r.start ≤ p ∧ p < stop r then some r.nid else none

/-- Free ranges, and none without pages.
Source: `sys/early_page_allocator.hpp` `free_pages`
Kind: D -/
structure EarlyRanges (l : FreePages) : Prop where
  free : FreeRanges l
  nonempty : ∀ r ∈ l, r.start < stop r

/-- The free pages from `lo` on and below `hi` have the node, the others the node that they had, and
there are no more and no fewer.
Source: `sys/early_page_allocator.cpp` `early_set_nid_range`
Kind: D -/
structure SetsNid (l : FreePages) (lo hi nid : ℕ) (l' : FreePages) : Prop where
  ranges : EarlyRanges l'
  nids : ∀ p, nidAt l' p = (nidAt l p).map fun old => if lo ≤ p ∧ p < hi then nid else old

/-- No range reaches over both ends, and what reaches over the upper end from inside has no node.
Source: `sys/early_page_allocator.cpp` `early_set_nid_range`
Kind: D -/
def KeepsRemainder (lo hi : ℕ) (r : PageRange) : Prop :=
  ¬ (r.start < lo ∧ hi < stop r) ∧ (lo ≤ r.start ∧ r.start < hi ∧ hi < stop r → r.nid = anyNid)

instance (lo hi : ℕ) (r : PageRange) : Decidable (KeepsRemainder lo hi r) :=
  inferInstanceAs (Decidable (_ ∧ _))

/-- A page outside a range is in none of its pieces.
Source: `sys/early_page_allocator.cpp` `early_set_nid_range`
Kind: L -/
theorem nidAt_pieces_of_not_mem (hlohi : lo ≤ hi) {r : PageRange} {p : ℕ}
    (hp : ¬ (r.start ≤ p ∧ p < stop r)) : nidAt (pieces lo hi nid r) p = none := by
  unfold nidAt
  rw [List.findSome?_eq_none_iff]
  intro r' hr'
  obtain ⟨hstart, hstop⟩ := ((pieces_spec hlohi r).1 r' hr').1
  rw [if_neg]
  rintro ⟨h1, h2⟩
  exact hp ⟨hstart.trans h1, h2.trans_le hstop⟩

/-- A page in a range is in the pieces of no other.
Source: `sys/early_page_allocator.cpp` `early_set_nid_range`
Kind: L -/
theorem nidAt_flatMap_pieces (h : FreeRanges l) (hlohi : lo ≤ hi) {r : PageRange} (hr : r ∈ l)
    {p : ℕ} (hp : r.start ≤ p ∧ p < stop r) :
    nidAt (l.flatMap (pieces lo hi nid)) p = nidAt (pieces lo hi nid r) p := by
  induction l with
  | nil => exact absurd hr List.not_mem_nil
  | cons a rest ih =>
      obtain ⟨hrest, ha⟩ := h.tail
      have happend : nidAt (pieces lo hi nid a ++ rest.flatMap (pieces lo hi nid)) p =
          (nidAt (pieces lo hi nid a) p).or (nidAt (rest.flatMap (pieces lo hi nid)) p) :=
        List.findSome?_append
      rw [List.flatMap_cons, happend]
      rcases List.mem_cons.mp hr with rfl | hr
      · have hnone : nidAt (rest.flatMap (pieces lo hi nid)) p = none := by
          unfold nidAt
          rw [List.findSome?_eq_none_iff]
          intro x hx
          obtain ⟨b, hb, hxb⟩ := List.mem_flatMap.mp hx
          have hle := ha b hb
          have hstart := ((pieces_spec hlohi b).1 x hxb).1.1
          rw [if_neg]
          omega
        rw [hnone, Option.or_none]
      · have hnot : ¬ (a.start ≤ p ∧ p < stop a) := by
          have hle := ha r hr
          omega
        rw [nidAt_pieces_of_not_mem hlohi hnot, Option.none_or]
        exact ih hrest hr

/-- The node of a page in a range. Source: `sys/early_page_allocator.hpp` `page_range`. Kind: L -/
theorem nidAt_eq (h : FreeRanges l) {r : PageRange} (hr : r ∈ l) {p : ℕ}
    (hp : r.start ≤ p ∧ p < stop r) : nidAt l p = some r.nid := by
  -- cutting at no page changes nothing
  have hsame : ∀ a : PageRange, pieces 0 0 0 a = [a] := fun a => if_pos (Or.inr (Nat.zero_le _))
  have hl : l.flatMap (pieces 0 0 0) = l := flatMap_pieces_above fun a _ => Nat.zero_le _
  have hpiece : nidAt (l.flatMap (pieces 0 0 0)) p = nidAt (pieces 0 0 0 r) p :=
    nidAt_flatMap_pieces h (Nat.le_refl 0) hr hp
  rw [hl, hsame r] at hpiece
  rw [hpiece]
  unfold nidAt
  rw [List.findSome?_singleton, if_pos hp]

/-- A page that is in no range is in no piece.
Source: `sys/early_page_allocator.cpp` `early_set_nid_range`
Kind: L -/
theorem nidAt_flatMap_of_not_mem (nid : ℕ) (hlohi : lo ≤ hi) {p : ℕ}
    (hp : ∀ r ∈ l, ¬ (r.start ≤ p ∧ p < stop r)) :
    nidAt (l.flatMap (pieces lo hi nid)) p = none ∧ nidAt l p = none := by
  constructor
  · unfold nidAt
    rw [List.findSome?_eq_none_iff]
    intro x hx
    obtain ⟨r, hr, hxr⟩ := List.mem_flatMap.mp hx
    obtain ⟨hstart, hstop⟩ := ((pieces_spec hlohi r).1 x hxr).1
    rw [if_neg]
    rintro ⟨h1, h2⟩
    exact hp r hr ⟨hstart.trans h1, h2.trans_le hstop⟩
  · unfold nidAt
    rw [List.findSome?_eq_none_iff]
    intro r hr
    rw [if_neg (hp r hr)]

/-- A page of one range.
Source: `sys/early_page_allocator.hpp` `page_range`
Kind: L -/
theorem nidAt_pair {a b : PageRange} {p : ℕ} : nidAt [a, b] p =
    if a.start ≤ p ∧ p < stop a then some a.nid
    else if b.start ≤ p ∧ p < stop b then some b.nid else none := by
  unfold nidAt
  rw [List.findSome?_cons, List.findSome?_singleton]
  by_cases ha : a.start ≤ p ∧ p < stop a
  · rw [if_pos ha, if_pos ha]
  · rw [if_neg ha, if_neg ha]

/-- **One range.** Its pieces have all its pages, with the nodes that they should have, if and only if
nothing of it is lost and nothing loses its node.
Source: `sys/early_page_allocator.cpp` `early_set_nid_range`
Kind: P -/
theorem nidAt_pieces_iff (nid : ℕ) (hlohi : lo < hi) {r : PageRange} (hr : r.start < stop r) :
    (∀ p, r.start ≤ p → p < stop r →
      nidAt (pieces lo hi nid r) p = some (if lo ≤ p ∧ p < hi then nid else r.nid)) ↔
      KeepsRemainder lo hi r := by
  have hsingle : ∀ n p, nidAt [⟨r.start, r.npages, n⟩] p =
      if r.start ≤ p ∧ p < stop r then some n else none := fun n p => List.findSome?_singleton
  unfold KeepsRemainder pieces
  by_cases h1 : stop r ≤ lo ∨ hi ≤ r.start
  · rw [if_pos h1]
    refine ⟨fun _ => ⟨by omega, by omega⟩, fun _ p h2 h3 => ?_⟩
    rw [hsingle r.nid p, if_pos ⟨h2, h3⟩, if_neg (by omega)]
  rw [if_neg h1]
  by_cases h2 : r.start < lo
  · have hlow : stop ⟨r.start, lo - r.start, r.nid⟩ = lo := stop_mk h2.le
    have hhigh : stop ⟨lo, min hi (stop r) - lo, nid⟩ = min hi (stop r) := stop_mk (by omega)
    simp only [if_pos h2, nidAt_pair, hlow, hhigh]
    constructor
    · intro hall
      refine ⟨fun hboth => ?_, by omega⟩
      -- the first page above is lost
      have hlost := hall hi (by omega) hboth.2
      rw [if_neg (by omega), if_neg (by omega)] at hlost
      cases hlost
    · rintro ⟨hkeep, -⟩ p h3 h4
      by_cases hp : p < lo
      · rw [if_pos ⟨h3, hp⟩, if_neg (by omega)]
      · rw [if_neg (by omega), if_pos (by omega), if_pos (by omega)]
  rw [if_neg h2]
  by_cases h3 : hi < stop r
  · have hlow : stop ⟨r.start, hi - r.start, nid⟩ = hi := stop_mk (by omega)
    have hhigh : stop ⟨hi, stop r - hi, anyNid⟩ = stop r := stop_mk h3.le
    simp only [if_pos h3, nidAt_pair, hlow, hhigh]
    constructor
    · intro hall
      refine ⟨by omega, fun _ => ?_⟩
      -- the first page above has lost its node
      have hany := hall hi (by omega) h3
      rw [if_neg (by omega), if_pos ⟨le_rfl, h3⟩, if_neg (by omega)] at hany
      exact (Option.some.inj hany).symm
    · rintro ⟨-, hany⟩ p h4 h5
      by_cases hp : p < hi
      · rw [if_pos ⟨h4, hp⟩, if_pos (by omega)]
      · rw [if_neg (by omega), if_pos (by omega), if_neg (by omega), hany (by omega)]
  · rw [if_neg h3]
    refine ⟨fun _ => ⟨by omega, by omega⟩, fun _ p h4 h5 => ?_⟩
    rw [hsingle nid p, if_pos ⟨h4, h5⟩, if_pos (by omega)]

/-- No piece is empty. Source: `sys/early_page_allocator.cpp` `early_set_nid_range`. Kind: L -/
theorem nonempty_pieces (hlohi : lo < hi) {r : PageRange} (hr : r.start < stop r) :
    ∀ r' ∈ pieces lo hi nid r, r'.start < stop r' := by
  unfold pieces
  split_ifs with h1 h2 h3
  · exact List.forall_mem_singleton.mpr hr
  · have hlow : stop ⟨r.start, lo - r.start, r.nid⟩ = lo := stop_mk h2.le
    have hhigh : stop ⟨lo, min hi (stop r) - lo, nid⟩ = min hi (stop r) := stop_mk (by omega)
    refine List.forall_mem_cons.mpr ⟨?_, List.forall_mem_singleton.mpr ?_⟩
    · exact h2.trans_eq hlow.symm
    · rw [hhigh]
      dsimp only
      omega
  · have hlow : stop ⟨r.start, hi - r.start, nid⟩ = hi := stop_mk (by omega)
    have hhigh : stop ⟨hi, stop r - hi, anyNid⟩ = stop r := stop_mk h3.le
    refine List.forall_mem_cons.mpr ⟨?_, List.forall_mem_singleton.mpr ?_⟩
    · rw [hlow]
      dsimp only
      omega
    · exact h3.trans_eq hhigh.symm
  · exact List.forall_mem_singleton.mpr hr

/-- **Assigning a node to pages.** The free pages stay the same, in ranges that are in order, apart and
not empty, and only those between `start` and `e` get the node, if and only if no range reaches over
both ends and each that reaches over the upper end from inside has no node before.
Source: `sys/early_page_allocator.cpp` `early_set_nid_range`
Kind: P
Hyps: `h`: the ranges as the early page allocator keeps them -/
theorem earlySetNidRange_exactlyWhen (l : FreePages) (start e nid : ℕ) (h : EarlyRanges l)
    (hlt : start < e) :
    SetsNid l start e nid (earlySetNidRange start e nid l) ↔ ∀ r ∈ l, KeepsRemainder start e r := by
  have heq := earlySetNidRange_eq nid h.free hlt.le
  constructor
  · intro hsets r hr
    refine (nidAt_pieces_iff nid hlt (h.nonempty r hr)).mp fun p h1 h2 => ?_
    have hnid := hsets.nids p
    rw [heq, nidAt_flatMap_pieces h.free hlt.le hr ⟨h1, h2⟩, nidAt_eq h.free hr ⟨h1, h2⟩] at hnid
    exact hnid
  · intro hkeep
    refine ⟨⟨(earlySetNidRange_spec nid h.free hlt.le).1, fun r' hr' => ?_⟩, fun p => ?_⟩
    · rw [heq] at hr'
      obtain ⟨r, hr, hmem⟩ := List.mem_flatMap.mp hr'
      exact nonempty_pieces hlt (h.nonempty r hr) r' hmem
    · rw [heq]
      by_cases hp : ∃ r ∈ l, r.start ≤ p ∧ p < stop r
      · obtain ⟨r, hr, h1, h2⟩ := hp
        rw [nidAt_flatMap_pieces h.free hlt.le hr ⟨h1, h2⟩, nidAt_eq h.free hr ⟨h1, h2⟩]
        exact (nidAt_pieces_iff nid hlt (h.nonempty r hr)).mpr (hkeep r hr) p h1 h2
      · obtain ⟨h1, h2⟩ := nidAt_flatMap_of_not_mem nid hlt.le
          (fun r hr hmem => hp ⟨r, hr, hmem⟩)
        rw [h1, h2]
        rfl

/-- Two ranges, of which one reaches over the lower end and one over the upper.
Source: `sys/early_page_allocator.cpp` `early_set_nid_range`
Kind: C -/
theorem earlySetNidRange_exactlyWhen_two :
    SetsNid [⟨4, 8, 2⟩, ⟨16, 8, anyNid⟩] 8 20 1 (earlySetNidRange 8 20 1 [⟨4, 8, 2⟩, ⟨16, 8, anyNid⟩])
      ∧ earlySetNidRange 8 20 1 [⟨4, 8, 2⟩, ⟨16, 8, anyNid⟩] =
        [⟨4, 4, 2⟩, ⟨8, 4, 1⟩, ⟨16, 4, 1⟩, ⟨20, 4, anyNid⟩] := by
  have h : EarlyRanges [⟨4, 8, 2⟩, ⟨16, 8, anyNid⟩] := by
    refine ⟨⟨List.pairwise_pair.mpr (by decide), ?_⟩, ?_⟩
    · exact List.forall_mem_cons.mpr ⟨by decide, List.forall_mem_singleton.mpr (by decide)⟩
    · exact List.forall_mem_cons.mpr ⟨by decide, List.forall_mem_singleton.mpr (by decide)⟩
  refine ⟨(earlySetNidRange_exactlyWhen _ 8 20 1 h (by decide)).mpr ?_, by decide⟩
  exact List.forall_mem_cons.mpr ⟨by decide, List.forall_mem_singleton.mpr (by decide)⟩

/-- A range that reaches over both ends: what it has above is no longer free.
Source: `sys/early_page_allocator.cpp` `early_set_nid_range`
Kind: C -/
theorem earlySetNidRange_not_always : ¬ ∀ (l : FreePages) (start e nid : ℕ), EarlyRanges l →
    start < e → SetsNid l start e nid (earlySetNidRange start e nid l) := by
  intro hall
  have h : EarlyRanges [⟨4, 12, anyNid⟩] :=
    ⟨⟨List.pairwise_singleton _ _, List.forall_mem_singleton.mpr (by decide)⟩,
      List.forall_mem_singleton.mpr (by decide)⟩
  have hlost := (hall [⟨4, 12, anyNid⟩] 8 12 1 h (by decide)).nids 12
  exact absurd hlost (by decide)

end EarlyPageAllocator

/-! ## All blocks -/

open EarlyPageAllocator

/-- The blocks are page ranges that have no page in common, each of a node that there is.
Source: `sys/acpi.cpp` `parse_srat`
Kind: D -/
structure NumaLayout (nodes : NumaNodes) : Prop where
  few : nodes.length ≤ anyNid
  ordered : ∀ b ∈ memblocks nodes, b.start ≤ b.stop
  bounded : ∀ b ∈ memblocks nodes, b.stop < word
  nid_lt : ∀ b ∈ memblocks nodes, b.nid < nodes.length
  disjoint : (memblocks nodes).Pairwise fun a b => Disjoint a.pages b.pages

/-- Every range lies inside a block and has its node, or lies outside all blocks.
Source: `sys/numa.cpp` `numa_init`
Kind: D -/
def Assigned (blocks : List MemBlock) (l : FreePages) : Prop :=
  ∀ r ∈ l, (∃ b ∈ blocks, r.nid = b.nid ∧ b.start ≤ r.start ∧ stop r ≤ b.stop) ∨
    (r.nid = anyNid ∧ ∀ b ∈ blocks, stop r ≤ b.start ∨ b.stop ≤ r.start)

/-- Every range of `l'` is part of one of `l`, with its node.
Source: none: infrastructure
Kind: D -/
def Parts (l l' : FreePages) : Prop :=
  ∀ r' ∈ l', ∃ r ∈ l, r'.nid = r.nid ∧ r.start ≤ r'.start ∧ stop r' ≤ stop r

variable {nodes : NumaNodes} {blocks bs : List MemBlock} {b : MemBlock} {l l' : FreePages}

/-- Parts of the ranges are where the ranges are.
Source: none: infrastructure
Kind: L -/
theorem Assigned.mono (h : Assigned blocks l) (hl' : Parts l l') : Assigned blocks l' := by
  intro r' hr'
  obtain ⟨r, hr, hnid, hstart, hstop⟩ := hl' r' hr'
  rcases h r hr with ⟨b, hb, hbn, hlo, hhi⟩ | ⟨hany, hout⟩
  · exact Or.inl ⟨b, hb, hnid.trans hbn, hlo.trans hstart, hstop.trans hhi⟩
  · refine Or.inr ⟨hnid.trans hany, fun b hb => ?_⟩
    rcases hout b hb with hb | hb
    · exact Or.inl (hstop.trans hb)
    · exact Or.inr (hb.trans hstart)

/-- One more block.
Source: `sys/numa.cpp` `numa_init`
Kind: L -/
theorem Assigned.cut (h : Assigned blocks l) (hdisj : ∀ a ∈ blocks, Disjoint a.pages b.pages)
    (hcut : ∀ r' ∈ l', ∃ r ∈ l, CutFrom b.start b.stop b.nid r r') :
    Assigned (blocks ++ [b]) l' := by
  intro r' hr'
  obtain ⟨r, hr, ⟨hstart, hstop⟩, hin | hout | hnew⟩ := hcut r' hr'
  · obtain ⟨hnid, hlo, hhi⟩ := hin
    exact Or.inl ⟨b, List.mem_append_right _ (List.mem_singleton_self b), hnid, hlo, hhi⟩
  · obtain ⟨hnid, hb⟩ := hout
    rcases h r hr with ⟨a, ha, han, hlo, hhi⟩ | ⟨hany, hall⟩
    · exact Or.inl ⟨a, List.mem_append_left _ ha, hnid.trans han, hlo.trans hstart, hstop.trans hhi⟩
    · refine Or.inr ⟨hnid.trans hany, fun a ha => ?_⟩
      rcases List.mem_append.mp ha with ha | ha
      · have := hall a ha
        omega
      · obtain rfl := List.mem_singleton.mp ha
        exact hb
  · obtain ⟨hany, hhi, hlo, hlt, hgt⟩ := hnew
    rcases h r hr with ⟨a, ha, -, halo, hahi⟩ | ⟨-, hall⟩
    · -- the first page of `r` would be in both blocks
      have hmem : r.start ∈ a.pages ∧ r.start ∈ b.pages := ⟨⟨halo, by omega⟩, hlo, hlt⟩
      exact absurd hmem.2 (Set.disjoint_left.mp (hdisj a ha) hmem.1)
    · refine Or.inr ⟨hany, fun a ha => ?_⟩
      rcases List.mem_append.mp ha with ha | ha
      · have := hall a ha
        omega
      · obtain rfl := List.mem_singleton.mp ha
        exact Or.inr hhi

/-- Blocks that come one after the other.
Source: `sys/numa.cpp` `numa_init`
Kind: L -/
theorem Assigned.foldl (h : Assigned blocks l) (hl : FreeRanges l)
    (hord : ∀ b ∈ bs, b.start ≤ b.stop)
    (hdisj : (blocks ++ bs).Pairwise fun a b => Disjoint a.pages b.pages) :
    let l' := bs.foldl (fun l b => earlySetNidRange b.start b.stop b.nid l) l
    Assigned (blocks ++ bs) l' ∧ FreeRanges l' := by
  induction bs generalizing blocks l with
  | nil =>
      rw [List.append_nil]
      exact ⟨h, hl⟩
  | cons b bs ih =>
      obtain ⟨hb, hbs⟩ := List.forall_mem_cons.mp hord
      obtain ⟨hl', hcut⟩ := earlySetNidRange_spec b.nid hl hb
      rw [List.append_cons] at hdisj ⊢
      have hprev := (List.pairwise_append.mp (List.pairwise_append.mp hdisj).1).2.2
      exact ih (h.cut (fun a ha => hprev a ha b (List.mem_singleton_self b)) hcut) hl' hbs hdisj

/-- The two loops go over `memblocks`.
Source: `sys/numa.cpp` `numa_init`
Kind: L -/
theorem numaInit_snd (nodes : NumaNodes) (free : FreePages) :
    (numaInit nodes free).2 = (memblocks nodes).foldl
      (fun free b => earlySetNidRange b.start b.stop b.nid free) free := by
  unfold numaInit memblocks
  rw [List.foldl_flatMap]

/-- **`numa_init`.** Of ranges without a node, what is left lies inside one block, with its node, or
outside all.
Source: `sys/numa.cpp` `numa_init`
Kind: P -/
theorem assigned_numaInit (hnodes : NumaLayout nodes) (hl : FreeRanges l)
    (hany : ∀ r ∈ l, r.nid = anyNid) :
    Assigned (memblocks nodes) (numaInit nodes l).2 ∧ FreeRanges (numaInit nodes l).2 := by
  rw [numaInit_snd]
  have h : Assigned [] l := fun r hr => Or.inr ⟨hany r hr, fun b hb => absurd hb List.not_mem_nil⟩
  exact h.foldl hl hnodes.ordered hnodes.disjoint

end EbbRT
