import EbbRT.Mem.EarlyPageAllocatorRuns

/-!
# Handing byte ranges to the early page allocator

`early_free_memory_range` rounds the start of a byte range up to a page, and takes what it skipped off
the end once more: `begin + length` is already the end of the range. `earlyFreeMemoryRange_exactlyWhen`
says for which ranges the free pages become those they were and the whole pages of the range.
-/

namespace EbbRT

namespace EarlyPageAllocator

open EbbRT.Lib

/-! ## The function -/

/-- The pages that are handed to `free_page_range`, if it comes to that; the arithmetic is that of
64-bit words.
Source: `sys/early_page_allocator.cpp` `early_free_memory_range`
Kind: D -/
def memoryRange (begin length : ℕ) : Option (ℕ × ℕ) :=
  let pfnStart := pfnUp begin
  let diff := wsub (pfnToAddr pfnStart) begin
  if diff > length then none
  else
    let pfnEnd := pfnDown (wsub ((begin + length) % word) diff)
    if pfnEnd = pfnStart then none else some (pfnStart, pfnEnd)

/-- Source: `sys/early_page_allocator.cpp` `early_free_memory_range`
Kind: D -/
def earlyFreeMemoryRange (begin length nid : ℕ) (l : FreePages) : Option FreePages :=
  (memoryRange begin length).elim (some l) fun r => freePageRange r.1 r.2 nid l

/-! ## The free set -/

/-- The pages of the ranges. Source: `sys/early_page_allocator.hpp` `page_range`. Kind: D -/
def freeSet (l : FreePages) : Set ℕ := {p | ∃ r ∈ l, r.start ≤ p ∧ p < stop r}

/-- The pages that lie wholly inside a byte range.
Source: none: infrastructure
Kind: D -/
def wholePages (begin length : ℕ) : Set ℕ :=
  {p | begin ≤ p * pageSize ∧ (p + 1) * pageSize ≤ begin + length}

/-- Ranges in order that do not overlap, inside the address space. They may touch, and belong to any
nodes.
Source: `sys/early_page_allocator.hpp` `free_pages_tree`
Kind: D -/
structure Ordered (l : FreePages) : Prop where
  sorted : l.Pairwise fun a b => stop a ≤ b.start
  nonempty : ∀ r ∈ l, r.start < stop r
  bounded : ∀ r ∈ l, stop r ≤ maxPfn

/-- What should happen: the range handed over is not empty or reversed, the call returns, and the
whole pages are added to the free set.
Source: `sys/early_page_allocator.cpp` `early_free_memory_range`
Kind: D -/
def AddsWholePages (begin length nid : ℕ) (l : FreePages) : Prop :=
  (∀ r, memoryRange begin length = some r → r.1 < r.2) ∧
    ∃ l', earlyFreeMemoryRange begin length nid l = some l' ∧ Ordered l' ∧
      freeSet l' = freeSet l ∪ wholePages begin length

/-- The bytes from an address to the next page boundary.
Source: `sys/early_page_allocator.cpp` `early_free_memory_range` (`diff`)
Kind: D -/
def headGap (begin : ℕ) : ℕ := (pageSize - begin % pageSize) % pageSize

variable {l l' pre post : FreePages} {it a b : PageRange} {f : PageMap} {begin length nid start e : ℕ}

/-- A canonical representation is in order. Source: none: infrastructure. Kind: L -/
theorem Rep.ordered (h : Rep l f) : Ordered l where
  sorted := h.segments.apart.imp fun hab => hab.1
  nonempty := h.segments.nonempty
  bounded := h.bounded

/-- The free set of two lists. Source: none: infrastructure. Kind: L -/
theorem freeSet_append : freeSet (pre ++ post) = freeSet pre ∪ freeSet post := by
  ext p
  unfold freeSet
  simp only [List.mem_append, or_and_right, exists_or, Set.mem_ofPred_eq, Set.mem_union]

/-- The free set of a range and others. Source: none: infrastructure. Kind: L -/
theorem freeSet_cons : freeSet (a :: l) = Set.Ico a.start (stop a) ∪ freeSet l := by
  ext p
  unfold freeSet
  simp only [List.mem_cons, or_and_right, exists_or, exists_eq_left, Set.mem_ofPred_eq, Set.mem_union,
    Set.mem_Ico]

/-! ## Freeing pages -/

/-- Two ranges that touch can be replaced by one. Source: `sys/early_page_allocator.cpp` `coalesce`.
Kind: L -/
theorem Ordered.join (h : Ordered (pre ++ a :: b :: post)) (hs : stop a = b.start) :
    Ordered (pre ++ ⟨a.start, a.npages + b.npages, a.nid⟩ :: post) ∧
      freeSet (pre ++ ⟨a.start, a.npages + b.npages, a.nid⟩ :: post)
        = freeSet (pre ++ a :: b :: post) := by
  have hstop : stop ⟨a.start, a.npages + b.npages, a.nid⟩ = stop b := by
    unfold stop at hs ⊢
    dsimp only
    omega
  have ha := h.nonempty a (by simp)
  have hb := h.nonempty b (by simp)
  obtain ⟨hpre, hrest, hcross⟩ := List.pairwise_append.mp h.sorted
  obtain ⟨-, hrest⟩ := List.pairwise_cons.mp hrest
  obtain ⟨hbpost, hpost⟩ := List.pairwise_cons.mp hrest
  have hmem : ∀ r ∈ pre ++ ⟨a.start, a.npages + b.npages, a.nid⟩ :: post,
      r = ⟨a.start, a.npages + b.npages, a.nid⟩ ∨ r ∈ pre ++ a :: b :: post := by
    intro r hr
    simp only [List.mem_append, List.mem_cons] at hr ⊢
    tauto
  refine ⟨⟨?_, fun r hr => ?_, fun r hr => ?_⟩, ?_⟩
  · refine List.pairwise_append.mpr ⟨hpre, List.pairwise_cons.mpr ⟨fun r hr => ?_, hpost⟩, ?_⟩
    · rw [hstop]
      exact hbpost r hr
    · intro c hc r hr
      rcases List.mem_cons.mp hr with rfl | hr
      · exact hcross c hc a (by simp)
      · exact hcross c hc r (by simp [hr])
  · rcases hmem r hr with rfl | hr
    · rw [hstop]
      dsimp only
      omega
    · exact h.nonempty r hr
  · rcases hmem r hr with rfl | hr
    · rw [hstop]
      exact h.bounded b (by simp)
    · exact h.bounded r hr
  · rw [freeSet_append, freeSet_append, freeSet_cons, freeSet_cons, freeSet_cons, hstop,
      ← Set.union_assoc (Set.Ico a.start (stop a)), hs,
      Set.Ico_union_Ico_eq_Ico (hs ▸ ha.le) hb.le]

/-- The join with the range before changes no page. Source: `sys/early_page_allocator.cpp`
`free_page_range`. Kind: L -/
theorem Ordered.joinPrior (h : Ordered (pre ++ it :: post)) :
    Ordered ((joinPrior pre it).1 ++ (joinPrior pre it).2 :: post) ∧
      freeSet ((joinPrior pre it).1 ++ (joinPrior pre it).2 :: post) = freeSet (pre ++ it :: post) := by
  rcases List.eq_nil_or_concat pre with rfl | ⟨pre₀, a, rfl⟩
  · exact ⟨h, rfl⟩
  · rw [List.concat_eq_append] at h ⊢
    have hco := coalesce_eq (h.bounded a (by simp)) (h.bounded it (by simp))
    have hlast : (pre₀ ++ [a]).getLast? = some a := List.getLast?_concat
    by_cases hs : stop a = it.start
    · rw [if_pos hs] at hco
      have hjoin : EarlyPageAllocator.joinPrior (pre₀ ++ [a]) it
          = (pre₀, ⟨a.start, a.npages + it.npages, a.nid⟩) := by
        simp [EarlyPageAllocator.joinPrior, hlast, hco]
      rw [hjoin]
      rw [List.append_assoc] at h ⊢
      exact h.join hs
    · rw [if_neg hs] at hco
      have hjoin : EarlyPageAllocator.joinPrior (pre₀ ++ [a]) it = (pre₀ ++ [a], it) := by
        simp [EarlyPageAllocator.joinPrior, hlast, hco]
      rw [hjoin]
      exact ⟨h, rfl⟩

/-- The join with the range after changes no page. Source: `sys/early_page_allocator.cpp`
`free_page_range`. Kind: L -/
theorem Ordered.joinNext (h : Ordered (pre ++ it :: post)) :
    Ordered (pre ++ joinNext it post) ∧ freeSet (pre ++ joinNext it post) = freeSet (pre ++ it :: post) := by
  cases post with
  | nil => exact ⟨h, rfl⟩
  | cons b post =>
      have hco := coalesce_eq (h.bounded it (by simp)) (h.bounded b (by simp))
      by_cases hs : stop it = b.start
      · rw [if_pos hs] at hco
        have hjoin : EarlyPageAllocator.joinNext it (b :: post)
            = ⟨it.start, it.npages + b.npages, it.nid⟩ :: post := by
          simp [EarlyPageAllocator.joinNext, hco]
        rw [hjoin]
        exact h.join hs
      · rw [if_neg hs] at hco
        have hjoin : EarlyPageAllocator.joinNext it (b :: post) = it :: b :: post := by
          simp [EarlyPageAllocator.joinNext, hco]
        rw [hjoin]
        exact ⟨h, rfl⟩

/-- The ranges around pages that are not free. Source: `sys/early_page_allocator.cpp`
`free_page_range`. Kind: L -/
theorem Ordered.insert (h : Ordered l) (nid : ℕ) (hse : start < e) (he : e ≤ maxPfn)
    (hfree : Disjoint (Set.Ico start e) (freeSet l)) :
    Ordered ((l.takeWhile fun r => r.start < start) ++
      ⟨start, e - start, nid⟩ :: l.dropWhile fun r => r.start < start) ∧
    ∀ b ∈ l.dropWhile fun r => r.start < start, e ≤ b.start := by
  set pre := l.takeWhile fun r => r.start < start with hpre
  set post := l.dropWhile fun r => r.start < start with hpost
  have hl : l = pre ++ post := (List.takeWhile_append_dropWhile ..).symm
  have hmem : ∀ r, r ∈ l ↔ r ∈ pre ∨ r ∈ post := fun r => by rw [hl, List.mem_append]
  have hsorted := h.sorted
  rw [hl] at hsorted
  obtain ⟨hspre, hspost, hcross⟩ := List.pairwise_append.mp hsorted
  have hnot : ∀ p, start ≤ p → p < e → ∀ r ∈ l, ¬ (r.start ≤ p ∧ p < stop r) :=
    fun p h1 h2 r hr hp => Set.disjoint_left.mp hfree ⟨h1, h2⟩ ⟨r, hr, hp⟩
  have hstop : stop ⟨start, e - start, nid⟩ = e := Nat.add_sub_cancel' hse.le
  have hleft : ∀ r ∈ pre, stop r ≤ start := by
    intro r hr
    have hlt : r.start < start := by simpa using List.mem_takeWhile_imp hr
    have := hnot start le_rfl hse r ((hmem r).mpr (Or.inl hr))
    omega
  have hge : ∀ r ∈ post, start ≤ r.start := by
    intro r hr
    have hhead : ∀ c ∈ post.head?, start ≤ c.start := by
      intro c hc
      have := List.head?_dropWhile_not (fun r : PageRange => decide (r.start < start)) l
      rw [← hpost, Option.mem_def.mp hc] at this
      simpa using this
    cases hd : post with
    | nil =>
        rw [hd] at hr
        cases hr
    | cons c rest =>
        have hc := hhead c (by rw [hd]; rfl)
        rw [hd] at hr hspost
        rcases List.mem_cons.mp hr with rfl | hr
        · exact hc
        · have h1 := (List.pairwise_cons.mp hspost).1 r hr
          have h2 := h.nonempty c ((hmem c).mpr (Or.inr (by rw [hd]; simp)))
          omega
  have hright : ∀ r ∈ post, e ≤ r.start := by
    intro r hr
    have hrl := (hmem r).mpr (Or.inr hr)
    by_contra hlt
    exact hnot r.start (hge r hr) (by omega) r hrl ⟨le_rfl, h.nonempty r hrl⟩
  refine ⟨⟨?_, fun r hr => ?_, fun r hr => ?_⟩, hright⟩
  · refine List.pairwise_append.mpr ⟨hspre, List.pairwise_cons.mpr ⟨fun r hr => ?_, hspost⟩, ?_⟩
    · rw [hstop]
      exact hright r hr
    · intro c hc r hr
      rcases List.mem_cons.mp hr with rfl | hr
      · exact hleft c hc
      · exact hcross c hc r hr
  all_goals
    simp only [List.mem_append, List.mem_cons] at hr
    rcases hr with hr | rfl | hr
  · exact h.nonempty r ((hmem r).mpr (Or.inl hr))
  · rw [hstop]
    exact hse
  · exact h.nonempty r ((hmem r).mpr (Or.inr hr))
  · exact h.bounded r ((hmem r).mpr (Or.inl hr))
  · rw [hstop]
    exact he
  · exact h.bounded r ((hmem r).mpr (Or.inr hr))



/-- **Freeing pages that are not free adds them to the free set**, whatever the nodes.
Source: `sys/early_page_allocator.cpp` `free_page_range`
Kind: P -/
theorem Ordered.freePageRange (h : Ordered l) (nid : ℕ) (hse : start < e) (he : e ≤ maxPfn)
    (hfree : Disjoint (Set.Ico start e) (freeSet l)) :
    ∃ l', freePageRange start e nid l = some l' ∧ Ordered l' ∧
      freeSet l' = freeSet l ∪ Set.Ico start e := by
  obtain ⟨hinsert, hright⟩ := h.insert nid hse he hfree
  have hlen : wsub e start = e - start :=
    wsub_eq hse.le (he.trans_lt (by decide))
  have hhead : ((l.dropWhile fun r => r.start < start).head?.map PageRange.start) ≠ some start := by
    intro hs
    obtain ⟨r, hr, hrs⟩ := Option.map_eq_some_iff.mp hs
    have := hright r (List.mem_of_head? hr)
    omega
  have hl : freeSet l = freeSet (l.takeWhile fun r => r.start < start) ∪
      freeSet (l.dropWhile fun r => r.start < start) := by
    rw [← freeSet_append, List.takeWhile_append_dropWhile]
  have hstop : stop ⟨start, e - start, nid⟩ = e := Nat.add_sub_cancel' hse.le
  obtain ⟨hprior, hpriorSet⟩ := hinsert.joinPrior
  obtain ⟨hnext, hnextSet⟩ := hprior.joinNext
  refine ⟨_, ?_, hnext, ?_⟩
  · unfold EarlyPageAllocator.freePageRange
    rw [hlen]
    dsimp only
    rw [if_neg hhead]
  · rw [hnextSet, hpriorSet, freeSet_append, freeSet_cons, hstop, hl, Set.union_assoc,
      Set.union_comm (Set.Ico start e)]

/-! ## Byte ranges -/

/-- The whole pages of a range, by its first page and its end.
Source: `sys/early_page_allocator.cpp` `early_free_memory_range`
Kind: L -/
theorem wholePages_eq (hbound : begin + length < word - pageSize) :
    wholePages begin length = Set.Ico (pfnUp begin) ((begin + length) / pageSize) := by
  ext p
  unfold wholePages pfnUp
  rw [Nat.shiftRight_eq_div_pow]
  simp only [Set.mem_ofPred_eq, Set.mem_Ico, pageSize_eq, pageShift, word] at hbound ⊢
  omega

/-- The range handed over: what was skipped at the start is taken off the end.
Source: `sys/early_page_allocator.cpp` `early_free_memory_range`
Kind: L -/
theorem memoryRange_eq (hbound : begin + length < word - pageSize) :
    memoryRange begin length =
      if length < headGap begin then none
      else if (begin + length - headGap begin) / pageSize = pfnUp begin then none
      else some (pfnUp begin, (begin + length - headGap begin) / pageSize) := by
  have hup : pfnUp begin = (begin + headGap begin) / pageSize := by
    unfold pfnUp headGap
    rw [Nat.shiftRight_eq_div_pow]
    simp only [pageSize_eq, pageShift, word] at hbound ⊢
    omega
  have haddr : pfnToAddr (pfnUp begin) = begin + headGap begin := by
    rw [hup, pfnToAddr_of_lt]
    · unfold headGap
      rw [pageSize_eq]
      omega
    · unfold headGap
      simp only [pageSize_eq, maxPfn, word] at hbound ⊢
      omega
  have hgap : begin + headGap begin < word := by
    unfold headGap
    simp only [pageSize_eq, word] at hbound ⊢
    omega
  have hdiff : wsub (pfnToAddr (pfnUp begin)) begin = headGap begin := by
    rw [haddr, wsub_eq (Nat.le_add_right _ _) hgap, Nat.add_sub_cancel_left]
  have hlt : begin + length < word := hbound.trans_le (Nat.sub_le _ _)
  unfold memoryRange
  dsimp only
  rw [hdiff]
  by_cases hshort : length < headGap begin
  · rw [if_pos hshort, if_pos hshort]
  · have hend : wsub ((begin + length) % word) (headGap begin) = begin + length - headGap begin := by
      rw [Nat.mod_eq_of_lt hlt, wsub_eq (by omega) hlt]
    rw [if_neg hshort, if_neg hshort, hend]
    unfold pfnDown
    rw [Nat.shiftRight_eq_div_pow]
    rfl

/-- Source: `sys/early_page_allocator.cpp` `early_free_memory_range`. Kind: L -/
theorem wholePages_eq_empty (hbound : begin + length < word - pageSize)
    (hlen : length < headGap begin) : wholePages begin length = ∅ := by
  rw [wholePages_eq hbound, Set.Ico_eq_empty_iff]
  unfold pfnUp headGap at *
  rw [Nat.shiftRight_eq_div_pow]
  simp only [pageSize_eq, pageShift, word] at *
  omega

/-- What a call does that hands over no range or one that is not reversed: the pages up to the end that
was computed are added.
Source: `sys/early_page_allocator.cpp` `early_free_memory_range`
Kind: L -/
theorem Ordered.earlyFreeMemoryRange (h : Ordered l) (nid : ℕ)
    (hbound : begin + length < word - pageSize)
    (hgap : headGap begin ≤ length)
    (hle : pfnUp begin ≤ (begin + length - headGap begin) / pageSize)
    (hfree : Disjoint (wholePages begin length) (freeSet l)) :
    (∀ r, memoryRange begin length = some r → r.1 < r.2) ∧
    ∃ l', earlyFreeMemoryRange begin length nid l = some l' ∧ Ordered l' ∧
      freeSet l' = freeSet l ∪
        Set.Ico (pfnUp begin) ((begin + length - headGap begin) / pageSize) := by
  have hrange := memoryRange_eq hbound
  rw [if_neg (not_lt.mpr hgap)] at hrange
  generalize hstop : (begin + length - headGap begin) / pageSize = pfnEnd at hrange hle ⊢
  by_cases heq : pfnEnd = pfnUp begin
  · rw [if_pos heq] at hrange
    refine ⟨?_, l, ?_, h, ?_⟩
    · intro r hr
      rw [hrange] at hr
      exact (Option.some_ne_none r hr.symm).elim
    · unfold EarlyPageAllocator.earlyFreeMemoryRange
      rw [hrange, Option.elim_none]
    · rw [heq, Set.Ico_self, Set.union_empty]
  · rw [if_neg heq] at hrange
    have hlt : pfnUp begin < pfnEnd := lt_of_le_of_ne hle (Ne.symm heq)
    have hpfn : pfnEnd ≤ maxPfn := by
      simp only [pageSize_eq, maxPfn, word] at hbound hstop ⊢
      omega
    have hsub : Set.Ico (pfnUp begin) pfnEnd ⊆ wholePages begin length := by
      rw [wholePages_eq hbound, ← hstop]
      exact Set.Ico_subset_Ico_right (Nat.div_le_div_right (Nat.sub_le _ _))
    refine ⟨?_, ?_⟩
    · intro r hr
      obtain rfl := Option.some.inj (hrange.symm.trans hr)
      exact hlt
    · unfold EarlyPageAllocator.earlyFreeMemoryRange
      rw [hrange, Option.elim_some]
      exact h.freePageRange nid hlt hpfn (hfree.mono_left hsub)

/-- **A byte range becomes its whole pages exactly when** it ends before its first page boundary, or
has at least as many bytes after its last page boundary as before its first one.
Source: `sys/early_page_allocator.cpp` `early_free_memory_range`
Kind: C
Hyps: `hfree`: the pages are not free yet; `hbound`: the bytes do not wrap -/
theorem earlyFreeMemoryRange_exactlyWhen (begin length nid : ℕ) (l : FreePages) (h : Ordered l)
    (hbound : begin + length < word - pageSize)
    (hfree : Disjoint (wholePages begin length) (freeSet l)) :
    AddsWholePages begin length nid l ↔
      length < headGap begin ∨ headGap begin ≤ (begin + length) % pageSize := by
  have hsmall : headGap begin < pageSize := Nat.mod_lt _ (by decide)
  have hup : headGap begin ≤ length → pfnUp begin ≤ (begin + length) / pageSize := by
    unfold pfnUp headGap
    rw [Nat.shiftRight_eq_div_pow]
    simp only [pageSize_eq, pageShift, word] at hbound ⊢
    omega
  constructor
  · rintro ⟨hhanded, l', hl', -, hset⟩
    by_contra hnot
    obtain ⟨hlen, htail⟩ := not_or.mp hnot
    rw [not_lt] at hlen
    rw [not_le] at htail
    -- the computed end is one page short
    have hend : (begin + length - headGap begin) / pageSize + 1 = (begin + length) / pageSize := by
      have := hup hlen
      unfold headGap at *
      simp only [pageSize_eq] at *
      omega
    by_cases hle : pfnUp begin ≤ (begin + length - headGap begin) / pageSize
    · obtain ⟨-, l'', hl'', -, hset'⟩ := h.earlyFreeMemoryRange nid hbound hlen hle hfree
      obtain rfl := Option.some.inj (hl'.symm.trans hl'')
      have hlast : (begin + length - headGap begin) / pageSize ∈ wholePages begin length := by
        rw [wholePages_eq hbound]
        exact ⟨hle, by omega⟩
      have hmem : (begin + length - headGap begin) / pageSize ∈ freeSet l' := by
        rw [hset]
        exact Or.inr hlast
      rw [hset'] at hmem
      rcases hmem with hmem | hmem
      · exact Set.disjoint_left.mp hfree hlast hmem
      · exact lt_irrefl _ hmem.2
    · -- no whole page at all: the range handed over is reversed
      have hrange := memoryRange_eq hbound
      rw [if_neg (not_lt.mpr hlen), if_neg (by omega)] at hrange
      have hlt : pfnUp begin < (begin + length - headGap begin) / pageSize := hhanded _ hrange
      omega
  · intro hor
    by_cases hlen : length < headGap begin
    · have hnone : memoryRange begin length = none := by
        rw [memoryRange_eq hbound, if_pos hlen]
      have hempty : wholePages begin length = ∅ := wholePages_eq_empty hbound hlen
      refine ⟨fun r hr => ?_, l, ?_, h, ?_⟩
      · rw [hnone] at hr
        exact (Option.some_ne_none r hr.symm).elim
      · unfold EarlyPageAllocator.earlyFreeMemoryRange
        rw [hnone, Option.elim_none]
      · rw [hempty, Set.union_empty]
    · have htail := hor.resolve_left hlen
      rw [not_lt] at hlen
      have hend : (begin + length - headGap begin) / pageSize = (begin + length) / pageSize := by
        rw [pageSize_eq] at *
        omega
      have := h.earlyFreeMemoryRange nid hbound hlen (hend ▸ hup hlen) hfree
      rw [hend, ← wholePages_eq hbound] at this
      exact this

/-- No ranges are in order. Source: none: infrastructure. Kind: L -/
theorem ordered_nil : Ordered [] where
  sorted := List.Pairwise.nil
  nonempty _ hr := absurd hr List.not_mem_nil
  bounded _ hr := absurd hr List.not_mem_nil

/-- Nothing is free. Source: none: infrastructure. Kind: L -/
theorem freeSet_nil : freeSet [] = ∅ := by
  ext p
  simp [freeSet]

/-- From the middle of page 0 to the middle of page 2: page 1 is added.
Source: `sys/early_page_allocator.cpp` `early_free_memory_range`
Kind: C -/
theorem earlyFreeMemoryRange_exactlyWhen_halves : AddsWholePages 2048 8192 0 [] :=
  (earlyFreeMemoryRange_exactlyWhen 2048 8192 0 [] ordered_nil (by decide) (by
    rw [freeSet_nil]
    exact Set.disjoint_empty _)).mpr (Or.inr (by decide))

/-- The rest of page 0 behind its first byte: a reversed range is handed over.
Source: `sys/early_page_allocator.cpp` `early_free_memory_range`
Kind: C -/
theorem earlyFreeMemoryRange_not_always :
    ¬ ∀ (begin length nid : ℕ) (l : FreePages), Ordered l → begin + length < word - pageSize →
      Disjoint (wholePages begin length) (freeSet l) → AddsWholePages begin length nid l := by
  intro hall
  have hdisjoint : Disjoint (wholePages 1 4095) (freeSet []) := by
    rw [freeSet_nil]
    exact Set.disjoint_empty _
  obtain ⟨hhanded, -⟩ := hall 1 4095 0 [] ordered_nil (by decide) hdisjoint
  have hlt := hhanded (1, 0) (by decide)
  exact absurd hlt (by decide)

end EarlyPageAllocator

end EbbRT
