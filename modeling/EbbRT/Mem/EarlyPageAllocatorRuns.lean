import EbbRT.Lib.Segments
import EbbRT.Mem.EarlyPageAllocator

/-!
# The early page allocator over whole runs

The abstract state is a partial map from pages to the node they were freed under; the concrete one
is the ordered set of ranges. The set should be the canonical representation of the map
(`Represents`): sorted, disjoint, non-empty, joined where one node's ranges touch, and with no
range holding pages of two nodes. Two things in the code break this: `coalesce` does not compare
node ids, and the subtraction in `early_allocate_page` wraps when a range ends below the number of
pages asked for. `earlyPageAllocator_exactlyWhen` says that these are the only two.
-/

namespace EbbRT

namespace EarlyPageAllocator

open EbbRT.Lib

/-- The first page after a range, before any wrap.
Source: `sys/early_page_allocator.hpp` `page_range::end`
Kind: D -/
def stop (r : PageRange) : ℕ := r.start + r.npages

/-- The abstract state: the free pages with the node each was freed under.
Source: none: infrastructure
Kind: D -/
abbrev PageMap := ℕ → Option ℕ

/-- The ranges are the canonical representation of the free pages, inside the address space.
Source: none: infrastructure
Kind: D -/
structure Rep (l : FreePages) (f : PageMap) : Prop where
  /-- Sorted, disjoint, non-empty, joined, and each page under its own node. -/
  segments : Represents PageRange.start stop PageRange.nid l f
  /-- No range leaves the address space. -/
  bounded : ∀ r ∈ l, stop r ≤ maxPfn

/-- Inside the address space the end of a range does not wrap.
Source: `sys/early_page_allocator.hpp` `page_range::end`
Kind: L -/
theorem pfnEnd_eq {r : PageRange} (h : stop r ≤ maxPfn) : r.pfnEnd = stop r :=
  Nat.mod_eq_of_lt (by simp only [maxPfn, word, stop] at *; omega)

/-- The map after `[start, stop)` is freed under `nid`.
Source: none: infrastructure
Kind: D -/
def PageMap.free (f : PageMap) (start stop : ℕ) (nid : ℕ) : PageMap := fun p =>
  if start ≤ p ∧ p < stop then some nid else f p

/-- The map after the block of `npages` pages at `pfn` is taken.
Source: none: infrastructure
Kind: D -/
def PageMap.take (f : PageMap) (pfn : ℕ) (npages : ℕ) : PageMap := fun p =>
  if pfn ≤ p ∧ p < pfn + npages then none else f p

/-! ## Freeing -/

/-- A range being inserted between `pre` and `post`: sorted and disjoint, the joins still to do.
Source: none: infrastructure
Kind: D -/
structure Pending (pre : List PageRange) (it : PageRange) (post : List PageRange) : Prop where
  apart : (pre ++ post).Pairwise (Apart PageRange.start stop PageRange.nid)
  left : ∀ a ∈ pre, stop a ≤ it.start
  right : ∀ b ∈ post, stop it ≤ b.start
  nonempty : ∀ a ∈ pre ++ it :: post, a.start < stop a
  bounded : ∀ a ∈ pre ++ it :: post, stop a ≤ maxPfn

/-- Every page has the node of the range it lies in.
Source: none: infrastructure
Kind: D -/
def Labels (l : List PageRange) (f : PageMap) : Prop :=
  ∀ p n, f p = some n ↔ ∃ a ∈ l, a.nid = n ∧ a.start ≤ p ∧ p < stop a

variable {pre post : List PageRange} {it a b m : PageRange} {f : PageMap} {l l' : FreePages}

/-- Inside the address space, two ranges that touch are joined and others are not.
Source: `sys/early_page_allocator.cpp` `coalesce`
Kind: L -/
theorem coalesce_eq (ha : stop a ≤ maxPfn) (hb : stop b ≤ maxPfn) :
    coalesce a b = if stop a = b.start then some ⟨a.start, a.npages + b.npages, a.nid⟩ else none := by
  unfold coalesce
  rw [pfnEnd_eq ha]
  by_cases h : stop a = b.start
  · have : (a.npages + b.npages) % word = a.npages + b.npages :=
      Nat.mod_eq_of_lt (by simp only [stop, maxPfn, word] at *; omega)
    simp [h, this]
  · simp [h]

/-- What the join with the range before does.
Source: `sys/early_page_allocator.cpp` `free_page_range`
Kind: L -/
theorem joinPrior_cases (h : Pending pre it post) :
    (joinPrior pre it = (pre, it) ∧ ∀ a ∈ pre, stop a ≠ it.start) ∨
      ∃ pre₀ a, pre = pre₀ ++ [a] ∧ stop a = it.start ∧
        joinPrior pre it = (pre₀, ⟨a.start, a.npages + it.npages, a.nid⟩) := by
  rcases List.eq_nil_or_concat pre with rfl | ⟨pre₀, a, rfl⟩
  · exact Or.inl ⟨rfl, by simp⟩
  · rw [List.concat_eq_append] at h ⊢
    have hco := coalesce_eq (h.bounded a (by simp)) (h.bounded it (by simp))
    have hlast : (pre₀ ++ [a]).getLast? = some a := List.getLast?_concat
    by_cases hs : stop a = it.start
    · rw [if_pos hs] at hco
      exact Or.inr ⟨pre₀, a, rfl, hs, by simp [joinPrior, hlast, hco]⟩
    · rw [if_neg hs] at hco
      refine Or.inl ⟨by simp [joinPrior, hlast, hco], fun c hc => ?_⟩
      rcases List.mem_append.mp hc with hc | hc
      · have hap := (List.pairwise_append.mp h.apart).1
        have := lt_of_mem_before_last hap hc (h.nonempty a (by simp))
        have := h.left a (by simp)
        omega
      · rw [List.mem_singleton.mp hc]
        exact hs

/-- What the join with the range after does.
Source: `sys/early_page_allocator.cpp` `free_page_range`
Kind: L -/
theorem joinNext_cases (h : Pending pre it post) :
    (joinNext it post = it :: post ∧ ∀ b ∈ post, stop it ≠ b.start) ∨
      ∃ b post₀, post = b :: post₀ ∧ stop it = b.start ∧
        joinNext it post = ⟨it.start, it.npages + b.npages, it.nid⟩ :: post₀ := by
  cases post with
  | nil => exact Or.inl ⟨rfl, by simp⟩
  | cons b post =>
      have hco := coalesce_eq (h.bounded it (by simp)) (h.bounded b (by simp))
      by_cases hs : stop it = b.start
      · rw [if_pos hs] at hco
        exact Or.inr ⟨b, post, rfl, hs, by simp [joinNext, hco]⟩
      · rw [if_neg hs] at hco
        refine Or.inl ⟨by simp [joinNext, hco], fun c hc => ?_⟩
        rcases List.mem_cons.mp hc with rfl | hc
        · exact hs
        · have hap := (List.pairwise_append.mp h.apart).2.1
          have h1 := ((List.pairwise_cons.mp hap).1 c hc).1
          have h2 := h.nonempty b (by simp)
          have h3 := h.right b (by simp)
          omega

/-- Joining with the range before leaves only the join after to do, whatever the nodes are.
Source: `sys/early_page_allocator.cpp` `free_page_range`
Kind: L -/
theorem Pending.joinPrior (h : Pending pre it post) {pre' : List PageRange} {it' : PageRange}
    (he : joinPrior pre it = (pre', it')) :
    Pending pre' it' post ∧ stop it' = stop it ∧ it'.start ≤ it.start := by
  rcases joinPrior_cases h with ⟨he', -⟩ | ⟨pre₀, a, rfl, hs, he'⟩
  · obtain ⟨rfl, rfl⟩ := Prod.mk.inj (he'.symm.trans he)
    exact ⟨h, rfl, le_rfl⟩
  · obtain ⟨rfl, rfl⟩ := Prod.mk.inj (he'.symm.trans he)
    have h1 := h.nonempty a (by simp)
    have h2 := h.nonempty it (by simp)
    have hstop : stop ⟨a.start, a.npages + it.npages, a.nid⟩ = stop it := by
      simp only [stop] at hs ⊢
      omega
    have hap := List.pairwise_append.mp h.apart
    refine ⟨⟨?_, ?_, ?_, ?_, ?_⟩, hstop, by simp only; omega⟩
    · exact h.apart.sublist (List.Sublist.append_right (List.sublist_append_left pre₀ [a]) post)
    · intro c hc
      exact ((List.pairwise_append.mp hap.1).2.2 c hc a (by simp)).1
    · intro b hb
      rw [hstop]
      exact h.right b hb
    · intro c hc
      simp only [List.mem_append, List.mem_cons] at hc
      rcases hc with hc | rfl | hc
      · exact h.nonempty c (by simp [hc])
      · rw [hstop]
        simp only
        omega
      · exact h.nonempty c (by simp [hc])
    · intro c hc
      simp only [List.mem_append, List.mem_cons] at hc
      rcases hc with hc | rfl | hc
      · exact h.bounded c (by simp [hc])
      · rw [hstop]
        exact h.bounded it (by simp)
      · exact h.bounded c (by simp [hc])

/-- Two ranges of one node that touch have the pages of the one that replaces them.
Source: `sys/early_page_allocator.cpp` `coalesce`
Kind: L -/
theorem labels_join (ha : a.start < stop a) (hb : b.start < stop b) (hs : stop a = b.start)
    (hn : a.nid = b.nid) (h : Labels (pre ++ a :: b :: post) f) :
    Labels (pre ++ ⟨a.start, a.npages + b.npages, a.nid⟩ :: post) f := by
  intro p n
  have hstop : stop ⟨a.start, a.npages + b.npages, a.nid⟩ = stop b := by
    simp only [stop] at hs ⊢
    omega
  rw [h p n]
  simp only [List.mem_append, List.mem_cons, or_and_right, exists_or, exists_eq_left, hstop]
  constructor
  · rintro (hp | ⟨hn', hp⟩ | ⟨hn', hp⟩ | hp)
    · exact Or.inl hp
    · exact Or.inr (Or.inl ⟨hn', by omega⟩)
    · exact Or.inr (Or.inl ⟨hn.trans hn', by omega⟩)
    · exact Or.inr (Or.inr hp)
  · rintro (hp | ⟨hn', hp⟩ | hp)
    · exact Or.inl hp
    · by_cases hpa : p < stop a
      · exact Or.inr (Or.inl ⟨hn', hp.1, hpa⟩)
      · exact Or.inr (Or.inr (Or.inl ⟨hn.symm.trans hn', by omega⟩))
    · exact Or.inr (Or.inr (Or.inr hp))

/-- Joining with a range before of the same node keeps the labels, and leaves the range apart from
what is before it.
Source: `sys/early_page_allocator.cpp` `free_page_range`
Kind: L -/
theorem Pending.labels_joinPrior (h : Pending pre it post) (hf : Labels (pre ++ it :: post) f)
    (hnid : ∀ a ∈ pre, stop a = it.start → a.nid = it.nid) {pre' : List PageRange}
    {it' : PageRange} (he : EarlyPageAllocator.joinPrior pre it = (pre', it')) :
    Labels (pre' ++ it' :: post) f ∧ it'.nid = it.nid ∧
      ∀ a ∈ pre', Apart PageRange.start stop PageRange.nid a it' := by
  rcases joinPrior_cases h with ⟨he', hno⟩ | ⟨pre₀, a, rfl, hs, he'⟩
  · obtain ⟨rfl, rfl⟩ := Prod.mk.inj (he'.symm.trans he)
    exact ⟨hf, rfl, fun a ha => ⟨h.left a ha, fun hs => absurd hs (hno a ha)⟩⟩
  · obtain ⟨rfl, rfl⟩ := Prod.mk.inj (he'.symm.trans he)
    have hn : a.nid = it.nid := hnid a (by simp) hs
    rw [List.append_assoc] at hf
    refine ⟨labels_join (h.nonempty a (by simp)) (h.nonempty it (by simp)) hs hn hf, hn, ?_⟩
    intro c hc
    have hap := List.pairwise_append.mp h.apart
    exact (List.pairwise_append.mp hap.1).2.2 c hc a (by simp)

/-- Joining with a range after of the same node finishes the insertion.
Source: `sys/early_page_allocator.cpp` `free_page_range`
Kind: P -/
theorem Pending.joinNext (h : Pending pre it post) (hf : Labels (pre ++ it :: post) f)
    (hleft : ∀ a ∈ pre, Apart PageRange.start stop PageRange.nid a it)
    (hnid : ∀ b ∈ post, stop it = b.start → it.nid = b.nid) :
    Rep (pre ++ joinNext it post) f := by
  have hap := List.pairwise_append.mp h.apart
  rcases joinNext_cases h with ⟨he, hno⟩ | ⟨b, post₀, rfl, hs, he⟩
  · rw [he]
    exact ⟨represents_of_middle hap.1 hap.2.1 hap.2.2 hleft
      (fun b hb => ⟨h.right b hb, fun hbs => absurd hbs (hno b hb)⟩) h.nonempty hf, h.bounded⟩
  · rw [he]
    have h1 := h.nonempty it (by simp)
    have h2 := h.nonempty b (by simp)
    have hnb : it.nid = b.nid := hnid b (by simp) hs
    have hstop : stop ⟨it.start, it.npages + b.npages, it.nid⟩ = stop b := by
      simp only [stop] at hs ⊢
      omega
    have hb := List.pairwise_cons.mp hap.2.1
    refine ⟨represents_of_middle hap.1 hb.2 (fun a ha c hc => hap.2.2 a ha c (by simp [hc])) hleft
      (fun c hc => ?_) (fun c hc => ?_) (labels_join h1 h2 hs hnb hf), fun c hc => ?_⟩
    · obtain ⟨hle, hne⟩ := hb.1 c hc
      exact ⟨by rw [hstop]; exact hle, by rw [hstop]; exact hnb ▸ hne⟩
    · simp only [List.mem_append, List.mem_cons] at hc
      rcases hc with hc | rfl | hc
      · exact h.nonempty c (by simp [hc])
      · rw [hstop]
        simp only
        omega
      · exact h.nonempty c (by simp [hc])
    · simp only [List.mem_append, List.mem_cons] at hc
      rcases hc with hc | rfl | hc
      · exact h.bounded c (by simp [hc])
      · rw [hstop]
        exact h.bounded b (by simp)
      · exact h.bounded c (by simp [hc])

/-- The range inserted or joined keeps its start and its node and does not shrink.
Source: `sys/early_page_allocator.cpp` `free_page_range`
Kind: L -/
theorem joinNext_head (h : Pending pre it post) :
    ∃ m ∈ joinNext it post, m.start = it.start ∧ m.nid = it.nid ∧
      stop it ≤ stop m ∧ ∀ b ∈ post, stop it = b.start → stop b ≤ stop m := by
  rcases joinNext_cases h with ⟨he, hno⟩ | ⟨b, post₀, rfl, hs, he⟩
  · exact ⟨it, by simp [he], rfl, rfl, le_rfl, fun b hb hbs => absurd hbs (hno b hb)⟩
  · rw [he]
    refine ⟨_, List.mem_cons_self, rfl, rfl, by simp only [stop]; omega, fun c hc hcs => ?_⟩
    rcases List.mem_cons.mp hc with rfl | hc
    · simp only [stop] at hs ⊢
      omega
    · have hap := (List.pairwise_append.mp h.apart).2.1
      have h1 := ((List.pairwise_cons.mp hap).1 c hc).1
      have h2 := h.nonempty b (by simp)
      omega

/-- Cutting the ordered ranges at a free page: those before end by then, those after start later.
Source: `sys/early_page_allocator.cpp` `free_page_range`
Kind: L -/
theorem pending_of_free {start e nid : ℕ} (h : Rep l f) (hse : start < e) (he : e ≤ maxPfn)
    (hfree : ∀ p, start ≤ p → p < e → f p = none) :
    Pending (l.takeWhile fun r => r.start < start) ⟨start, e - start, nid⟩
      (l.dropWhile fun r => r.start < start) := by
  set pre := l.takeWhile fun r => r.start < start with hpre
  set post := l.dropWhile fun r => r.start < start with hpost
  have hl : l = pre ++ post := (List.takeWhile_append_dropWhile ..).symm
  have hstop : stop ⟨start, e - start, nid⟩ = e := by
    simp only [stop]
    omega
  have hmem : ∀ a, a ∈ l ↔ a ∈ pre ∨ a ∈ post := fun a => by rw [hl, List.mem_append]
  have hleft : ∀ a ∈ pre, stop a ≤ start := by
    intro a ha
    have hlt : a.start < start := by simpa using List.mem_takeWhile_imp ha
    exact h.segments.not_mem_of_none (hfree start le_rfl hse) ((hmem a).mpr (Or.inl ha)) hlt.le
  have hge : ∀ b ∈ post, start ≤ b.start := by
    intro b hb
    cases hd : post with
    | nil => simp [hd] at hb
    | cons c rest =>
        have hc : start ≤ c.start := by
          have : ¬ c.start < start := by
            simpa [← hpost, hd] using List.head?_dropWhile_not (fun r => decide (r.start < start)) l
          omega
        have hap := hl ▸ h.segments.apart
        rw [hd] at hap hb
        rcases List.mem_cons.mp hb with rfl | hb
        · exact hc
        · have h1 := ((List.pairwise_cons.mp (List.pairwise_append.mp hap).2.1).1 b hb).1
          have h2 := h.segments.nonempty c ((hmem c).mpr (Or.inr (by simp [hd])))
          omega
  have hright : ∀ b ∈ post, e ≤ b.start := by
    intro b hb
    by_contra hlt
    have hbl := (hmem b).mpr (Or.inr hb)
    have := h.segments.value_of_mem hbl (p := b.start) le_rfl (h.segments.nonempty b hbl)
    rw [hfree b.start (hge b hb) (by omega)] at this
    cases this
  refine ⟨hl ▸ h.segments.apart, hleft, fun b hb => by rw [hstop]; exact hright b hb,
    fun a ha => ?_, fun a ha => ?_⟩
  · simp only [List.mem_append, List.mem_cons] at ha
    rcases ha with ha | rfl | ha
    · exact h.segments.nonempty a ((hmem a).mpr (Or.inl ha))
    · rw [hstop]
      exact hse
    · exact h.segments.nonempty a ((hmem a).mpr (Or.inr ha))
  · simp only [List.mem_append, List.mem_cons] at ha
    rcases ha with ha | rfl | ha
    · exact h.bounded a ((hmem a).mpr (Or.inl ha))
    · rw [hstop]
      exact he
    · exact h.bounded a ((hmem a).mpr (Or.inr ha))

/-- The inserted range has the pages that were freed.
Source: `sys/early_page_allocator.cpp` `free_page_range`
Kind: L -/
theorem labels_insert (h : Pending pre it post) (hf : Labels (pre ++ post) f) :
    Labels (pre ++ it :: post) (f.free it.start (stop it) it.nid) := by
  intro p n
  simp only [List.mem_append, List.mem_cons, or_and_right, exists_or, exists_eq_left]
  by_cases hp : it.start ≤ p ∧ p < stop it
  · simp only [PageMap.free, hp, and_self, if_true, Option.some.injEq, and_true]
    constructor
    · exact fun hn => Or.inr (Or.inl hn)
    · rintro (⟨a, ha, -, h1, h2⟩ | hn | ⟨a, ha, -, h1, h2⟩)
      · have := h.left a ha
        omega
      · exact hn
      · have := h.right a ha
        omega
  · simp only [PageMap.free, hp, if_false, and_false, false_or]
    rw [hf p n]
    simp only [List.mem_append, or_and_right, exists_or]

/-- No neighbour of `[start, stop)` belongs to another node.
Source: `sys/early_page_allocator.cpp` `coalesce`
Kind: D -/
def SameNeighbours (l : FreePages) (start e nid : ℕ) : Prop :=
  ∀ r ∈ l, stop r = start ∨ r.start = e → r.nid = nid

instance (l : FreePages) (start e nid : ℕ) : Decidable (SameNeighbours l start e nid) :=
  inferInstanceAs (Decidable (∀ r ∈ l, _))

/-- **Freeing.** After `early_free_page(start, e, nid)` of pages that were not free, the ranges
are the canonical representation of the new free pages if and only if neither neighbour belongs
to another node.
Source: `sys/early_page_allocator.cpp` `free_page_range`
Kind: P -/
theorem Rep.free_iff {start e nid : ℕ} (h : Rep l f) (hse : start < e) (he : e ≤ maxPfn)
    (hfree : ∀ p, start ≤ p → p < e → f p = none) (hl' : earlyFreePage start e nid l = some l') :
    Rep l' (f.free start e nid) ↔ SameNeighbours l start e nid := by
  have hpend : Pending (l.takeWhile fun r => r.start < start) ⟨start, e - start, nid⟩
      (l.dropWhile fun r => r.start < start) := pending_of_free h hse he hfree
  have hlen : wsub e start = e - start := wsub_eq hse.le (by simp only [maxPfn, word] at *; omega)
  simp only [earlyFreePage, freePageRange, hlen] at hl'
  set range : PageRange := ⟨start, e - start, nid⟩ with hrange
  have hstop : stop range = e := by
    simp only [stop, hrange]
    omega
  have hl : l = (l.takeWhile fun r => r.start < start) ++ l.dropWhile fun r => r.start < start :=
    (List.takeWhile_append_dropWhile ..).symm
  generalize (l.takeWhile fun r => r.start < start) = pre at *
  generalize (l.dropWhile fun r => r.start < start) = post at *
  have hmem : ∀ a, a ∈ l ↔ a ∈ pre ∨ a ∈ post := fun a => by rw [hl, List.mem_append]
  split at hl'
  · cases hl'
  obtain ⟨pre', it', hjoin⟩ : ∃ pre' it', joinPrior pre range = (pre', it') := ⟨_, _, rfl⟩
  rw [hjoin, Option.some.injEq] at hl'
  subst hl'
  obtain ⟨hpend', hstop', hstart'⟩ := hpend.joinPrior hjoin
  have hstart' : it'.start ≤ start := hstart'
  have hlab : Labels (pre ++ range :: post) (f.free start e nid) := by
    have := labels_insert hpend (hl ▸ h.segments.value)
    rwa [hstop] at this
  constructor
  · intro hrep
    -- the range that takes in the freed pages also has its neighbours' pages
    obtain ⟨m, hm, hms, hmn, hme, hmb⟩ := joinNext_head hpend'
    have hval : ∀ p, it'.start ≤ p → p < stop m → f.free start e nid p = some it'.nid := by
      intro p h1 h2
      rw [← hmn]
      exact hrep.segments.value_of_mem (List.mem_append_right _ hm) (by rw [hms]; exact h1) h2
    have hnid : it'.nid = nid := by
      have h1 := hval start hstart' (by omega)
      rw [PageMap.free, if_pos ⟨le_rfl, hse⟩, Option.some.injEq] at h1
      exact h1.symm
    intro r hr hside
    rcases (hmem r).mp hr with hr' | hr'
    · have hrs : stop r = start := by
        rcases hside with hrs | hrs
        · exact hrs
        · have h1 := hpend.left r hr'
          have h2 := h.segments.nonempty r hr
          simp only [hrange] at h1
          omega
      rcases joinPrior_cases hpend with ⟨-, hno⟩ | ⟨pre₀, a, rfl, has, heq⟩
      · exact absurd hrs (hno r hr')
      · obtain ⟨-, rfl⟩ := Prod.mk.inj (heq.symm.trans hjoin)
        rcases List.mem_append.mp hr' with hr' | hr'
        · have hap := (List.pairwise_append.mp hpend.apart).1
          have h1 := lt_of_mem_before_last hap hr' (hpend.nonempty a (by simp))
          simp only [hrange] at has
          omega
        · rw [List.mem_singleton.mp hr']
          exact hnid
    · have hrs : r.start = e := by
        rcases hside with hrs | hrs
        · have h1 := hpend.right r hr'
          have h2 := h.segments.nonempty r hr
          omega
        · exact hrs
      have h1 := hmb r hr' (by omega)
      have h2 := h.segments.nonempty r hr
      have h3 := hval e (by omega) (by omega)
      have h4 := h.segments.value_of_mem hr (p := e) (by omega) (by omega)
      rw [PageMap.free, if_neg (by omega), h4, Option.some.injEq] at h3
      exact h3.trans hnid
  · intro hside
    obtain ⟨hlab', hnid', hapart⟩ := hpend.labels_joinPrior hlab
      (fun a ha has => hside a ((hmem a).mpr (Or.inl ha)) (Or.inl has)) hjoin
    refine hpend'.joinNext hlab' hapart fun b hb hbs => ?_
    rw [hnid']
    exact (hside b ((hmem b).mpr (Or.inr hb)) (Or.inr (by omega))).symm

/-- Pages that are not free can be freed: no record is overwritten.
Source: `sys/early_page_allocator.cpp` `free_page_range`
Kind: L -/
theorem Rep.free_isSome {start e nid : ℕ} (h : Rep l f) (hfree : f start = none) :
    (earlyFreePage start e nid l).isSome := by
  have hhead : ((l.dropWhile fun r => r.start < start).head?.map PageRange.start) ≠ some start := by
    intro hs
    obtain ⟨r, hr, hrs⟩ := Option.map_eq_some_iff.mp hs
    have hmem : r ∈ l := (List.dropWhile_sublist _).subset (List.mem_of_head? hr)
    have hne := h.segments.nonempty r hmem
    have := h.segments.value_of_mem hmem hrs.le (hrs ▸ hne)
    rw [hfree] at this
    cases this
  simp only [earlyFreePage, freePageRange]
  rw [if_neg hhead]
  rfl

/-! ## Allocating -/

/-- The range may serve a request for node `nid`.
Source: `sys/early_page_allocator.cpp` `early_allocate_page`
Kind: D -/
def Serves (r : PageRange) (nid : ℕ) : Prop := nid = anyNid ∨ r.nid = nid

instance (r : PageRange) (nid : ℕ) : Decidable (Serves r nid) :=
  inferInstanceAs (Decidable (_ ∨ _))

/-- No range that may serve the request ends below the number of pages asked for.
Source: `sys/early_page_allocator.cpp` `early_allocate_page`
Kind: D -/
def EndsHighEnough (l : FreePages) (npages nid : ℕ) : Prop :=
  ∀ r ∈ l, Serves r nid → npages ≤ stop r

instance (l : FreePages) (npages nid : ℕ) : Decidable (EndsHighEnough l npages nid) :=
  inferInstanceAs (Decidable (∀ r ∈ l, _ → _))

variable {npages nid ret : ℕ}

/-- A range that does not serve the request is passed over.
Source: `sys/early_page_allocator.cpp` `early_allocate_page`
Kind: L -/
theorem earlyAllocatePage_skip (h : ¬ Serves a nid) :
    earlyAllocatePage npages nid (a :: l) =
      (earlyAllocatePage npages nid l).map fun r => (r.1, a :: r.2) := by
  have : nid ≠ anyNid ∧ a.nid ≠ nid := by simpa [Serves, not_or] using h
  simp only [earlyAllocatePage]
  rw [if_pos this]

/-- A range that ends high enough is passed over when it is too short, and else cut at its end.
Source: `sys/early_page_allocator.cpp` `early_allocate_page`
Kind: L -/
theorem earlyAllocatePage_serves (h : Serves a nid) (ha : stop a ≤ maxPfn)
    (hle : npages ≤ stop a) :
    earlyAllocatePage npages nid (a :: l) =
      if stop a - npages < a.start then
        (earlyAllocatePage npages nid l).map fun r => (r.1, a :: r.2)
      else if stop a - npages = a.start then some (a.start, l)
      else some (stop a - npages, { a with npages := a.npages - npages } :: l) := by
  have hskip : ¬ (nid ≠ anyNid ∧ a.nid ≠ nid) := by
    rcases h with h | h <;> simp [h]
  have hword : stop a < word := by
    simp only [maxPfn, word] at *
    omega
  have hret : wsub a.pfnEnd npages = stop a - npages := by
    rw [pfnEnd_eq ha, wsub_eq hle hword]
  simp only [earlyAllocatePage]
  rw [if_neg hskip, hret]
  by_cases hlt : stop a - npages < a.start
  · rw [if_pos hlt, if_pos hlt]
  · have hnp : wsub a.npages npages = a.npages - npages :=
      wsub_eq (by simp only [stop] at hlt hle; omega) (by simp only [stop] at hword; omega)
    rw [if_neg hlt, if_neg hlt, hnp]
    by_cases heq : stop a - npages = a.start
    · rw [if_pos heq, if_pos heq, heq]
    · rw [if_neg heq, if_neg heq]

/-- A range that ends below the number of pages asked for is served all the same: the
subtraction wraps to a page beyond the address space.
Source: `sys/early_page_allocator.cpp` `early_allocate_page`
Kind: L -/
theorem earlyAllocatePage_wraps (h : Serves a nid) (ha : stop a ≤ maxPfn) (hn : npages < 2 ^ 32)
    (hlt : stop a < npages) (hr : earlyAllocatePage npages nid (a :: l) = some (ret, l')) :
    maxPfn ≤ ret := by
  have hskip : ¬ (nid ≠ anyNid ∧ a.nid ≠ nid) := by
    rcases h with h | h <;> simp [h]
  have hret : wsub a.pfnEnd npages = stop a + word - npages := by
    rw [pfnEnd_eq ha, wsub, Nat.mod_eq_of_lt (by simp only [maxPfn, word] at *; omega)]
  have hbig : maxPfn ≤ stop a + word - npages := by
    simp only [maxPfn, word]
    omega
  have hstart : a.start ≤ maxPfn := by
    simp only [stop] at ha
    omega
  simp only [earlyAllocatePage] at hr
  rw [if_neg hskip, hret, if_neg (by omega)] at hr
  split at hr <;>
  · obtain ⟨rfl, -⟩ := Prod.mk.inj (Option.some.inj hr)
    exact hbig

/-- The end of a range after a block is cut off it.
Source: `sys/early_page_allocator.cpp` `early_allocate_page`
Kind: D -/
def cut (r : PageRange) (npages : ℕ) : List PageRange :=
  if r.npages = npages then [] else [{ r with npages := r.npages - npages }]

/-- What a successful allocation does when every range that may serve it ends high enough.
Source: `sys/early_page_allocator.cpp` `early_allocate_page`
Kind: L -/
theorem earlyAllocatePage_eq_some (hb : ∀ r ∈ l, stop r ≤ maxPfn)
    (hok : EndsHighEnough l npages nid)
    (hr : earlyAllocatePage npages nid l = some (ret, l')) :
    ∃ pre r post, l = pre ++ r :: post ∧ Serves r nid ∧ r.start ≤ ret ∧
      ret + npages = stop r ∧ l' = pre ++ cut r npages ++ post := by
  induction l generalizing l' with
  | nil => cases hr
  | cons a rest ih =>
      have hmap : ((earlyAllocatePage npages nid rest).map fun r => (r.1, a :: r.2)) =
          some (ret, l') → ∃ pre r post, a :: rest = pre ++ r :: post ∧ Serves r nid ∧
            r.start ≤ ret ∧ ret + npages = stop r ∧ l' = pre ++ cut r npages ++ post := by
        intro hm
        obtain ⟨⟨ret', l''⟩, h1, h2⟩ := Option.map_eq_some_iff.mp hm
        obtain ⟨rfl, rfl⟩ := Prod.mk.inj h2
        obtain ⟨pre, r, post, rfl, hs, h2, h3, rfl⟩ :=
          ih (fun r hr => hb r (by simp [hr])) (fun r hr => hok r (by simp [hr])) h1
        exact ⟨a :: pre, r, post, rfl, hs, h2, h3, by simp⟩
      by_cases hs : Serves a nid
      · have hle := hok a (by simp) hs
        rw [earlyAllocatePage_serves hs (hb a (by simp)) hle] at hr
        split at hr
        · exact hmap hr
        rename_i hlt
        have hge : npages ≤ a.npages := by
          simp only [stop] at hlt hle
          omega
        split at hr
        · rename_i heq
          obtain ⟨rfl, rfl⟩ := Prod.mk.inj (Option.some.inj hr)
          have : a.npages = npages := by
            simp only [stop] at heq hle
            omega
          exact ⟨[], a, _, rfl, hs, le_rfl, by simp only [stop]; omega, by simp [cut, this]⟩
        · rename_i hneq
          obtain ⟨rfl, rfl⟩ := Prod.mk.inj (Option.some.inj hr)
          have : a.npages ≠ npages := by
            simp only [stop] at hneq hle
            omega
          exact ⟨[], a, rest, rfl, hs, by omega, by omega, by simp [cut, this]⟩
      · rw [earlyAllocatePage_skip hs] at hr
        exact hmap hr

/-- When a range that may serve the request ends too low, the block returned lies beyond the
address space: the ranges are sorted, so the first that may serve it ends too low as well.
Source: `sys/early_page_allocator.cpp` `early_allocate_page`
Kind: L -/
theorem maxPfn_le_of_not_endsHighEnough
    (hap : l.Pairwise fun a b => stop a ≤ b.start)
    (hb : ∀ r ∈ l, stop r ≤ maxPfn) (hn : npages < 2 ^ 32)
    (hbad : ¬ EndsHighEnough l npages nid)
    (hr : earlyAllocatePage npages nid l = some (ret, l')) : maxPfn ≤ ret := by
  induction l generalizing l' with
  | nil => cases hr
  | cons a rest ih =>
      obtain ⟨r, hrl, hrs, hrlt⟩ : ∃ r ∈ a :: rest, Serves r nid ∧ stop r < npages := by
        by_contra hno
        exact hbad fun r hr hs => by
          by_contra hlt
          exact hno ⟨r, hr, hs, by omega⟩
      by_cases hs : Serves a nid
      · have halt : stop a < npages := by
          rcases List.mem_cons.mp hrl with rfl | hrl
          · exact hrlt
          · have h1 := (List.pairwise_cons.mp hap).1 r hrl
            unfold stop at hrlt
            omega
        exact earlyAllocatePage_wraps hs (hb a (by simp)) hn halt hr
      · rw [earlyAllocatePage_skip hs] at hr
        obtain ⟨⟨ret', l''⟩, h1, h2⟩ := Option.map_eq_some_iff.mp hr
        obtain ⟨rfl, -⟩ := Prod.mk.inj h2
        have hrl' : r ∈ rest := by
          rcases List.mem_cons.mp hrl with rfl | hrl
          · exact absurd hrs hs
          · exact hrl
        exact ih (List.pairwise_cons.mp hap).2 (fun r hr => hb r (by simp [hr]))
          (fun hok => absurd (hok r hrl' hrs) (by omega)) h1

/-- Cutting a block off the end of a range keeps the representation.
Source: `sys/early_page_allocator.cpp` `early_allocate_page`
Kind: L -/
theorem Rep.cut {r : PageRange} (h : Rep (pre ++ r :: post) f) (hret : r.start ≤ ret)
    (hn : 1 ≤ npages) (hstop : ret + npages = stop r) :
    Rep (pre ++ EarlyPageAllocator.cut r npages ++ post) (f.take ret npages) := by
  have hap := List.pairwise_append.mp h.segments.apart
  have hr := List.pairwise_cons.mp hap.2.1
  have hcross : ∀ a ∈ pre, ∀ b ∈ post, Apart PageRange.start stop PageRange.nid a b :=
    fun a ha b hb => hap.2.2 a ha b (by simp [hb])
  have hleft : ∀ a ∈ pre, stop a ≤ r.start := fun a ha => (hap.2.2 a ha r (by simp)).1
  have hright : ∀ b ∈ post, stop r ≤ b.start := fun b hb => (hr.1 b hb).1
  have hval : ∀ p n, f.take ret npages p = some n ↔
      (∃ a ∈ pre, a.nid = n ∧ a.start ≤ p ∧ p < stop a) ∨
        (r.nid = n ∧ r.start ≤ p ∧ p < ret) ∨ ∃ a ∈ post, a.nid = n ∧ a.start ≤ p ∧ p < stop a := by
    intro p n
    by_cases hp : ret ≤ p ∧ p < ret + npages
    · rw [PageMap.take, if_pos hp]
      constructor
      · exact fun h => nomatch h
      · rintro (⟨a, ha, -, h1, h2⟩ | ⟨-, h1, h2⟩ | ⟨a, ha, -, h1, h2⟩)
        · have := hleft a ha
          omega
        · omega
        · have := hright a ha
          omega
    · rw [PageMap.take, if_neg hp, h.segments.value p n]
      simp only [List.mem_append, List.mem_cons, or_and_right, exists_or, exists_eq_left]
      refine or_congr Iff.rfl (or_congr ?_ Iff.rfl)
      constructor
      · rintro ⟨h1, h2⟩
        exact ⟨h1, by omega⟩
      · rintro ⟨h1, h2⟩
        exact ⟨h1, by omega⟩
  have hmem : ∀ a, a ∈ pre ∨ a ∈ post → a ∈ pre ++ r :: post := fun a ha => by
    simp only [List.mem_append, List.mem_cons]
    tauto
  unfold EarlyPageAllocator.cut
  split
  · rename_i heq
    have hrr : ret = r.start := by
      simp only [stop] at hstop
      omega
    rw [List.append_nil]
    refine ⟨⟨List.pairwise_append.mpr ⟨hap.1, hr.2, hcross⟩, fun a ha => ?_, fun p n => ?_⟩,
      fun a ha => ?_⟩
    · exact h.segments.nonempty a (hmem a (List.mem_append.mp ha))
    · rw [hval p n]
      simp only [List.mem_append, or_and_right, exists_or]
      refine or_congr Iff.rfl (or_iff_right ?_)
      rintro ⟨-, h1, h2⟩
      omega
    · exact h.bounded a (hmem a (List.mem_append.mp ha))
  · rename_i hneq
    have hstop' : stop { r with npages := r.npages - npages } = ret := by
      simp only [stop] at hstop ⊢
      omega
    rw [List.append_assoc, List.singleton_append]
    refine ⟨represents_of_middle hap.1 hr.2 hcross (fun a ha => hap.2.2 a ha r (by simp))
      (fun b hb => ?_) (fun a ha => ?_) (fun p n => ?_), fun a ha => ?_⟩
    · have h1 := hright b hb
      exact ⟨by omega, fun heq => absurd heq (by omega)⟩
    · simp only [List.mem_append, List.mem_cons] at ha
      rcases ha with ha | rfl | ha
      · exact h.segments.nonempty a (hmem a (Or.inl ha))
      · simp only [stop] at hstop ⊢
        omega
      · exact h.segments.nonempty a (hmem a (Or.inr ha))
    · rw [hval p n]
      simp only [List.mem_append, List.mem_cons, or_and_right, exists_or, exists_eq_left, hstop']
    · simp only [List.mem_append, List.mem_cons] at ha
      rcases ha with ha | rfl | ha
      · exact h.bounded a (hmem a (Or.inl ha))
      · have := h.bounded r (by simp)
        omega
      · exact h.bounded a (hmem a (Or.inr ha))

/-! ## Runs -/

/-- The allocator together with the free pages it should hold.
Source: `sys/early_page_allocator.cpp` `free_pages`
Kind: D -/
structure State where
  /-- `free_pages`. -/
  ranges : FreePages
  /-- The pages freed and not returned since, each with the node it was freed under. -/
  free : PageMap

/-- Before the first call.
Source: `sys/early_page_allocator.cpp` `early_page_allocator_init`
Kind: D -/
def State.init : State := ⟨[], fun _ => none⟩

/-- The calls.
Source: `sys/early_page_allocator.hpp`
Kind: D -/
inductive Op where
  | earlyFreePage (start stop nid : ℕ)
  | earlyAllocatePage (npages nid : ℕ)
  deriving DecidableEq, Repr

/-- What callers may ask for: to free a non-empty range of pages that are not free, or to allocate
at least one page (`unsigned int npages`).
Source: `sys/early_page_allocator.hpp`
Kind: D -/
def Legal (s : State) : Op → Prop
  | .earlyFreePage start e _ => start < e ∧ e ≤ maxPfn ∧ ∀ p, p < e → start ≤ p → s.free p = none
  | .earlyAllocatePage npages _ => 1 ≤ npages ∧ npages < 2 ^ 32

instance : ∀ (s : State) (op : Op), Decidable (Legal s op)
  | _, .earlyFreePage _ _ _ => inferInstanceAs (Decidable (_ ∧ _ ∧ _))
  | _, .earlyAllocatePage _ _ => inferInstanceAs (Decidable (_ ∧ _))

/-- The code's step on the ranges, and what it is to mean for the free pages.
Source: `sys/early_page_allocator.cpp` `early_free_page`, `early_allocate_page`
Kind: D -/
def step (s : State) : Op → Option State
  | .earlyFreePage start e nid =>
      (EarlyPageAllocator.earlyFreePage start e nid s.ranges).map fun l =>
        ⟨l, s.free.free start e nid⟩
  | .earlyAllocatePage npages nid =>
      (EarlyPageAllocator.earlyAllocatePage npages nid s.ranges).map fun r =>
        ⟨r.2, s.free.take r.1 npages⟩

/-- The early page allocator under every caller.
Source: `sys/early_page_allocator.cpp`
Kind: D -/
def system : System State Op := ⟨Legal, step⟩

instance (s : State) (op : Op) : Decidable (system.legal s op) :=
  inferInstanceAs (Decidable (Legal s op))

/-- The block that an allocation returns was free, and of the node asked for.
Source: `sys/early_page_allocator.cpp` `early_allocate_page`
Kind: D -/
def ReturnsFree (s : State) : Op → Prop
  | .earlyFreePage _ _ _ => True
  | .earlyAllocatePage npages nid =>
      ∀ ret l', EarlyPageAllocator.earlyAllocatePage npages nid s.ranges = some (ret, l') →
        ∀ p, ret ≤ p → p < ret + npages → ∃ n, s.free p = some n ∧ (nid ≠ anyNid → n = nid)

/-- What every call should do: leave the ranges the canonical representation of the free pages,
and return only a block that was free.
Source: none: infrastructure
Kind: D -/
def StepSafe (s : State) (op : Op) (s' : State) : Prop :=
  Rep s'.ranges s'.free ∧ ReturnsFree s op

/-- The calls that the code handles: no neighbour of a freed range belongs to another node, and
no range that may serve an allocation ends below the number of pages asked for.
Source: `sys/early_page_allocator.cpp` `coalesce`, `early_allocate_page`
Kind: D -/
def Handled (s : State) : Op → Prop
  | .earlyFreePage start e nid => SameNeighbours s.ranges start e nid
  | .earlyAllocatePage npages nid => EndsHighEnough s.ranges npages nid

instance : ∀ (s : State) (op : Op), Decidable (Handled s op)
  | s, .earlyFreePage start e nid => inferInstanceAs (Decidable (SameNeighbours s.ranges start e nid))
  | s, .earlyAllocatePage npages nid => inferInstanceAs (Decidable (EndsHighEnough s.ranges npages nid))

/-- One call is as it should be if and only if it is one the code handles.
Source: `sys/early_page_allocator.cpp`
Kind: P -/
theorem stepSafe_iff {s s' : State} {op : Op} (h : Rep s.ranges s.free) (hlegal : Legal s op)
    (hstep : step s op = some s') : StepSafe s op s' ↔ Handled s op := by
  obtain ⟨l, f⟩ := s
  cases op with
  | earlyFreePage start e nid =>
      obtain ⟨l', hl', rfl⟩ := Option.map_eq_some_iff.mp hstep
      obtain ⟨hse, he, hfree⟩ := hlegal
      have := Rep.free_iff h hse he (fun p h1 h2 => hfree p h2 h1) hl'
      simpa [StepSafe, ReturnsFree, Handled] using this
  | earlyAllocatePage npages nid =>
      obtain ⟨⟨ret, l'⟩, hl', rfl⟩ := Option.map_eq_some_iff.mp hstep
      obtain ⟨hn1, hn2⟩ := hlegal
      constructor
      · intro hsafe
        by_contra hbad
        have hge := maxPfn_le_of_not_endsHighEnough
          (h.segments.apart.imp fun hab => hab.1) h.bounded hn2 hbad hl'
        obtain ⟨n, hn, -⟩ := hsafe.2 ret l' hl' ret le_rfl (by omega)
        obtain ⟨a, ha, -, -, hlt⟩ := (h.segments.value ret n).mp hn
        have := h.bounded a ha
        omega
      · intro hok
        obtain ⟨pre, r, post, rfl, hs, hstart, hstop, rfl⟩ :=
          earlyAllocatePage_eq_some h.bounded hok hl'
        refine ⟨Rep.cut h hstart hn1 hstop, fun ret' l'' heq p h1 h2 => ?_⟩
        obtain ⟨rfl, -⟩ := Prod.mk.inj (Option.some.inj (heq.symm.trans hl'))
        refine ⟨r.nid, h.segments.value_of_mem (by simp) (by omega) (by omega), fun hany => ?_⟩
        exact hs.resolve_left hany

/-- In runs whose calls are all handled, the ranges represent the free pages.
Source: `sys/early_page_allocator.cpp`
Kind: P -/
theorem rep_of_run {as : List Op} {s : State} (h : (system.guard Handled).Run State.init as s) :
    Rep s.ranges s.free :=
  h.invariant ⟨represents_nil, by simp [State.init]⟩ fun _ _ _ hrep hlegal hstep =>
    ((stepSafe_iff hrep hlegal.1 hstep).mpr hlegal.2).1

/-- **The early page allocator over whole runs.** As long as every call is one the code handles,
the ranges are the canonical representation of the free pages and every block returned was free;
the first call that is not handled breaks this. No legal free finds a record in its way.
Source: `sys/early_page_allocator.cpp` `free_page_range`, `early_allocate_page`
Kind: P
Fidelity: weaker than the code promises: up to the first call that `Handled` leaves out -/
theorem earlyPageAllocator_exactlyWhen (as : List Op) (s : State)
    (hrun : (system.guard Handled).Run State.init as s) :
    (∀ op s', Legal s op → step s op = some s' → (StepSafe s op s' ↔ Handled s op)) ∧
      ∀ start e nid, Legal s (.earlyFreePage start e nid) →
        (step s (.earlyFreePage start e nid)).isSome := by
  constructor
  · intro op s' hlegal hstep
    exact stepSafe_iff (rep_of_run hrun) hlegal hstep
  · intro start e nid hlegal
    have : (earlyFreePage start e nid s.ranges).isSome :=
      (rep_of_run hrun).free_isSome (hlegal.2.2 start hlegal.1 le_rfl)
    simpa [step] using this

/-- Two ranges of one node freed in either order are joined, and a block is cut from their end.
Source: `sys/early_page_allocator.cpp`
Kind: C -/
theorem earlyPageAllocator_exactlyWhen_joined :
    ∃ s s', step s (.earlyAllocatePage 3 anyNid) = some s' ∧
      StepSafe s (.earlyAllocatePage 3 anyNid) s' ∧
        s.ranges = [⟨4, 8, 0⟩] ∧ s'.ranges = [⟨4, 5, 0⟩] := by
  have h : (system.guard Handled).Admits State.init
      ([.earlyFreePage 8 12 0, .earlyFreePage 4 8 0] ++ [.earlyAllocatePage 3 anyNid]) := by decide
  obtain ⟨s, s', hexec, hrun, hlegal, hstep⟩ := h.last
  refine ⟨s, s', hstep, ?_, ?_, ?_⟩
  · exact ((earlyPageAllocator_exactlyWhen _ s hrun).1 (.earlyAllocatePage 3 anyNid) s' hlegal.1 hstep).mpr
      hlegal.2
  · obtain rfl := Option.some.inj hexec
    rfl
  · obtain rfl := Option.some.inj hexec
    obtain rfl := Option.some.inj hstep
    rfl

/-- Two adjacent ranges of different nodes become one range of the first node.
Source: `sys/early_page_allocator.cpp` `coalesce`
Kind: P -/
theorem earlyPageAllocator_not_always : ¬ system.Always State.init StepSafe := by
  have hadmits : system.Admits State.init ([.earlyFreePage 1 2 0] ++ [.earlyFreePage 2 3 1]) := by
    decide
  refine System.not_always_of_admits hadmits ?_
  intro s s' hs hs' hsafe
  obtain rfl := Option.some.inj hs
  obtain rfl := Option.some.inj hs'
  have hmem : (⟨1, 2, 0⟩ : PageRange) ∈ ([⟨1, 2, 0⟩] : List PageRange) := List.mem_singleton_self _
  have := hsafe.1.segments.value_of_mem (p := 2) hmem (by decide) (by decide)
  exact absurd this (by decide)

end EarlyPageAllocator

end EbbRT
