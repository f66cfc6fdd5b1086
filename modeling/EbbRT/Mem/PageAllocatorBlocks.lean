import EbbRT.Mem.PageAllocatorInit

/-!
# The blocks of a range

`PageAllocator::Init` passes each free range to `early_free_page` in blocks: `cutRange` is the list of
these calls. A block in front of the divide is as large as the trailing zeros of its number allow, one
behind the divide as large as the rest of the range allows, so no two of them are buddies of an order that
could still grow. The scan of the bits is one of 32, however, and so is the shift:
`addRange_exactlyWhen` says that a range is cut into such blocks only if it has fewer than `2 ^ 31` pages.
-/

namespace EbbRT

open EbbRT.Lib

namespace PageState

/-! ## The code -/

/-- The blocks that one of the two loops passes to `early_free_page`, in order; `addPages` without the
calls.
Source: `sys/page_allocator.cpp` `PageAllocator::Init`
Kind: D -/
def cutPages (orderOf : ℕ → Option ℕ) (stop : ℕ) : ℕ → ℕ → Option (List Block)
  | 0, pfn => if pfn = stop then some [] else none
  | fuel + 1, pfn =>
      if pfn = stop then some []
      else if pfn < stop then
        (orderOf pfn).bind fun order =>
          let order := min order maxOrder
          (cutPages orderOf stop fuel (pfn + (1 <<< order))).map fun bs => ⟨pfn, order⟩ :: bs
      else none

/-- The order behind the divide, before it is cut down to `MAX_ORDER`.
Source: `sys/page_allocator.cpp` `PageAllocator::Init`
Kind: D -/
def restOrder (stop pfn : ℕ) : Option ℕ := (builtinClz (stop - pfn)).map fun clz => 32 - clz - 1

/-- The blocks that the callback of `Init` passes to `early_free_page` for one range.
Source: `sys/page_allocator.cpp` `PageAllocator::Init`
Kind: D -/
def cutRange (start stop : ℕ) : Option (List Block) :=
  if wsub stop start = 0 then none
  else
    (builtinClz (wsub stop start)).bind fun clz =>
      let largestShift := 32 - clz - 1
      if largestShift < 31 then
        let divide := alignUp start (1 <<< largestShift)
        (cutPages builtinCtz divide (divide - start) start).bind fun bs =>
          (cutPages (restOrder stop) stop (stop - divide) divide).map fun bs' => bs ++ bs'
      else none

/-- Pass blocks to `early_free_page`.
Source: `sys/page_allocator.cpp` `PageAllocator::Init`
Kind: D -/
def earlyFreePages (nid : ℕ) (bs : List Block) (s : PageState) : Option PageState :=
  bs.foldlM (fun s b => earlyFreePage b.start b.order nid s) s

/-- What the blocks of a range should be: aligned blocks that partition it and that no coalescing would
join.
Source: `sys/page_allocator.cpp` `PageAllocator::Init`
Kind: D -/
structure BuddyBlocks (start stop : ℕ) (bs : List Block) : Prop where
  partition : Partitions Block.cells bs (Set.Ico start stop)
  small : ∀ b ∈ bs, b.order ≤ maxOrder
  aligned : ∀ b ∈ bs, b.Aligned
  apart : ∀ b ∈ bs, ∀ b' ∈ bs, b'.order = b.order → b.order < maxOrder →
    b'.start ≠ buddy b.start b.order

/-! ## The calls -/

variable {s s' : PageState} {orderOf : ℕ → Option ℕ} {start stop fuel pfn nid : ℕ} {bs : List Block}

/-- A loop passes its blocks to `early_free_page`.
Source: `sys/page_allocator.cpp` `PageAllocator::Init`
Kind: L -/
theorem addPages_eq (orderOf : ℕ → Option ℕ) (stop nid fuel pfn : ℕ) (s : PageState) :
    addPages orderOf stop nid fuel pfn s
      = (cutPages orderOf stop fuel pfn).bind fun bs => earlyFreePages nid bs s := by
  induction fuel generalizing pfn s with
  | zero =>
      unfold addPages cutPages
      split <;> rfl
  | succ fuel ih =>
      unfold addPages cutPages
      by_cases heq : pfn = stop
      · rw [if_pos heq, if_pos heq]
        rfl
      · rw [if_neg heq, if_neg heq]
        by_cases hlt : pfn < stop
        · rw [if_pos hlt, if_pos hlt, Option.bind_assoc]
          congr 1
          funext order
          dsimp only
          rw [Option.bind_map]
          -- both sides make the first call and cut the rest, in either order
          cases hfirst : earlyFreePage pfn (min order maxOrder) nid s with
          | none =>
              rw [Option.bind_none]
              symm
              apply Option.bind_eq_none_iff.mpr
              intro bs _
              simp only [Function.comp, earlyFreePages, List.foldlM_cons, hfirst]
              rfl
          | some s₁ =>
              rw [Option.bind_some, ih]
              congr 1
              funext bs
              simp only [Function.comp, earlyFreePages, List.foldlM_cons, hfirst]
              rfl
        · rw [if_neg hlt, if_neg hlt]
          rfl

/-- **The callback of `Init`** passes the blocks of its range to `early_free_page`.
Source: `sys/page_allocator.cpp` `PageAllocator::Init`
Kind: P -/
theorem addRange_eq (start stop nid : ℕ) (s : PageState) :
    addRange start stop nid s
      = (cutRange start stop).bind fun bs => earlyFreePages nid bs s := by
  unfold addRange cutRange
  split
  · rfl
  · rw [Option.bind_assoc]
    congr 1
    funext clz
    dsimp only
    split
    · rw [addPages_eq, Option.bind_assoc, Option.bind_assoc]
      congr 1
      funext bs
      rw [Option.bind_map]
      cases hfirst : earlyFreePages nid bs s with
      | none =>
          rw [Option.bind_none]
          symm
          apply Option.bind_eq_none_iff.mpr
          intro bs' _
          simp only [Function.comp, earlyFreePages, List.foldlM_append]
          rw [show bs.foldlM (fun s b => earlyFreePage b.start b.order nid s) s = none from hfirst]
          rfl
      | some s₁ =>
          rw [Option.bind_some, addPages_eq]
          congr 1
          funext bs'
          simp only [Function.comp, earlyFreePages, List.foldlM_append]
          rw [show bs.foldlM (fun s b => earlyFreePage b.start b.order nid s) s = some s₁ from hfirst]
          rfl
    · rfl

/-- The calls return when the blocks are small and their heads have `page` structures.
Source: `sys/page_allocator.cpp` `PageAllocator::early_free_page`
Kind: L -/
theorem exists_earlyFreePages (nid : ℕ) (hsmall : ∀ b ∈ bs, b.order ≤ maxOrder)
    (hpresent : ∀ b ∈ bs, s.present (pfnToSectionNum b.start) = true) :
    ∃ s', earlyFreePages nid bs s = some s' := by
  induction bs generalizing s with
  | nil => exact ⟨s, rfl⟩
  | cons b bs ih =>
      obtain ⟨s₁, h₁⟩ : ∃ s₁, earlyFreePage b.start b.order nid s = some s₁ := by
        have hpage : s.present (pfnToSectionNum b.start) = true := hpresent b List.mem_cons_self
        simp only [earlyFreePage, freePageNoCoalesce, pfnToPage, setList_present,
          if_pos (hsmall b List.mem_cons_self), hpage, if_true]
        exact ⟨_, rfl⟩
      obtain ⟨s', h'⟩ := ih (s := s₁) (fun b hb => hsmall b (List.mem_cons_of_mem _ hb))
        (fun b hb => by
          rw [present_earlyFreePage h₁]
          exact hpresent b (List.mem_cons_of_mem _ hb))
      refine ⟨s', ?_⟩
      unfold earlyFreePages at h' ⊢
      rw [List.foldlM_cons, h₁]
      exact h'

/-! ## One loop -/

/-- **One loop cuts a stretch into blocks.** `I` holds of the page numbers that the loop comes to, and `Q`
of the blocks that it makes there.
Source: `sys/page_allocator.cpp` `PageAllocator::Init`
Kind: P -/
theorem cutPages_spec {I : ℕ → Prop} {Q : Block → Prop}
    (hturn : ∀ pfn, I pfn → pfn < stop → ∃ k, orderOf pfn = some k ∧
      pfn + 2 ^ min k maxOrder ≤ stop ∧ I (pfn + 2 ^ min k maxOrder) ∧ Q ⟨pfn, min k maxOrder⟩)
    (hpfn : I pfn) (hle : pfn ≤ stop) (hfuel : stop - pfn ≤ fuel) :
    ∃ bs, cutPages orderOf stop fuel pfn = some bs ∧
      Partitions Block.cells bs (Set.Ico pfn stop) ∧ ∀ b ∈ bs, b.order ≤ maxOrder ∧ Q b := by
  induction fuel generalizing pfn with
  | zero =>
      obtain rfl : pfn = stop := by omega
      refine ⟨[], if_pos rfl, ?_, by simp⟩
      rw [Set.Ico_self]
      exact partitions_nil
  | succ fuel ih =>
      unfold cutPages
      by_cases heq : pfn = stop
      · subst heq
        refine ⟨[], if_pos rfl, ?_, by simp⟩
        rw [Set.Ico_self]
        exact partitions_nil
      · have hlt : pfn < stop := by omega
        obtain ⟨k, hk, hend, hnext, hQ⟩ := hturn pfn hpfn hlt
        have hpos := Nat.two_pow_pos (min k maxOrder)
        obtain ⟨bs, hbs, hpart, hall⟩ := ih hnext hend (by omega)
        refine ⟨⟨pfn, min k maxOrder⟩ :: bs, ?_, ?_, ?_⟩
        · rw [if_neg heq, if_pos hlt, hk, Option.bind_some]
          dsimp only
          rw [Nat.shiftLeft_eq, one_mul, hbs, Option.map_some]
        · have hcells : (⟨pfn, min k maxOrder⟩ : Block).cells
              = Set.Ico pfn (pfn + 2 ^ min k maxOrder) := rfl
          have hdisjoint : Disjoint (Set.Ico (pfn + 2 ^ min k maxOrder) stop)
              (⟨pfn, min k maxOrder⟩ : Block).cells := by
            rw [hcells]
            exact (Set.Ico_disjoint_Ico_same).symm
          have hcons := hpart.cons hdisjoint
          rwa [hcells, Set.union_comm, Set.Ico_union_Ico_eq_Ico (Nat.le_add_right _ _) hend] at hcons
        · intro b hb
          rcases List.mem_cons.mp hb with rfl | hb
          · exact ⟨Nat.min_le_right _ _, hQ⟩
          · exact hall b hb

/-! ## In front of the divide -/

/-- A number is no multiple of two to more than its trailing zeros.
Source: none: infrastructure
Kind: L -/
theorem not_two_pow_dvd_of_trailingZeros {fuel x : ℕ} (hne : x ≠ 0) (hlt : x < 2 ^ fuel) :
    ¬ 2 ^ (trailingZeros fuel x + 1) ∣ x := by
  induction fuel generalizing x with
  | zero => omega
  | succ fuel ih =>
      rw [Nat.pow_succ] at hlt
      unfold trailingZeros
      by_cases hodd : x % 2 = 1
      · rw [if_pos hodd]
        omega
      · rw [if_neg hodd]
        rintro ⟨q, hq⟩
        apply ih (x := x / 2) (by omega) (by omega)
        refine ⟨q, ?_⟩
        rw [Nat.pow_succ, Nat.mul_right_comm, Nat.mul_comm _ 2] at hq
        omega

/-- A number that a smaller power of two divides than the stop lies below it by at least that power.
Source: none: infrastructure
Kind: L -/
theorem add_two_pow_le_of_dvd {p q k : ℕ} (hp : 2 ^ k ∣ p) (hq : 2 ^ k ∣ q) (hlt : p < q) :
    p + 2 ^ k ≤ q := by
  have hdvd : 2 ^ k ∣ q - p := Nat.dvd_sub hq hp
  have hle := Nat.le_of_dvd (by omega) hdvd
  omega

/-- **The loop in front of the divide**, for a divide that is the first multiple of `2 ^ j` from the start
on: its blocks cannot grow upwards.
Source: `sys/page_allocator.cpp` `PageAllocator::Init`
Kind: P -/
theorem cutPages_front {j divide : ℕ} (hj : j < 32) (hle : start ≤ divide) (hdvd : 2 ^ j ∣ divide)
    (hfirst : ∀ p, start ≤ p → 2 ^ j ∣ p → divide ≤ p) :
    ∃ bs, cutPages builtinCtz divide (divide - start) start = some bs ∧
      Partitions Block.cells bs (Set.Ico start divide) ∧
      ∀ b ∈ bs, b.order ≤ maxOrder ∧ b.Aligned ∧
        (b.order < maxOrder → ¬ 2 ^ (b.order + 1) ∣ b.start) := by
  apply cutPages_spec (I := fun p => start ≤ p) (fun pfn hstart hlt => ?_) le_rfl hle le_rfl
  have hpow : 2 ^ j ∣ 2 ^ 32 := Nat.pow_dvd_pow 2 hj.le
  have hmod : pfn % 2 ^ 32 ≠ 0 := by
    intro hzero
    have := hfirst pfn hstart (hpow.trans (Nat.dvd_of_mod_eq_zero hzero))
    omega
  set k := trailingZeros 32 (pfn % 2 ^ 32) with hk
  have hctz : builtinCtz pfn = some k := if_neg hmod
  have haligned := dvd_of_builtinCtz hctz
  -- fewer trailing zeros than the divide: otherwise the divide would not be the first multiple
  have hkj : min k maxOrder < j := by
    by_contra hge
    have := hfirst pfn hstart ((Nat.pow_dvd_pow 2 (Nat.le_of_not_lt hge)).trans haligned)
    omega
  have hend := add_two_pow_le_of_dvd haligned ((Nat.pow_dvd_pow 2 hkj.le).trans hdvd) hlt
  refine ⟨k, hctz, hend, by omega, haligned, fun hsmall hgrow => ?_⟩
  have hmin : min k maxOrder = k := by
    dsimp only at hsmall
    omega
  dsimp only at hgrow
  rw [hmin] at hgrow
  have h32 : 2 ^ (k + 1) ∣ 2 ^ 32 := Nat.pow_dvd_pow 2 (by omega)
  exact not_two_pow_dvd_of_trailingZeros hmod (Nat.mod_lt _ (by decide))
    ((Nat.dvd_mod_iff h32).mpr hgrow)

/-! ## Behind the divide -/

/-- The order behind the divide is the logarithm of the rest, if that fits in 32 bits.
Source: `sys/page_allocator.cpp` `PageAllocator::Init`
Kind: L -/
theorem restOrder_eq (hlt : pfn < stop) (hrest : stop - pfn < 2 ^ 32) :
    restOrder stop pfn = some (Nat.log2 (stop - pfn)) := by
  have hmod : (stop - pfn) % 2 ^ 32 = stop - pfn := Nat.mod_eq_of_lt hrest
  have hne : (stop - pfn) % 2 ^ 32 ≠ 0 := by omega
  have hclz : builtinClz (stop - pfn) = some (31 - Nat.log2 ((stop - pfn) % 2 ^ 32)) := if_neg hne
  have hlog := (log2_of_builtinClz hclz).2
  unfold restOrder
  rw [hclz, Option.map_some, hlog, hmod]

/-- **The loop behind the divide**: its blocks are too large for what is left.
Source: `sys/page_allocator.cpp` `PageAllocator::Init`
Kind: P -/
theorem cutPages_rest {divide : ℕ} (hfits : FitsRest stop divide) (hle : divide ≤ stop)
    (hrest : stop - divide < 2 ^ 32) :
    ∃ bs, cutPages (restOrder stop) stop (stop - divide) divide = some bs ∧
      Partitions Block.cells bs (Set.Ico divide stop) ∧
      ∀ b ∈ bs, b.order ≤ maxOrder ∧ b.Aligned ∧
        (b.order < maxOrder → stop < b.start + 2 ^ (b.order + 1)) := by
  apply cutPages_spec (I := fun p => FitsRest stop p ∧ divide ≤ p) (fun pfn hI hlt => ?_)
    ⟨hfits, le_rfl⟩ hle le_rfl
  obtain ⟨hfit, hge⟩ := hI
  have hsmall : stop - pfn < 2 ^ 32 := by omega
  have hmod : (stop - pfn) % 2 ^ 32 = stop - pfn := Nat.mod_eq_of_lt hsmall
  have hne : stop - pfn ≠ 0 := by omega
  have hnext := hfit.next (by rwa [hmod])
  unfold FitsRest at hfit
  rw [hmod] at hfit hnext
  have hpow : 2 ^ min (Nat.log2 (stop - pfn)) maxOrder ≤ stop - pfn :=
    (Nat.pow_le_pow_right (by decide) (Nat.min_le_left _ _)).trans (Nat.log2_self_le hne)
  refine ⟨_, restOrder_eq hlt hsmall, by omega, ⟨hnext, by omega⟩, hfit, fun horder => ?_⟩
  dsimp only at horder ⊢
  have hmin : min (Nat.log2 (stop - pfn)) maxOrder = Nat.log2 (stop - pfn) := by omega
  rw [hmin]
  have := Nat.lt_log2_self (n := stop - pfn)
  omega

/-! ## One range -/

/-- Source: `sys/mem_map.hpp` `MAX_PHYSMEM_BITS`
Kind: D -/
def maxPhysmemBits : ℕ := 46

/-- What the callback of `Init` should do: return, with the range passed to `early_free_page` in blocks as
they should be.
Source: `sys/page_allocator.cpp` `PageAllocator::Init`
Kind: D -/
def ReleasesBlocks (start stop nid : ℕ) (s : PageState) : Prop :=
  ∃ bs s', cutRange start stop = some bs ∧ earlyFreePages nid bs s = some s' ∧
    addRange start stop nid s = some s' ∧ BuddyBlocks start stop bs

/-- No block is the lower buddy of another one.
Source: `sys/page_allocator.cpp` `PageAllocator::Init`
Kind: L -/
theorem not_lower_buddy {divide : ℕ} {front rest : List Block} {b b' : Block}
    (hfront : ∀ b ∈ front, b.order < maxOrder → ¬ 2 ^ (b.order + 1) ∣ b.start)
    (hfrontCells : Partitions Block.cells front (Set.Ico start divide))
    (hrest : ∀ b ∈ rest, b.order < maxOrder → stop < b.start + 2 ^ (b.order + 1))
    (hrestCells : Partitions Block.cells rest (Set.Ico divide stop))
    (hb : b ∈ front ++ rest) (hb' : b' ∈ front ++ rest) (horder : b'.order = b.order)
    (hsmall : b.order < maxOrder) (hdvd : 2 ^ (b.order + 1) ∣ b.start) :
    b'.start ≠ b.start + 2 ^ b.order := by
  intro hupper
  have hpow : 2 ^ (b.order + 1) = 2 ^ b.order + 2 ^ b.order := by rw [Nat.pow_succ, Nat.mul_two]
  have hpos := Nat.two_pow_pos b.order
  rcases List.mem_append.mp hb with hb | hb
  · exact hfront b hb hsmall hdvd
  · have hlarge := hrest b hb hsmall
    have hlow := (hrestCells.mem_of_mem_part hb b.start_mem_cells).1
    rcases List.mem_append.mp hb' with hb' | hb'
    · have hhigh := (hfrontCells.mem_of_mem_part hb' b'.start_mem_cells).2
      omega
    · -- the upper half would end at the stop or behind it
      have hlast : b'.start + (2 ^ b.order - 1) ∈ b'.cells := by
        rw [Block.mem_cells, horder]
        omega
      have hend := (hrestCells.mem_of_mem_part hb' hlast).2
      omega

/-- Two adjacent stretches in blocks. Source: none: infrastructure. Kind: L -/
theorem partitions_append {a b c : ℕ} {front rest : List Block} (hab : a ≤ b) (hbc : b ≤ c)
    (hfront : Partitions Block.cells front (Set.Ico a b))
    (hrest : Partitions Block.cells rest (Set.Ico b c)) :
    Partitions Block.cells (front ++ rest) (Set.Ico a c) where
  disjoint := by
    refine List.pairwise_append.mpr ⟨hfront.disjoint, hrest.disjoint, fun x hx y hy => ?_⟩
    apply Set.disjoint_left.mpr
    intro p hpx hpy
    have hlt := (hfront.mem_of_mem_part hx hpx).2
    have hge := (hrest.mem_of_mem_part hy hpy).1
    omega
  cover p := by
    rw [← Set.Ico_union_Ico_eq_Ico hab hbc, Set.mem_union, hfront.cover, hrest.cover]
    simp only [List.mem_append, or_and_right, exists_or]

/-- **A range of fewer than 2^31 pages** is cut into blocks as they should be.
Source: `sys/page_allocator.cpp` `PageAllocator::Init`
Kind: P -/
theorem cutRange_spec (hlt : start < stop) (hstop : stop ≤ maxPfn) (hsize : stop - start < 2 ^ 31) :
    ∃ bs, cutRange start stop = some bs ∧ BuddyBlocks start stop bs := by
  have hne : stop - start ≠ 0 := by omega
  have hmod : (stop - start) % 2 ^ 32 = stop - start := Nat.mod_eq_of_lt (by omega)
  have hlen : wsub stop start = stop - start :=
    wsub_eq hlt.le (hstop.trans_lt (by decide))
  set j := Nat.log2 (stop - start) with hj
  have hj31 : j < 31 := (Nat.log2_lt hne).mpr hsize
  have hpow : 2 ^ j ≤ stop - start := Nat.log2_self_le hne
  have hclz : builtinClz (stop - start) = some (31 - j) := by
    unfold builtinClz
    rw [hmod, if_neg hne]
  have hshift : 32 - (31 - j) - 1 = j := by omega
  have hword : start + 2 ^ j - 1 < word := by
    simp only [maxPfn, word] at *
    omega
  obtain ⟨hlo, hhi, hdvd, hfirst⟩ := alignUp_spec hword (by omega)
  have hfits := (fitsRest_divide hlt hstop (by rwa [hmod])).2
  rw [hmod, ← hj] at hfits
  set divide := alignUp start (2 ^ j) with hdivide
  obtain ⟨front, hfront, hfrontCells, hfrontAll⟩ := cutPages_front (by omega) hlo hdvd hfirst
  obtain ⟨rest, hrest, hrestCells, hrestAll⟩ := cutPages_rest hfits (by omega) (by omega)
  refine ⟨front ++ rest, ?_, ?_, ?_, ?_, ?_⟩
  · unfold cutRange
    rw [hlen, if_neg hne, hclz, Option.bind_some]
    dsimp only
    rw [hshift, if_pos hj31, Nat.shiftLeft_eq, one_mul, ← hdivide, hfront, Option.bind_some, hrest]
    rfl
  · exact partitions_append hlo (by omega) hfrontCells hrestCells
  · intro b hb
    rcases List.mem_append.mp hb with hb | hb
    · exact (hfrontAll b hb).1
    · exact (hrestAll b hb).1
  · intro b hb
    rcases List.mem_append.mp hb with hb | hb
    · exact (hfrontAll b hb).2.1
    · exact (hrestAll b hb).2.1
  · intro b hb b' hb' horder hsmall hbuddy
    have haligned : ∀ b ∈ front ++ rest, b.Aligned := by
      intro b hb
      rcases List.mem_append.mp hb with hb | hb
      · exact (hfrontAll b hb).2.1
      · exact (hrestAll b hb).2.1
    have hlower : ∀ {b b' : Block}, b ∈ front ++ rest → b' ∈ front ++ rest → b'.order = b.order →
        b.order < maxOrder → 2 ^ (b.order + 1) ∣ b.start → b'.start ≠ b.start + 2 ^ b.order :=
      not_lower_buddy (fun b hb => (hfrontAll b hb).2.2) hfrontCells
        (fun b hb => (hrestAll b hb).2.2) hrestCells
    rcases buddy_cases (haligned b hb) with ⟨hup, hgrow⟩ | ⟨hdown, hgrow⟩
    · exact hlower hb hb' horder hsmall hgrow (hbuddy.trans hup)
    · rw [← hbuddy] at hdown hgrow
      refine hlower hb' hb horder.symm (horder ▸ hsmall) (horder ▸ hgrow) ?_
      rw [horder, hdown]

/-- Behind the divide a rest of 2^32 pages or more is never used up: the scan reads its low word, which
comes to zero first.
Source: `sys/page_allocator.cpp` `PageAllocator::Init`
Kind: L -/
theorem cutPages_rest_eq_none (hrest : 2 ^ 32 ≤ stop - pfn) :
    cutPages (restOrder stop) stop fuel pfn = none := by
  induction fuel generalizing pfn with
  | zero => exact if_neg (by omega)
  | succ fuel ih =>
      unfold cutPages
      rw [if_neg (by omega), if_pos (by omega)]
      cases hclz : builtinClz (stop - pfn) with
      | none =>
          have horder : restOrder stop pfn = none := by
            unfold restOrder
            rw [hclz, Option.map_none]
          rw [horder, Option.bind_none]
      | some clz =>
          have horder : restOrder stop pfn = some (32 - clz - 1) := by
            unfold restOrder
            rw [hclz, Option.map_some]
          obtain ⟨hlow, hlog⟩ := log2_of_builtinClz hclz
          have hpow : 2 ^ min (Nat.log2 ((stop - pfn) % 2 ^ 32)) maxOrder ≤ (stop - pfn) % 2 ^ 32 :=
            (Nat.pow_le_pow_right (by decide) (Nat.min_le_left _ _)).trans (Nat.log2_self_le hlow)
          have hmod : (stop - pfn) % 2 ^ 32 + 2 ^ 32 ≤ stop - pfn := by omega
          rw [horder, Option.bind_some]
          dsimp only
          rw [hlog, Nat.shiftLeft_eq, one_mul, ih (by omega), Option.map_none]

/-- **A range of 2^31 pages or more** is not cut: the shift overflows, or the scan is of a low word that is
zero, at once or later.
Source: `sys/page_allocator.cpp` `PageAllocator::Init`
Kind: P -/
theorem cutRange_eq_none (hstop : stop ≤ maxPfn) (hsize : 2 ^ 31 ≤ stop - start) :
    cutRange start stop = none := by
  have hlen : wsub stop start = stop - start :=
    wsub_eq (by omega) (hstop.trans_lt (by decide))
  unfold cutRange
  rw [hlen, if_neg (by omega)]
  cases hclz : builtinClz (stop - start) with
  | none => rfl
  | some clz =>
      obtain ⟨hlow, hlog⟩ := log2_of_builtinClz hclz
      rw [Option.bind_some]
      dsimp only
      rw [hlog]
      set j := Nat.log2 ((stop - start) % 2 ^ 32) with hj
      by_cases hshift : j < 31
      · rw [if_pos hshift, Nat.shiftLeft_eq, one_mul]
        have hpow : 2 ^ j ≤ (stop - start) % 2 ^ 32 := Nat.log2_self_le hlow
        have hsmall : (stop - start) % 2 ^ 32 < 2 ^ 31 := (Nat.log2_lt hlow).mp hshift
        have hword : start + 2 ^ j - 1 < word := by
          simp only [maxPfn, word] at *
          omega
        obtain ⟨-, hhi, -, -⟩ := alignUp_spec hword (by omega)
        rw [cutPages_rest_eq_none (by omega)]
        apply Option.bind_eq_none_iff.mpr
        intro bs _
        rfl
      · exact if_neg hshift

/-- **A range is released in blocks as they should be exactly when it has fewer than 2^31 pages.** The
ranges lie inside the physical address space, and every page has its `page` structure.
Source: `sys/page_allocator.cpp` `PageAllocator::Init`, `sys/early_page_allocator.hpp` `release_free_pages`
Kind: C
Hyps: `hstop`: physical addresses; `hpresent`: `mem_map_init` has been there -/
theorem addRange_exactlyWhen (start stop nid : ℕ) (s : PageState) (hlt : start < stop)
    (hstop : stop ≤ 2 ^ (maxPhysmemBits - pageShift))
    (hpresent : ∀ p, start ≤ p → p < stop → s.present (pfnToSectionNum p) = true) :
    ReleasesBlocks start stop nid s ↔ stop - start < 2 ^ 31 := by
  have hmax : stop ≤ maxPfn := hstop.trans (by decide)
  constructor
  · rintro ⟨bs, s', hcut, -⟩
    by_contra hsize
    rw [cutRange_eq_none hmax (Nat.le_of_not_lt hsize)] at hcut
    exact Option.some_ne_none _ hcut.symm
  · intro hsize
    obtain ⟨bs, hcut, hblocks⟩ := cutRange_spec hlt hmax hsize
    obtain ⟨s', hs'⟩ := exists_earlyFreePages nid hblocks.small (s := s) (fun b hb => by
      obtain ⟨hge, hend⟩ := hblocks.partition.mem_of_mem_part hb b.start_mem_cells
      exact hpresent b.start hge hend)
    refine ⟨bs, s', hcut, hs', ?_, hblocks⟩
    rw [addRange_eq, hcut]
    exact hs'

/-- The pages from 1 to 4. Source: `sys/page_allocator.cpp` `PageAllocator::Init`. Kind: C -/
theorem addRange_exactlyWhen_one : ReleasesBlocks 1 5 0 (boot fun _ => true) :=
  (addRange_exactlyWhen 1 5 0 (boot fun _ => true) (by decide) (by decide)
    fun _ _ _ => rfl).mpr (by decide)

/-- A range of 2^31 pages. Source: `sys/page_allocator.cpp` `PageAllocator::Init`. Kind: C -/
theorem addRange_not_always :
    ¬ ∀ (start stop nid : ℕ) (s : PageState), start < stop →
      stop ≤ 2 ^ (maxPhysmemBits - pageShift) →
      (∀ p, start ≤ p → p < stop → s.present (pfnToSectionNum p) = true) →
      ReleasesBlocks start stop nid s := by
  intro hall
  obtain ⟨bs, s', hcut, -⟩ := hall 1 (2 ^ 31 + 1) 0 (boot fun _ => true) (by decide) (by decide)
    fun _ _ _ => rfl
  rw [cutRange_eq_none (by decide) (by decide)] at hcut
  exact Option.some_ne_none _ hcut.symm

end PageState

end EbbRT
