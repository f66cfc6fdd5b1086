import EbbRT.Mem.EarlyPageAllocator
import EbbRT.Mem.PageAllocatorInv

/-!
# Building the free lists at boot

`PageAllocator::Init` cuts every range that the early allocator still holds into naturally aligned
blocks: from the start of the range up to the divide the orders are those of the block numbers'
trailing zeros, from the divide on they follow the pages that remain. `init_inv` says what the
cutting is for: whatever the ranges, the free lists of a node then partition the pages that `Init`
gave to it.
-/

namespace EbbRT

open EbbRT.Lib

namespace PageState

/-! ## The code -/

/-- The number of trailing zeros, up to `fuel`.
Source: none: infrastructure
Kind: D -/
def trailingZeros : ℕ → ℕ → ℕ
  | 0, _ => 0
  | fuel + 1, x => if x % 2 = 1 then 0 else trailingZeros fuel (x / 2) + 1

/-- `__builtin_ctz` of the value cast to `unsigned int`; undefined on zero.
Source: `sys/page_allocator.cpp` `PageAllocator::Init`
Kind: D -/
def builtinCtz (x : ℕ) : Option ℕ :=
  if x % 2 ^ 32 = 0 then none else some (trailingZeros 32 (x % 2 ^ 32))

/-- `__builtin_clz` of the value cast to `unsigned int`; undefined on zero.
Source: `sys/page_allocator.cpp` `PageAllocator::Init`
Kind: D -/
def builtinClz (x : ℕ) : Option ℕ :=
  if x % 2 ^ 32 = 0 then none else some (31 - Nat.log2 (x % 2 ^ 32))

/-- `while (pfn != stop) { kassert(pfn < stop); ... pfn += 1 << order; }`, where `orderOf` is how
the turn computes the order before it is cut down to `MAX_ORDER`. A turn takes at least one page,
so with `fuel = stop - pfn` running out of fuel is the failed `kassert`.
Source: `sys/page_allocator.cpp` `PageAllocator::Init`
Kind: D -/
def addPages (orderOf : ℕ → Option ℕ) (stop nid : ℕ) : ℕ → ℕ → PageState → Option PageState
  | 0, pfn, s => if pfn = stop then some s else none
  | fuel + 1, pfn, s =>
      if pfn = stop then some s
      else if pfn < stop then
        (orderOf pfn).bind fun order =>
          let order := min order maxOrder
          (earlyFreePage pfn order nid s).bind
            (addPages orderOf stop nid fuel (pfn + (1 <<< order)))
      else none

/-- The callback of `Init` for one range. The shift `1 << 31` overflows an `int`: undefined.
Source: `sys/page_allocator.cpp` `PageAllocator::Init`
Kind: D -/
def addRange (start stop nid : ℕ) (s : PageState) : Option PageState :=
  if wsub stop start = 0 then none
  else
    (builtinClz (wsub stop start)).bind fun clz =>
      let largestShift := 32 - clz - 1
      if largestShift < 31 then
        let divide := alignUp start (1 <<< largestShift)
        (addPages builtinCtz divide nid (divide - start) start s).bind
          (addPages (fun pfn => (builtinClz (stop - pfn)).map fun clz => 32 - clz - 1) stop nid
            (stop - divide) divide)
      else none

/-- `Init` over the ranges that the early allocator hands over.
Source: `sys/page_allocator.cpp` `PageAllocator::Init`, `sys/early_page_allocator.hpp` `release_free_pages`
Kind: D -/
def init (ranges : EarlyPageAllocator.FreePages) (s : PageState) : Option PageState :=
  ranges.foldlM (fun s r => addRange r.start r.pfnEnd r.nid s) s

/-- After `mem_map_init` and before `Init`: every frame is reserved and every list empty.
Source: `sys/mem_map.cpp` `mem_map_init`, `sys/page_allocator.hpp` `PageAllocator`
Kind: D -/
def boot (present : ℕ → Bool) : PageState := ⟨present, fun _ => ⟨.reserved, 0⟩, fun _ _ => []⟩

/-! ## What a block placed on a list adds -/

variable {s s' : PageState} {n : ℕ} {held : ℕ → List Block} {S : ℕ → Set ℕ}

/-- Every page of a small aligned block is in the section of its head.
Source: `sys/mem_map.hpp` `pfn_to_section_num`
Kind: L -/
theorem pfnToSectionNum_eq_of_mem {b : Block} {p : ℕ} (hb : b.Aligned) (ho : b.order ≤ maxOrder)
    (hp : p ∈ b.cells) : pfnToSectionNum p = pfnToSectionNum b.start := by
  have := Block.div_eq_of_mem hb hp (k := 15) (by simp only [maxOrder] at ho; omega)
  simpa [pfnToSectionNum, pfnSectionShift, pageShift, Nat.shiftRight_eq_div_pow] using this

/-- Before `Init` nothing is owned. Source: `sys/mem_map.cpp` `mem_map_init`. Kind: L -/
theorem inv_boot (present : ℕ → Bool) : Inv (boot present) (fun _ => []) fun _ => ∅ := by
  have hfree : ∀ n, (boot present).freeBlocks n = [] := fun n => by simp [freeBlocks, binned, boot]
  refine ⟨fun n => ⟨?_, ?_, by simp, ?_, by simp, by simp⟩, by simp, fun p hp => ?_⟩
  · rw [hfree]
    exact partitions_nil
  · rw [hfree]
    simp
  · rw [hfree]
    simp
  · cases hp

/-- **A block placed on a list.** A naturally aligned block of pages that no node owns becomes a
free block of its node.
Source: `sys/page_allocator.cpp` `PageAllocator::early_free_page`
Kind: P -/
theorem Inv.earlyFreePage {b : Block} (h : Inv s held S) (hal : b.Aligned)
    (hnew : ∀ m, Disjoint (S m) b.cells)
    (hs' : PageState.earlyFreePage b.start b.order n s = some s') :
    Inv s' held (Function.update S n (S n ∪ b.cells)) := by
  have ho : b.order ≤ maxOrder := by
    by_contra ho
    simp [PageState.earlyFreePage, ho] at hs'
  simp only [PageState.earlyFreePage, ho, if_true] at hs'
  have hpresent : s.present (pfnToSectionNum b.start) = true := by
    by_contra hno
    simp [freePageNoCoalesce, pfnToPage, hno] at hs'
  have hinv : NodeInv s n [b] (held n) (S n ∪ b.cells) := by
    have hn := h.node n
    refine ⟨hn.tiles.cons (hnew n), ?_, ?_, hn.freeHead, hn.heldHead, ?_⟩
    · intro b' hb'
      rcases List.mem_cons.mp hb' with rfl | hb'
      · exact hal
      · exact hn.aligned b' hb'
    · intro b' hb'
      rcases List.mem_cons.mp hb' with rfl | hb'
      · exact ho
      · exact hn.small b' hb'
    · rintro p (hp | hp)
      · exact hn.present p hp
      · rw [pfnToSectionNum_eq_of_mem hal ho hp]
        exact hpresent
  obtain ⟨s'', hs'', hn', hf⟩ := hinv.push
  obtain rfl : s'' = s' := Option.some.inj (hs''.symm.trans hs')
  refine ⟨fun m => ?_, fun m m' hne => ?_, fun p hp => ?_⟩
  · by_cases hm : m = n
    · subst hm
      rw [Function.update_self]
      exact hn'
    · rw [Function.update_of_ne hm]
      refine (h.node m).of_frame hm ?_ hf
      exact Set.disjoint_union_left.mpr ⟨h.disjoint n m (Ne.symm hm), (hnew m).symm⟩
  · by_cases hm : m = n
    · subst hm
      rw [Function.update_self, Function.update_of_ne (Ne.symm hne)]
      exact Set.disjoint_union_left.mpr ⟨h.disjoint m m' hne, (hnew m').symm⟩
    · rw [Function.update_of_ne hm]
      by_cases hm' : m' = n
      · subst hm'
        rw [Function.update_self]
        exact Set.disjoint_union_right.mpr ⟨h.disjoint m m' hne, hnew m⟩
      · rw [Function.update_of_ne hm']
        exact h.disjoint m m' hne
  · by_cases hS : p ∈ S n ∪ b.cells
    · exact ⟨n, by rwa [Function.update_self]⟩
    · obtain ⟨m, hm⟩ := h.outside p (hf.pages p hS ▸ hp)
      refine ⟨m, ?_⟩
      by_cases hmn : m = n
      · subst hmn
        exact absurd (Or.inl hm) hS
      · rwa [Function.update_of_ne hmn]

/-! ## The orders that `Init` uses -/

/-- A number is a multiple of two to its trailing zeros. Source: none: infrastructure. Kind: L -/
theorem two_pow_trailingZeros_dvd (fuel x : ℕ) : 2 ^ trailingZeros fuel x ∣ x := by
  induction fuel generalizing x with
  | zero => simp [trailingZeros]
  | succ fuel ih =>
      by_cases hodd : x % 2 = 1
      · simp [trailingZeros, hodd]
      · obtain ⟨q, hq⟩ := ih (x / 2)
        simp only [trailingZeros, hodd, if_false]
        refine ⟨q, ?_⟩
        rw [Nat.pow_succ, Nat.mul_right_comm, ← hq]
        omega

/-- The order taken from the trailing zeros of a page number fits the page number.
Source: `sys/page_allocator.cpp` `PageAllocator::Init`
Kind: L -/
theorem dvd_of_builtinCtz {pfn k : ℕ} (h : builtinCtz pfn = some k) :
    2 ^ min k maxOrder ∣ pfn := by
  unfold builtinCtz at h
  split at h
  · cases h
  · obtain rfl := Option.some.inj h
    set k := trailingZeros 32 (pfn % 2 ^ 32) with hk
    have h1 : 2 ^ min k maxOrder ∣ pfn % 2 ^ 32 :=
      (Nat.pow_dvd_pow 2 (Nat.min_le_left ..)).trans (two_pow_trailingZeros_dvd 32 _)
    have h2 : 2 ^ min k maxOrder ∣ 2 ^ 32 :=
      Nat.pow_dvd_pow 2 ((Nat.min_le_right ..).trans (by simp [maxOrder]))
    exact (Nat.dvd_mod_iff h2).mp h1

/-- The order taken from the leading zeros is the base-two logarithm of the low word.
Source: `sys/page_allocator.cpp` `PageAllocator::Init`
Kind: L -/
theorem log2_of_builtinClz {x c : ℕ} (h : builtinClz x = some c) :
    x % 2 ^ 32 ≠ 0 ∧ 32 - c - 1 = Nat.log2 (x % 2 ^ 32) := by
  unfold builtinClz at h
  split at h
  · cases h
  · rename_i hne
    obtain rfl := Option.some.inj h
    have : Nat.log2 (x % 2 ^ 32) < 32 :=
      (Nat.log2_lt hne).mpr (Nat.mod_lt _ (Nat.two_pow_pos 32))
    exact ⟨hne, by omega⟩

/-- The base-two logarithm is monotone. Source: none: infrastructure. Kind: L -/
theorem log2_le_log2 {a b : ℕ} (h : a ≤ b) : Nat.log2 a ≤ Nat.log2 b := by
  rw [Nat.log2_eq_log_two, Nat.log2_eq_log_two]
  exact Nat.log_mono_right h

/-- The block that fits the `r` pages that remain is aligned at `pfn`.
Source: `sys/page_allocator.cpp` `PageAllocator::Init`
Kind: D -/
def FitsRest (stop pfn : ℕ) : Prop :=
  2 ^ min (Nat.log2 ((stop - pfn) % 2 ^ 32)) maxOrder ∣ pfn

/-- After such a block the next one is aligned too: the orders do not grow.
Source: `sys/page_allocator.cpp` `PageAllocator::Init`
Kind: L -/
theorem FitsRest.next {stop pfn : ℕ} (h : FitsRest stop pfn) (hr : (stop - pfn) % 2 ^ 32 ≠ 0) :
    FitsRest stop (pfn + 2 ^ min (Nat.log2 ((stop - pfn) % 2 ^ 32)) maxOrder) := by
  unfold FitsRest at h ⊢
  set r := (stop - pfn) % 2 ^ 32 with hrdef
  set m := min (Nat.log2 r) maxOrder with hm
  have hle : 2 ^ m ≤ r :=
    (Nat.pow_le_pow_right (by norm_num) (Nat.min_le_left ..)).trans (Nat.log2_self_le hr)
  have hrest : (stop - (pfn + 2 ^ m)) % 2 ^ 32 = r - 2 ^ m := by omega
  have hlog : Nat.log2 (r - 2 ^ m) ≤ Nat.log2 r := log2_le_log2 (Nat.sub_le ..)
  rw [hrest]
  have hdvd : 2 ^ min (Nat.log2 (r - 2 ^ m)) maxOrder ∣ 2 ^ m :=
    Nat.pow_dvd_pow 2 (by omega)
  exact Nat.dvd_add (hdvd.trans h) hdvd

/-- On a power of two and without wrap, `align_up` gives the first multiple from a number on.
Source: `sys/align.hpp` `align_up`
Kind: L -/
theorem alignUp_spec {val k : ℕ} (hv : val + 2 ^ k - 1 < word) (hk : k ≤ 64) :
    val ≤ alignUp val (2 ^ k) ∧ alignUp val (2 ^ k) < val + 2 ^ k ∧ 2 ^ k ∣ alignUp val (2 ^ k) ∧
      ∀ p, val ≤ p → 2 ^ k ∣ p → alignUp val (2 ^ k) ≤ p := by
  have hpos := Nat.two_pow_pos k
  rw [alignUp_two_pow hv hk]
  have hdiv := Nat.div_add_mod (val + 2 ^ k - 1) (2 ^ k)
  have hmod := Nat.mod_lt (val + 2 ^ k - 1) hpos
  rw [Nat.mul_comm] at hdiv
  refine ⟨by omega, by omega, Nat.dvd_mul_left _ _, ?_⟩
  rintro p hp ⟨q, rfl⟩
  rw [Nat.mul_comm (2 ^ k) q]
  apply Nat.mul_le_mul_right
  apply Nat.le_of_lt_succ
  rw [Nat.div_lt_iff_lt_mul hpos, Nat.succ_mul, Nat.mul_comm q]
  omega

/-- At the divide the first block is aligned: the divide is a multiple of the largest power of
two in the range.
Source: `sys/page_allocator.cpp` `PageAllocator::Init`
Kind: L -/
theorem fitsRest_divide {start stop : ℕ} (hle : start < stop)
    (hstop : stop ≤ maxPfn)
    (hr : (stop - start) % 2 ^ 32 ≠ 0) :
    start ≤ alignUp start (2 ^ Nat.log2 ((stop - start) % 2 ^ 32)) ∧
      FitsRest stop (alignUp start (2 ^ Nat.log2 ((stop - start) % 2 ^ 32))) := by
  set r := (stop - start) % 2 ^ 32 with hrdef
  set j := Nat.log2 r with hj
  have hjle : 2 ^ j ≤ r := Nat.log2_self_le hr
  have hr32 : r < 2 ^ 32 := Nat.mod_lt _ (Nat.two_pow_pos 32)
  have hj32 : j < 32 := (Nat.log2_lt hr).mpr hr32
  have hword : start + 2 ^ j - 1 < word := by
    simp only [word, maxPfn] at *
    omega
  obtain ⟨hlo, hhi, hdvd, -⟩ := alignUp_spec hword (by omega)
  set divide := alignUp start (2 ^ j)
  refine ⟨hlo, ?_⟩
  have hrest : (stop - divide) % 2 ^ 32 = r - (divide - start) := by omega
  have hlog : Nat.log2 (r - (divide - start)) ≤ j := log2_le_log2 (Nat.sub_le ..)
  unfold FitsRest
  rw [hrest]
  exact (Nat.pow_dvd_pow 2 ((Nat.min_le_left ..).trans hlog)).trans hdvd

/-! ## `Init` -/

variable {orderOf : ℕ → Option ℕ} {stop fuel pfn : ℕ}

/-- The loop does not run past its end.
Source: `sys/page_allocator.cpp` `PageAllocator::Init`
Kind: L -/
theorem le_of_addPages (h : addPages orderOf stop n fuel pfn s = some s') : pfn ≤ stop := by
  cases fuel with
  | zero =>
      simp only [addPages] at h
      split at h
      · omega
      · cases h
  | succ fuel =>
      simp only [addPages] at h
      split at h
      · omega
      · split at h
        · omega
        · cases h

/-- Giving a node the pages of two adjacent stretches.
Source: none: infrastructure
Kind: L -/
theorem update_union_Ico {a b c : ℕ} (hab : a ≤ b) (hbc : b ≤ c) :
    Function.update (Function.update S n (S n ∪ Set.Ico a b)) n
        (Function.update S n (S n ∪ Set.Ico a b) n ∪ Set.Ico b c) =
      Function.update S n (S n ∪ Set.Ico a c) := by
  rw [Function.update_self, Function.update_idem, Set.union_assoc, Set.Ico_union_Ico_eq_Ico hab hbc]

/-- Adding the first stretch leaves the second disjoint from every node.
Source: none: infrastructure
Kind: L -/
theorem disjoint_update_Ico {a b c : ℕ} (hab : a ≤ b) (hnew : ∀ m, Disjoint (S m) (Set.Ico a c))
    (m : ℕ) : Disjoint (Function.update S n (S n ∪ Set.Ico a b) m) (Set.Ico b c) := by
  have hsub : Set.Ico b c ⊆ Set.Ico a c := Set.Ico_subset_Ico_left hab
  by_cases hm : m = n
  · subst hm
    rw [Function.update_self]
    refine Set.disjoint_union_left.mpr ⟨(hnew m).mono_right hsub, ?_⟩
    rw [Set.disjoint_left]
    intro p hp hp'
    simp only [Set.mem_Ico] at hp hp'
    omega
  · rw [Function.update_of_ne hm]
    exact (hnew m).mono_right hsub

/-- **One loop of `Init`.** If every block it places is aligned, it gives the node exactly the
pages from where it starts to where it ends. `P` is what carries the alignment from turn to turn.
Source: `sys/page_allocator.cpp` `PageAllocator::Init`
Kind: P -/
theorem Inv.addPages {P : ℕ → Prop}
    (hP : ∀ pfn k, P pfn → orderOf pfn = some k →
      2 ^ min k maxOrder ∣ pfn ∧ P (pfn + 2 ^ min k maxOrder))
    (h : Inv s held S) (hpfn : P pfn) (hnew : ∀ m, Disjoint (S m) (Set.Ico pfn stop))
    (hs' : PageState.addPages orderOf stop n fuel pfn s = some s') :
    Inv s' held (Function.update S n (S n ∪ Set.Ico pfn stop)) := by
  induction fuel generalizing pfn s S with
  | zero =>
      simp only [PageState.addPages] at hs'
      split at hs'
      · rename_i heq
        obtain rfl := Option.some.inj hs'
        rw [heq, Set.Ico_self, Set.union_empty, Function.update_eq_self]
        exact h
      · cases hs'
  | succ fuel ih =>
      simp only [PageState.addPages] at hs'
      split at hs'
      · rename_i heq
        obtain rfl := Option.some.inj hs'
        rw [heq, Set.Ico_self, Set.union_empty, Function.update_eq_self]
        exact h
      · split at hs'
        · obtain ⟨k, hk, hs'⟩ := Option.bind_eq_some_iff.mp hs'
          obtain ⟨s₁, hs₁, hs'⟩ := Option.bind_eq_some_iff.mp hs'
          rw [Nat.shiftLeft_eq, one_mul] at hs'
          obtain ⟨hal, hnext⟩ := hP pfn k hpfn hk
          have hle := le_of_addPages hs'
          have hcells : (⟨pfn, min k maxOrder⟩ : Block).cells = Set.Ico pfn (pfn + 2 ^ min k maxOrder) :=
            rfl
          have hinv := h.earlyFreePage (n := n) (b := ⟨pfn, min k maxOrder⟩) hal
            (fun m => (hnew m).mono_right (Set.Ico_subset_Ico_right hle)) hs₁
          rw [hcells] at hinv
          have := ih hinv hnext (disjoint_update_Ico (by omega) hnew) hs'
          rwa [update_union_Ico (by omega) hle] at this
        · cases hs'

/-- **One range.** `Init`'s callback gives the node exactly the pages of the range.
Source: `sys/page_allocator.cpp` `PageAllocator::Init`
Kind: P -/
theorem Inv.addRange {start : ℕ} (h : Inv s held S) (hle : start ≤ stop) (hstop : stop ≤ maxPfn)
    (hnew : ∀ m, Disjoint (S m) (Set.Ico start stop))
    (hs' : PageState.addRange start stop n s = some s') :
    Inv s' held (Function.update S n (S n ∪ Set.Ico start stop)) := by
  have hlen : wsub stop start = stop - start :=
    wsub_eq hle (by simp only [maxPfn, word] at *; omega)
  simp only [PageState.addRange, hlen] at hs'
  split at hs'
  · cases hs'
  rename_i hne
  obtain ⟨c, hc, hs'⟩ := Option.bind_eq_some_iff.mp hs'
  obtain ⟨hr, hlog⟩ := log2_of_builtinClz hc
  split at hs'
  · obtain ⟨s₁, h1, h2⟩ := Option.bind_eq_some_iff.mp hs'
    rw [Nat.shiftLeft_eq, one_mul, hlog] at h1 h2
    obtain ⟨hlo, hfits⟩ := fitsRest_divide (by omega) hstop hr
    set divide := alignUp start (2 ^ Nat.log2 ((stop - start) % 2 ^ 32))
    have hhi := le_of_addPages h2
    have hinv₁ := h.addPages (P := fun _ => True)
      (fun pfn k _ hk => ⟨dvd_of_builtinCtz hk, trivial⟩) trivial
      (fun m => (hnew m).mono_right (Set.Ico_subset_Ico_right hhi)) h1
    have hinv₂ := hinv₁.addPages (P := FitsRest stop) (fun pfn k hfit hk => by
      obtain ⟨c', hc', rfl⟩ := Option.map_eq_some_iff.mp hk
      obtain ⟨hr', hlog'⟩ := log2_of_builtinClz hc'
      rw [hlog']
      exact ⟨hfit, hfit.next hr'⟩) hfits (disjoint_update_Ico hlo hnew) h2
    rwa [update_union_Ico hlo hhi] at hinv₂
  · cases hs'

/-- The pages of node `n` in a boot layout.
Source: `sys/page_allocator.cpp` `PageAllocator::Init`
Kind: D -/
def nodePages (ranges : EarlyPageAllocator.FreePages) (n : ℕ) : Set ℕ :=
  {p | ∃ r ∈ ranges, r.nid = n ∧ r.start ≤ p ∧ p < r.start + r.npages}

instance (ranges : EarlyPageAllocator.FreePages) (n : ℕ) : DecidablePred (· ∈ nodePages ranges n) :=
  fun p => inferInstanceAs
    (Decidable (∃ r ∈ ranges, r.nid = n ∧ r.start ≤ p ∧ p < r.start + r.npages))

/-- A boot layout: disjoint ranges inside the address space.
Source: `sys/early_page_allocator.hpp` `free_pages`
Kind: D -/
structure Layout (ranges : EarlyPageAllocator.FreePages) : Prop where
  disjoint : ranges.Pairwise fun a b =>
    Disjoint (Set.Ico a.start (a.start + a.npages)) (Set.Ico b.start (b.start + b.npages))
  bounded : ∀ r ∈ ranges, r.start + r.npages ≤ maxPfn

/-- `Init` over the ranges that are left, from any state.
Source: `sys/page_allocator.cpp` `PageAllocator::Init`
Kind: L -/
theorem Inv.init {ranges : EarlyPageAllocator.FreePages} (h : Inv s held S) (hl : Layout ranges)
    (hnew : ∀ r ∈ ranges, ∀ m, Disjoint (S m) (Set.Ico r.start (r.start + r.npages)))
    (hs' : PageState.init ranges s = some s') :
    Inv s' held fun n => S n ∪ nodePages ranges n := by
  induction ranges generalizing s S with
  | nil =>
      obtain rfl := Option.some.inj hs'
      simpa [nodePages] using h
  | cons r rest ih =>
      obtain ⟨hr, hrest⟩ := List.pairwise_cons.mp hl.disjoint
      have hbr := hl.bounded r (by simp)
      have hend : r.pfnEnd = r.start + r.npages :=
        Nat.mod_eq_of_lt (by simp only [maxPfn, word] at *; omega)
      rw [PageState.init, List.foldlM_cons] at hs'
      obtain ⟨s₁, h1, h2⟩ := Option.bind_eq_some_iff.mp hs'
      rw [hend] at h1
      have hinv := h.addRange (Nat.le_add_right ..) hbr (hnew r (by simp)) h1
      have hres := ih hinv ⟨hrest, fun r' hr' => hl.bounded r' (by simp [hr'])⟩ (fun r' hr' m => by
        by_cases hm : m = r.nid
        · subst hm
          rw [Function.update_self]
          exact Set.disjoint_union_left.mpr ⟨hnew r' (by simp [hr']) r.nid, hr r' hr'⟩
        · rw [Function.update_of_ne hm]
          exact hnew r' (by simp [hr']) m) h2
      convert hres using 2 with n
      by_cases hn : n = r.nid
      · subst hn
        rw [Function.update_self, Set.union_assoc]
        congr 1
        ext p
        simp [nodePages, or_and_right, exists_or]
      · rw [Function.update_of_ne hn]
        congr 1
        ext p
        simp [nodePages, or_and_right, exists_or, Ne.symm hn]

/-- **`Init`.** When it returns, the free lists of every node partition exactly the pages that the
layout gives to the node, in aligned blocks.
Source: `sys/page_allocator.cpp` `PageAllocator::Init`
Kind: P -/
theorem inv_init {ranges : EarlyPageAllocator.FreePages} {present : ℕ → Bool} (hl : Layout ranges)
    (hs' : init ranges (boot present) = some s') : Inv s' (fun _ => []) (nodePages ranges) := by
  simpa using (inv_boot present).init hl (by simp) hs'

/-! ## What `Init` leaves alone -/

/-- A fold of partial steps keeps what each step keeps.
Source: none: infrastructure
Kind: L -/
theorem foldlM_invariant {α β : Type*} {P : β → Prop} {f : β → α → Option β}
    (hf : ∀ b a b', P b → f b a = some b' → P b') {l : List α} {b b' : β} (hb : P b)
    (h : l.foldlM f b = some b') : P b' := by
  induction l generalizing b with
  | nil =>
      obtain rfl := Option.some.inj h
      exact hb
  | cons a l ih =>
      rw [List.foldlM_cons] at h
      obtain ⟨b₁, h1, h2⟩ := Option.bind_eq_some_iff.mp h
      exact ih (hf b a b₁ hb h1) h2

/-- Source: `sys/page_allocator.cpp` `PageAllocator::early_free_page`
Kind: L -/
theorem present_earlyFreePage {start order : ℕ}
    (h : PageState.earlyFreePage start order n s = some s') : s'.present = s.present := by
  unfold PageState.earlyFreePage freePageNoCoalesce at h
  split at h
  · dsimp only at h
    split at h
    · cases h
    · obtain rfl := Option.some.inj h
      rfl
  · cases h

/-- Source: `sys/page_allocator.cpp` `PageAllocator::Init`
Kind: L -/
theorem present_addPages (h : PageState.addPages orderOf stop n fuel pfn s = some s') :
    s'.present = s.present := by
  induction fuel generalizing pfn s with
  | zero =>
      unfold PageState.addPages at h
      split at h
      · obtain rfl := Option.some.inj h
        rfl
      · cases h
  | succ fuel ih =>
      unfold PageState.addPages at h
      split_ifs at h
      · obtain rfl := Option.some.inj h
        rfl
      · obtain ⟨k, -, h⟩ := Option.bind_eq_some_iff.mp h
        obtain ⟨s₁, h1, h2⟩ := Option.bind_eq_some_iff.mp h
        exact (ih h2).trans (present_earlyFreePage h1)

/-- Source: `sys/page_allocator.cpp` `PageAllocator::Init`
Kind: L -/
theorem present_addRange {start : ℕ} (h : PageState.addRange start stop n s = some s') :
    s'.present = s.present := by
  unfold PageState.addRange at h
  split at h
  · cases h
  · obtain ⟨clz, -, h⟩ := Option.bind_eq_some_iff.mp h
    dsimp only at h
    split at h
    · obtain ⟨s₁, h1, h2⟩ := Option.bind_eq_some_iff.mp h
      exact (present_addPages h2).trans (present_addPages h1)
    · cases h

/-- `Init` makes no `page` structures. Source: `sys/page_allocator.cpp` `PageAllocator::Init`.
Kind: L -/
theorem present_init {ranges : EarlyPageAllocator.FreePages} (h : init ranges s = some s') :
    s'.present = s.present :=
  foldlM_invariant (P := fun t => t.present = s.present)
    (fun _ _ _ ht hstep => (present_addRange hstep).trans ht) rfl h

end PageState

end EbbRT
