import EbbRT.Mem.SlabGeometry

/-!
# The layout of a slab

From the size and the alignment that are asked for, the constructor of `SlabAllocatorRoot` computes
the alignment, the size and the order of the slabs. `slab_order` starts at the least order that holds
one object (`slabOrderStart_le_iff`), and its loop looks for the first order that wastes little
(`slabOrderLoop_spec`); `calculate_order` tries this for the orders 0 and 1 and takes the start
otherwise. `construct_sound` has the whole geometry, down to the addresses that the loop of `AddSlab`
makes objects of.
-/

namespace EbbRT

namespace SlabAllocatorRoot

/-- Source: `sys/slab_allocator.hpp` `MAX_SLAB_SIZE`
Kind: D -/
def maxSlabSize : ℕ := 1 <<< (pageShift + maxOrder)

/-- The loop that makes the objects, with addresses of 64 bits; `none` where it is still running.
Source: `sys/slab_allocator.cpp` `SlabCache::AddSlab`
Kind: D -/
def addSlabLoop (size last : ℕ) : ℕ → ℕ → Option (List ℕ)
  | 0, _ => none
  | fuel + 1, addr =>
      if addr < last then (addSlabLoop size last fuel ((addr + size) % word)).map (addr :: ·)
      else some []

/-- The addresses of the objects of a new slab, in the order in which they are made.
Source: `sys/slab_allocator.cpp` `SlabCache::AddSlab`
Kind: D -/
def addSlabObjects (root : SlabAllocatorRoot) (pfn : ℕ) : Option (List ℕ) :=
  let start := pfnToAddr pfn
  let last := (pfnToAddr pfn + root.numObjectsPerSlab * root.size) % word
  addSlabLoop root.size last (root.numObjectsPerSlab + 1) start

/-! ## What the geometry should be -/

/-- The size with its alignment, without the wrap of the word: the least multiple of the alignment
that is not less than `size_in`, and at least a pointer.
Source: `sys/slab_allocator.cpp` `SlabAllocatorRoot::SlabAllocatorRoot`
Kind: D -/
def alignedSize (sizeIn alignIn : ℕ) : ℕ :=
  (max sizeIn 8 + max alignIn 8 - 1) / max alignIn 8 * max alignIn 8

/-- A slab of the order holds one object. Source: `sys/slab_allocator.cpp` `slab_order`. Kind: D -/
def HoldsOne (size order : ℕ) : Prop := size ≤ pageSize * 2 ^ order

/-- What is left over of a slab of the order is at most a quarter.
Source: `sys/slab_allocator.cpp` `calculate_order`
Kind: D -/
def WastesLittle (size order : ℕ) : Prop := pageSize * 2 ^ order % size * 4 ≤ pageSize * 2 ^ order

instance (size order : ℕ) : Decidable (HoldsOne size order) := inferInstanceAs (Decidable (_ ≤ _))

instance (size order : ℕ) : Decidable (WastesLittle size order) :=
  inferInstanceAs (Decidable (_ ≤ _))

/-- The orders 0 and 1 where they hold an object and waste little.
Source: `sys/slab_allocator.cpp` `calculate_order`
Kind: D -/
def SmallOrders (size : ℕ) : Set ℕ := {order | order ≤ 1 ∧ HoldsOne size order ∧ WastesLittle size order}

/-- The objects of a slab: inside it, one after another, aligned, and each leads back to the slab.
Source: `sys/slab_allocator.cpp` `SlabCache::AddSlab`
Kind: D -/
structure LaidOut (root : SlabAllocatorRoot) (pfn : ℕ) (addrs : List ℕ) : Prop where
  inside : ∀ o ∈ addrs,
    pfn * pageSize ≤ o ∧ o + root.size ≤ (pfn + 2 ^ root.order) * pageSize
  apart : addrs.Pairwise fun o o' => o + root.size ≤ o'
  aligned : ∀ o ∈ addrs, root.align ∣ o
  home : ∀ o ∈ addrs, addrToSlabPfn o root.order = pfn

/-- The geometry for a size and an alignment. A slab whose end is the end of the address space is the
one where the end wraps; the loop may find nothing to do there.
Source: `sys/slab_allocator.cpp` `SlabAllocatorRoot::SlabAllocatorRoot`
Kind: D -/
structure Sound (sizeIn alignIn : ℕ) (root : SlabAllocatorRoot) : Prop where
  align_eq : root.align = max alignIn 8
  size_eq : root.size = alignedSize sizeIn alignIn
  size_ge : sizeIn ≤ root.size
  order_le : root.order ≤ maxOrder
  one_object : 1 ≤ root.numObjectsPerSlab
  order_small : (SmallOrders root.size).Nonempty → IsLeast (SmallOrders root.size) root.order
  order_large : ¬ (SmallOrders root.size).Nonempty → IsLeast {order | HoldsOne root.size order} root.order
  objects : ∀ pfn, 2 ^ root.order ∣ pfn → pfn + 2 ^ root.order ≤ maxPfn →
    ∃ addrs, root.addSlabObjects pfn = some addrs ∧ LaidOut root pfn addrs ∧
      (pfn + 2 ^ root.order < maxPfn → addrs.length = root.numObjectsPerSlab)

/-! ## The order -/

variable {size order : ℕ}

/-- Source: `sys/slab_allocator.cpp` `slab_order`. Kind: L -/
theorem pageSize_shiftLeft (order : ℕ) : pageSize <<< order = 2 ^ (pageShift + order) := by
  rw [Nat.shiftLeft_eq, pageSize, Nat.shiftLeft_eq, one_mul, Nat.pow_add]

/-- The search starts at the least order that holds one object.
Source: `sys/slab_allocator.cpp` `slab_order`
Kind: L -/
theorem slabOrderStart_le_iff (hsize : 2 ≤ size) (hword : size < word) :
    slabOrderStart size ≤ order ↔ HoldsOne size order := by
  have hlog : Nat.log2 (size - 1) < pageShift + order ↔ size - 1 < 2 ^ (pageShift + order) :=
    Nat.log2_lt (by omega)
  have hpow : pageSize * 2 ^ order = 2 ^ (pageShift + order) := by
    rw [← pageSize_shiftLeft, Nat.shiftLeft_eq]
  have hwidth : Nat.log2 (size - 1) < 64 := (Nat.log2_lt (by omega)).mpr ((Nat.sub_le _ _).trans_lt hword)
  have hshift : pageShift = 12 := rfl
  unfold HoldsOne
  rw [hpow]
  unfold slabOrderStart fls builtinClzll
  split <;> omega

/-- The test of the loop. Source: `sys/slab_allocator.cpp` `slab_order`. Kind: L -/
theorem waste_eq (size order : ℕ) :
    pageSize <<< order - pageSize <<< order / size * size = pageSize * 2 ^ order % size := by
  rw [Nat.shiftLeft_eq]
  have := Nat.div_add_mod (pageSize * 2 ^ order) size
  rw [Nat.mul_comm size] at this
  omega

/-- **The loop** stops at the first order from its start on that passes the test, or behind the last.
Source: `sys/slab_allocator.cpp` `slab_order`
Kind: L -/
theorem slabOrderLoop_spec (size frac : ℕ) {maxOrder fuel : ℕ} (hfuel : maxOrder < fuel + order) :
    (∀ o, order ≤ o → o < slabOrderLoop size maxOrder frac fuel order → o ≤ maxOrder →
      ¬ pageSize * 2 ^ o % size * frac ≤ pageSize * 2 ^ o) ∧
    (slabOrderLoop size maxOrder frac fuel order ≤ maxOrder →
      pageSize * 2 ^ slabOrderLoop size maxOrder frac fuel order % size * frac
        ≤ pageSize * 2 ^ slabOrderLoop size maxOrder frac fuel order) := by
  induction fuel generalizing order with
  | zero =>
      rw [slabOrderLoop]
      exact ⟨fun o h1 h2 => absurd h1 (by omega), fun h => absurd h (by omega)⟩
  | succ fuel ih =>
      rw [slabOrderLoop]
      dsimp only
      rw [waste_eq, Nat.shiftLeft_eq]
      split
      · split
        · rename_i htest
          exact ⟨fun o h1 h2 => absurd h1 (by omega), fun _ => htest⟩
        · rename_i htest
          have hnext : maxOrder < fuel + (order + 1) := by omega
          obtain ⟨hskip, hstop⟩ := ih hnext
          refine ⟨fun o h1 h2 h3 => ?_, hstop⟩
          rcases h1.eq_or_lt with rfl | hlt
          · exact htest
          · exact hskip o hlt h2 h3
      · rename_i hmax
        exact ⟨fun o h1 h2 => absurd h1 (by omega), fun h => absurd h hmax⟩

/-- With `frac` zero, every order passes.
Source: `sys/slab_allocator.cpp` `calculate_order`
Kind: L -/
theorem slabOrder_zero (size maxOrder : ℕ) : slabOrder size maxOrder 0 = slabOrderStart size := by
  rw [slabOrder, slabOrderLoop]
  simp only [mul_zero, Nat.zero_le, if_true, ite_self]

/-- The first search succeeds exactly when an order up to 1 will do, and then it finds the least.
Source: `sys/slab_allocator.cpp` `calculate_order`
Kind: L -/
theorem slabOrder_small (hsize : 2 ≤ size) (hword : size < word) :
    (slabOrder size 1 4 ≤ 1 → IsLeast (SmallOrders size) (slabOrder size 1 4)) ∧
    ((SmallOrders size).Nonempty → slabOrder size 1 4 ≤ 1) := by
  have hfuel : 1 < 1 + 1 + slabOrderStart size := by omega
  have hstart : slabOrderStart size ≤ slabOrder size 1 4 := le_slabOrderLoop _ _ _ _ _
  obtain ⟨hskip, hstop⟩ := slabOrderLoop_spec size 4 hfuel
  change ∀ o, slabOrderStart size ≤ o → o < slabOrder size 1 4 → o ≤ 1 → ¬ WastesLittle size o at hskip
  change slabOrder size 1 4 ≤ 1 → WastesLittle size (slabOrder size 1 4) at hstop
  have hleast : ∀ order ∈ SmallOrders size, slabOrder size 1 4 ≤ order := by
    rintro order ⟨hle, hholds, hwaste⟩
    by_contra hlt
    exact hskip order ((slabOrderStart_le_iff hsize hword).mpr hholds) (Nat.lt_of_not_le hlt) hle
      hwaste
  constructor
  · intro hle
    exact ⟨⟨hle, (slabOrderStart_le_iff hsize hword).mp hstart, hstop hle⟩, hleast⟩
  · rintro ⟨order, horder⟩
    exact (hleast order horder).trans horder.1

/-- **The order that is chosen**: the least small one that wastes little, or else the least one that
holds an object; and there is none exactly when no order that the page allocator serves holds one.
Source: `sys/slab_allocator.cpp` `calculate_order`
Kind: P -/
theorem calculateOrder_spec (hsize : 2 ≤ size) (hword : size < word) :
    (∀ order, calculateOrder size = some order →
      ((SmallOrders size).Nonempty → IsLeast (SmallOrders size) order) ∧
      (¬ (SmallOrders size).Nonempty → IsLeast {order | HoldsOne size order} order)) ∧
    (calculateOrder size = none ↔ ¬ HoldsOne size maxOrder) := by
  obtain ⟨hfound, hsearch⟩ := slabOrder_small hsize hword
  unfold calculateOrder
  rw [slabOrder_zero]
  by_cases hsmall : slabOrder size 1 4 ≤ 1
  · have hleast := hfound hsmall
    rw [if_pos hsmall]
    refine ⟨fun order heq => ?_, iff_of_false (by simp) (not_not.mpr ?_)⟩
    · obtain rfl := Option.some.inj heq
      exact ⟨fun _ => hleast, fun hno => absurd ⟨_, hleast.1⟩ hno⟩
    · have hle : slabOrder size 1 4 ≤ maxOrder := hsmall.trans (by decide)
      exact le_trans hleast.1.2.1
        (Nat.mul_le_mul_left _ (Nat.pow_le_pow_right (by decide) hle))
  · have hno : ¬ (SmallOrders size).Nonempty := fun hne => hsmall (hsearch hne)
    rw [if_neg hsmall]
    by_cases hlarge : slabOrderStart size > maxOrder
    · rw [if_pos hlarge]
      refine ⟨fun order heq => absurd heq (by simp), iff_of_true rfl fun hholds => ?_⟩
      exact absurd ((slabOrderStart_le_iff hsize hword).mpr hholds) (Nat.not_le.mpr hlarge)
    · rw [if_neg hlarge]
      refine ⟨fun order heq => ⟨fun hne => absurd hne hno, fun _ => ?_⟩, iff_of_false (by simp) ?_⟩
      · obtain rfl := Option.some.inj heq
        exact ⟨(slabOrderStart_le_iff hsize hword).mp le_rfl,
          fun order horder => (slabOrderStart_le_iff hsize hword).mpr horder⟩
      · exact not_not.mpr ((slabOrderStart_le_iff hsize hword).mp (Nat.le_of_not_lt hlarge))

/-! ## The objects -/

variable {pfn : ℕ}

/-- The loop makes its `n` objects and stops. Source: `sys/slab_allocator.cpp` `SlabCache::AddSlab`.
Kind: L -/
theorem addSlabLoop_eq {n start fuel : ℕ} (hsize : 0 < size) (hfit : start + n * size < word)
    (hfuel : n < fuel) : addSlabLoop size (start + n * size) fuel start
      = some ((List.range n).map fun i => start + i * size) := by
  induction n generalizing start fuel with
  | zero =>
      obtain ⟨fuel, rfl⟩ : ∃ m, fuel = m + 1 := ⟨fuel - 1, by omega⟩
      rw [addSlabLoop, if_neg (by omega)]
      rfl
  | succ n ih =>
      obtain ⟨fuel, rfl⟩ : ∃ m, fuel = m + 1 := ⟨fuel - 1, by omega⟩
      have hlast : start + (n + 1) * size = start + size + n * size := by
        rw [Nat.add_mul, one_mul]
        omega
      rw [hlast] at hfit ⊢
      rw [addSlabLoop, if_pos (by omega), Nat.mod_eq_of_lt (by omega), ih hfit (by omega),
        Option.map_some, List.range_succ_eq_map, List.map_cons, List.map_map, zero_mul, add_zero]
      refine congrArg (fun l => some (start :: l)) (List.map_congr_left fun i _ => ?_)
      rw [Function.comp_apply, Nat.succ_mul]
      omega

variable (root : SlabAllocatorRoot)

/-- The objects of a slab are the ones of the model's list, or none at all where the end wraps.
Source: `sys/slab_allocator.cpp` `SlabCache::AddSlab`
Kind: L -/
theorem addSlabObjects_eq (hpfn : pfn + 2 ^ root.order ≤ maxPfn) :
    root.addSlabObjects pfn = some (root.objects pfn) ∨
      (root.addSlabObjects pfn = some [] ∧ ¬ pfn + 2 ^ root.order < maxPfn) := by
  have haddr : pfnToAddr pfn = pfn * pageSize :=
    pfnToAddr_of_lt ((Nat.lt_add_of_pos_right (Nat.two_pow_pos _)).trans_le hpfn)
  have hslab : root.numObjectsPerSlab * root.size ≤ 2 ^ root.order * pageSize := by
    rw [Nat.mul_comm (2 ^ root.order), ← Nat.shiftLeft_eq]
    exact Nat.div_mul_le_self _ _
  have hspace : (pfn + 2 ^ root.order) * pageSize ≤ maxPfn * pageSize :=
    Nat.mul_le_mul_right _ hpfn
  have hend : maxPfn * pageSize = word := by decide
  rw [Nat.add_mul, hend] at hspace
  unfold addSlabObjects
  dsimp only
  by_cases hwrap : pfnToAddr pfn + root.numObjectsPerSlab * root.size < word
  · left
    rw [Nat.mod_eq_of_lt hwrap]
    exact addSlabLoop_eq root.size_pos hwrap (Nat.lt_succ_self _)
  · right
    have heq : pfnToAddr pfn + root.numObjectsPerSlab * root.size = word := by omega
    rw [heq, Nat.mod_self]
    refine ⟨by rw [addSlabLoop, if_neg (Nat.not_lt_zero _)], fun hlt => hwrap ?_⟩
    have hstrict := Nat.mul_lt_mul_of_pos_right hlt (show 0 < pageSize by decide)
    rw [Nat.add_mul, hend] at hstrict
    omega

/-- A power of two that divides the size divides the addresses of the objects.
Source: `sys/slab_allocator.cpp` `SlabCache::AddSlab`
Kind: L -/
theorem two_pow_dvd_of_mem_objects {k o : ℕ} (hk : 2 ^ k ∣ root.size) (halign : 2 ^ root.order ∣ pfn)
    (hpfn : pfn + 2 ^ root.order ≤ maxPfn) (ho : o ∈ root.objects pfn) : 2 ^ k ∣ o := by
  obtain ⟨i, -, rfl⟩ := List.mem_map.mp ho
  have haddr : pfnToAddr pfn = pfn * pageSize :=
    pfnToAddr_of_lt ((Nat.lt_add_of_pos_right (Nat.two_pow_pos _)).trans_le hpfn)
  have hle : 2 ^ k ≤ 2 ^ (pageShift + root.order) := by
    rw [← pageSize_shiftLeft]
    exact (Nat.le_of_dvd root.size_pos hk).trans root.size_le
  have hslab : 2 ^ (pageShift + root.order) ∣ pfn * pageSize := by
    rw [Nat.pow_add, Nat.mul_comm]
    exact Nat.mul_dvd_mul halign (dvd_of_eq rfl)
  rw [haddr]
  exact Nat.dvd_add (((Nat.pow_dvd_pow_iff_le_right (by decide)).mpr
    ((Nat.pow_le_pow_iff_right (by decide)).mp hle)).trans hslab) (hk.mul_left i)

/-- The objects of the model's list are laid out as they should be.
Source: `sys/slab_allocator.cpp` `SlabCache::AddSlab`
Kind: L -/
theorem laidOut_objects {j : ℕ} (hj : root.align = 2 ^ j) (hdvd : 2 ^ j ∣ root.size)
    (halign : 2 ^ root.order ∣ pfn) (hpfn : pfn + 2 ^ root.order ≤ maxPfn) :
    LaidOut root pfn (root.objects pfn) where
  inside _ ho := root.inside_of_mem_objects hpfn ho
  apart := by
    refine List.pairwise_map.mpr (List.pairwise_lt_range.imp fun {a b} hab => ?_)
    have := Nat.mul_le_mul_right root.size (Nat.succ_le_of_lt hab)
    rw [Nat.succ_mul] at this
    omega
  aligned o ho := by
    rw [hj]
    exact root.two_pow_dvd_of_mem_objects hdvd halign hpfn ho
  home _ ho := root.addrToSlabPfn_of_mem_aligned halign hpfn ho

/-- The objects that the loop makes are laid out as they should be.
Source: `sys/slab_allocator.cpp` `SlabCache::AddSlab`
Kind: L -/
theorem exists_laidOut {j : ℕ} (hj : root.align = 2 ^ j) (hdvd : 2 ^ j ∣ root.size)
    (halign : 2 ^ root.order ∣ pfn) (hpfn : pfn + 2 ^ root.order ≤ maxPfn) :
    ∃ addrs, root.addSlabObjects pfn = some addrs ∧ LaidOut root pfn addrs ∧
      (pfn + 2 ^ root.order < maxPfn → addrs.length = root.numObjectsPerSlab) := by
  rcases root.addSlabObjects_eq hpfn with heq | ⟨heq, hend⟩
  · exact ⟨_, heq, root.laidOut_objects hj hdvd halign hpfn, fun _ => root.length_objects pfn⟩
  · refine ⟨_, heq, ⟨?_, List.Pairwise.nil, ?_, ?_⟩, fun hlt => absurd hlt hend⟩ <;>
      exact fun _ ho => absurd ho List.not_mem_nil

/-! ## The constructor -/

variable {sizeIn alignIn : ℕ}

/-- The constructor succeeds where an order is found.
Source: `sys/slab_allocator.cpp` `SlabAllocatorRoot::SlabAllocatorRoot`
Kind: L -/
theorem construct_of_calculateOrder {align : ℕ} (halign : alignUp (max alignIn 8) 8 = align)
    (hsize : alignUp (max sizeIn 8) align = size) (hpos : 0 < size)
    (horder : calculateOrder size = some order) :
    ∃ root, construct sizeIn alignIn = some root ∧ root.align = align ∧ root.size = size := by
  subst halign hsize
  unfold construct
  dsimp only
  rw [dif_pos hpos]
  split
  · rename_i hnone
    rw [hnone] at horder
    cases horder
  · exact ⟨_, rfl, rfl, rfl⟩

/-- The constructor fails where no order is found, or there is no size.
Source: `sys/slab_allocator.cpp` `SlabAllocatorRoot::SlabAllocatorRoot`
Kind: L -/
theorem construct_eq_none {align : ℕ} (halign : alignUp (max alignIn 8) 8 = align)
    (hsize : alignUp (max sizeIn 8) align = size) (h : size = 0 ∨ calculateOrder size = none) :
    construct sizeIn alignIn = none := by
  subst halign hsize
  unfold construct
  dsimp only
  split
  · rename_i hpos
    split
    · rfl
    · rename_i order horder
      rw [h.resolve_left hpos.ne'] at horder
      cases horder
  · rfl

/-- The alignment is a power of two, at least that of a pointer.
Source: `sys/slab_allocator.cpp` `SlabAllocatorRoot::SlabAllocatorRoot`
Kind: L -/
theorem exists_align (halign : alignIn = 0 ∨ ∃ k < 64, alignIn = 2 ^ k) :
    ∃ j, 3 ≤ j ∧ j < 64 ∧ max alignIn 8 = 2 ^ j ∧ alignUp (max alignIn 8) 8 = 2 ^ j := by
  obtain ⟨j, h3, h64, hmax⟩ : ∃ j, 3 ≤ j ∧ j < 64 ∧ max alignIn 8 = 2 ^ j := by
    rcases halign with rfl | ⟨k, hk, rfl⟩
    · exact ⟨3, le_rfl, by decide, rfl⟩
    · by_cases h3 : 3 ≤ k
      · exact ⟨k, h3, hk, max_eq_left (Nat.pow_le_pow_right (show 0 < 2 by decide) h3)⟩
      · refine ⟨3, le_rfl, by decide, max_eq_right ?_⟩
        exact Nat.pow_le_pow_right (show 0 < 2 by decide) (Nat.le_of_not_le h3)
  have hlt : (2 : ℕ) ^ j ≤ 2 ^ 63 := Nat.pow_le_pow_right (by decide) (by omega)
  have h8 : (2 : ℕ) ^ 3 * 2 ^ (j - 3) = 2 ^ j := by rw [← Nat.pow_add, Nat.add_sub_cancel' h3]
  refine ⟨j, h3, h64, hmax, ?_⟩
  rw [hmax, show 8 = 2 ^ 3 from rfl, alignUp_two_pow (by unfold word; omega) (by decide)]
  omega

/-- The size is the aligned one, or zero where that is no 64-bit word.
Source: `sys/slab_allocator.cpp` `SlabAllocatorRoot::SlabAllocatorRoot`
Kind: L -/
theorem alignUp_size {j : ℕ} (hsize : sizeIn < word) (hj : j < 64) (hmax : max alignIn 8 = 2 ^ j) :
    alignUp (max sizeIn 8) (2 ^ j)
      = if alignedSize sizeIn alignIn < word then alignedSize sizeIn alignIn else 0 := by
  unfold alignedSize
  rw [hmax]
  have hx : max sizeIn 8 < word := max_lt hsize (by decide)
  have hpos := Nat.two_pow_pos j
  have hle : 2 ^ j ≤ word := Nat.pow_le_pow_right (by decide) hj.le
  have hdvd : 2 ^ j ∣ word := (Nat.pow_dvd_pow_iff_le_right (by decide)).mpr hj.le
  by_cases hwrap : max sizeIn 8 + 2 ^ j - 1 < word
  · have hlt := (Nat.div_mul_le_self (max sizeIn 8 + 2 ^ j - 1) (2 ^ j)).trans_lt hwrap
    rw [if_pos hlt, alignUp_two_pow hwrap hj.le]
  · have hge : word ≤ (max sizeIn 8 + 2 ^ j - 1) / 2 ^ j * 2 ^ j := by
      obtain ⟨m, hm⟩ := hdvd
      rw [hm, Nat.mul_comm]
      refine Nat.mul_le_mul_right _ ((Nat.le_div_iff_mul_le hpos).mpr ?_)
      rw [Nat.mul_comm, ← hm]
      exact Nat.le_of_not_lt hwrap
    have hmod : (max sizeIn 8 + 2 ^ j - 1) % word = max sizeIn 8 + 2 ^ j - 1 - word := by
      rw [Nat.mod_eq_sub_mod (Nat.le_of_not_lt hwrap), Nat.mod_eq_of_lt (by omega)]
    rw [if_neg (Nat.not_lt.mpr hge), alignUp, hmod, alignDown_two_pow (by omega) hj.le,
      Nat.div_eq_of_lt (by omega), zero_mul]

/-- **The geometry is sound**: for every size and alignment, the constructor succeeds exactly when the
aligned size is at most `MAX_SLAB_SIZE`, and then all that it computes fits together.
Source: `sys/slab_allocator.cpp` `SlabAllocatorRoot::SlabAllocatorRoot`
Kind: P
Hyps: `hsize`: the size has 64 bits; `halign`: an alignment is a power of two, or 0 for none -/
theorem construct_sound (sizeIn alignIn : ℕ) (hsize : sizeIn < word)
    (halign : alignIn = 0 ∨ ∃ k < 64, alignIn = 2 ^ k) :
    (alignedSize sizeIn alignIn ≤ maxSlabSize →
      ∃ root, construct sizeIn alignIn = some root ∧ Sound sizeIn alignIn root) ∧
    (maxSlabSize < alignedSize sizeIn alignIn → construct sizeIn alignIn = none) := by
  obtain ⟨j, h3, hj, hmax, hcode⟩ := exists_align halign
  have hsz := alignUp_size hsize hj hmax
  have hpos := Nat.two_pow_pos j
  have hmaxSize : maxSlabSize = pageSize * 2 ^ maxOrder := rfl
  have hge : max sizeIn 8 ≤ alignedSize sizeIn alignIn := by
    unfold alignedSize
    rw [hmax]
    have := Nat.div_add_mod (max sizeIn 8 + 2 ^ j - 1) (2 ^ j)
    have := Nat.mod_lt (max sizeIn 8 + 2 ^ j - 1) hpos
    rw [Nat.mul_comm (2 ^ j)] at *
    omega
  have hdvd : 2 ^ j ∣ alignedSize sizeIn alignIn := by
    unfold alignedSize
    rw [hmax]
    exact Nat.dvd_mul_left _ _
  constructor
  · intro hle
    have hlt : alignedSize sizeIn alignIn < word := hle.trans_lt (by decide)
    rw [if_pos hlt] at hsz
    have hspec := calculateOrder_spec (show 2 ≤ alignedSize sizeIn alignIn by omega) hlt
    obtain ⟨order, horder⟩ : ∃ order, calculateOrder (alignedSize sizeIn alignIn) = some order :=
      Option.ne_none_iff_exists'.mp fun hnone => hspec.2.mp hnone (hle.trans_eq hmaxSize)
    obtain ⟨root, hroot, halignr, hsizer⟩ :=
      construct_of_calculateOrder hcode hsz (by omega) horder
    refine ⟨root, hroot, ?_⟩
    have horder_spec := hspec.1 root.order (hsizer ▸ root.order_eq)
    rw [← hsizer] at horder_spec
    exact
      { align_eq := halignr.trans hmax.symm
        size_eq := hsizer
        size_ge := hsizer ▸ (le_max_left _ _).trans hge
        order_le := root.order_bounds.2
        one_object := root.numObjectsPerSlab_pos
        order_small := horder_spec.1
        order_large := horder_spec.2
        objects := fun pfn hpfn hspace =>
          root.exists_laidOut halignr (hsizer ▸ hdvd) hpfn hspace }
  · intro hgt
    refine construct_eq_none hcode hsz ?_
    split
    · rename_i hlt
      exact Or.inr ((calculateOrder_spec (by omega) hlt).2.mpr (Nat.not_le.mpr hgt))
    · exact Or.inl rfl

/-- Objects of 96 bytes that are aligned to 64.
Source: `sys/slab_allocator.cpp` `SlabAllocatorRoot::SlabAllocatorRoot`
Kind: P -/
theorem construct_sound_96 : ∃ root, construct 96 64 = some root ∧ Sound 96 64 root :=
  (construct_sound 96 64 (by decide) (Or.inr ⟨6, by decide, rfl⟩)).1 (by decide)

end SlabAllocatorRoot

end EbbRT
