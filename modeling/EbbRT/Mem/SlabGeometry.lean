import EbbRT.Mem.PageAllocator

/-!
# The geometry of slabs

A `SlabAllocatorRoot` fixes the object size, the order of the slabs and the watermarks. The
objects of a slab lie one after another from its first byte, so masking an object's frame number
with the slab order gives the slab back (`addrToSlabPfn_of_mem`), and slabs that do not overlap
have no object in common (`eq_of_mem_objects`).
-/

namespace EbbRT

/-- The number of leading zeros of a 64-bit word; undefined on zero.
Source: `sys/fls.hpp` `__builtin_clzll`
Kind: D -/
def builtinClzll (x : ℕ) : ℕ := 63 - Nat.log2 x

/-- Source: `sys/fls.hpp` `fls`
Kind: D -/
def fls (word : ℕ) : ℕ := 63 - builtinClzll word

/-- The `while` loop of `slab_order`; it makes at most `max_order + 1` turns.
Source: `sys/slab_allocator.cpp` `slab_order`
Kind: D -/
def slabOrderLoop (size maxOrder frac : ℕ) : ℕ → ℕ → ℕ
  | 0, order => order
  | fuel + 1, order =>
      if order ≤ maxOrder then
        let slabSize := pageSize <<< order
        let objects := slabSize / size
        let waste := slabSize - objects * size
        if waste * frac ≤ slabSize then order
        else slabOrderLoop size maxOrder frac fuel (order + 1)
      else order

/-- The order that `slab_order` starts from.
Source: `sys/slab_allocator.cpp` `slab_order`
Kind: D -/
def slabOrderStart (size : ℕ) : ℕ :=
  if fls (size - 1) < pageShift then 0 else fls (size - 1) - pageShift + 1

/-- Source: `sys/slab_allocator.cpp` `slab_order`
Kind: D -/
def slabOrder (size maxOrder frac : ℕ) : ℕ :=
  slabOrderLoop size maxOrder frac (maxOrder + 1) (slabOrderStart size)

/-- `none` is the `kbugon`.
Source: `sys/slab_allocator.cpp` `calculate_order`
Kind: D -/
def calculateOrder (size : ℕ) : Option ℕ :=
  if slabOrder size 1 4 ≤ 1 then some (slabOrder size 1 4)
  else if slabOrder size maxOrder 0 > maxOrder then none
  else some (slabOrder size maxOrder 0)

/-- Source: `sys/slab_allocator.cpp` `calculate_freebatch`
Kind: D -/
def calculateFreebatch (size : ℕ) : ℕ :=
  max (4 * pageSize / size) (min 256 (64 * pageSize / size))

/-- Source: `sys/slab_allocator.cpp` `addr_to_slab_pfn`
Kind: D -/
def addrToSlabPfn (addr order : ℕ) : ℕ := alignDown (pfnDown addr) (1 <<< order)

/-- What the constructor computes, with the facts that it establishes.
Source: `sys/slab_allocator.hpp` `SlabAllocatorRoot`
Kind: D -/
structure SlabAllocatorRoot where
  align : ℕ
  size : ℕ
  order : ℕ
  freeBatch : ℕ
  hiwater : ℕ
  size_pos : 0 < size
  order_eq : calculateOrder size = some order
  freeBatch_eq : freeBatch = calculateFreebatch size
  hiwater_eq : hiwater = freeBatch * 4

namespace SlabAllocatorRoot

/-- The constructor; a size that is too large, or wraps to zero, is the `kbugon`.
Source: `sys/slab_allocator.cpp` `SlabAllocatorRoot::SlabAllocatorRoot`
Kind: D -/
def construct (sizeIn alignIn : ℕ) : Option SlabAllocatorRoot :=
  let align := alignUp (max alignIn 8) 8
  let size := alignUp (max sizeIn 8) align
  if size_pos : 0 < size then
    match order_eq : calculateOrder size with
    | none => none
    | some order =>
        some
          { align := align
            size := size
            order := order
            freeBatch := calculateFreebatch size
            hiwater := calculateFreebatch size * 4
            size_pos := size_pos
            order_eq := order_eq
            freeBatch_eq := rfl
            hiwater_eq := rfl }
  else none

/-- Source: `sys/slab_allocator.cpp` `SlabAllocatorRoot::num_objects_per_slab`
Kind: D -/
def numObjectsPerSlab (root : SlabAllocatorRoot) : ℕ := (pageSize <<< root.order) / root.size

/-- The addresses that `AddSlab` makes objects of, `start`, `start + size`, ... below `end`.
Source: `sys/slab_allocator.cpp` `SlabCache::AddSlab`
Kind: D -/
def objects (root : SlabAllocatorRoot) (pfn : ℕ) : List ℕ :=
  (List.range root.numObjectsPerSlab).map fun i => pfnToAddr pfn + i * root.size

end SlabAllocatorRoot

/-- Frames beyond this one have no `page` structure.
Source: `sys/mem_map.hpp` `MAX_PHYSMEM_BITS`
Kind: D -/
def maxPhysPfn : ℕ := 2 ^ (46 - pageShift)

/-- A block as the page allocator hands it out: naturally aligned, and inside the memory map.
Source: `sys/page_allocator.hpp` `PageAllocator::Alloc`
Kind: D -/
def IsBlock (order pfn : ℕ) : Prop := 2 ^ order ∣ pfn ∧ pfn + 2 ^ order ≤ maxPhysPfn

instance (order pfn : ℕ) : Decidable (IsBlock order pfn) :=
  inferInstanceAs (Decidable (_ ∧ _))

/-! ## One object fits -/

/-- The loop never goes below its start. Source: `sys/slab_allocator.cpp` `slab_order`. Kind: L -/
theorem le_slabOrderLoop (size maxOrder frac fuel order : ℕ) :
    order ≤ slabOrderLoop size maxOrder frac fuel order := by
  induction fuel generalizing order with
  | zero => exact le_refl order
  | succ fuel ih =>
      rw [slabOrderLoop]
      split
      · simp only
        split
        · exact le_refl order
        · exact (Nat.le_succ order).trans (ih (order + 1))
      · exact le_refl order

/-- From the starting order on, a slab holds an object.
Source: `sys/slab_allocator.cpp` `slab_order`
Kind: L -/
theorem size_le_of_slabOrderStart_le {size order : ℕ} (horder : order ≤ maxOrder)
    (h : slabOrderStart size ≤ order) : size ≤ pageSize <<< order := by
  have hpow : pageSize <<< order = 2 ^ (pageShift + order) := by
    rw [Nat.shiftLeft_eq, pageSize, Nat.shiftLeft_eq, one_mul, Nat.pow_add]
  have hmax : maxOrder = 11 := rfl
  have hshift : pageShift = 12 := rfl
  have hlt : size - 1 < 2 ^ (Nat.log2 (size - 1) + 1) := Nat.lt_log2_self
  have hexp : Nat.log2 (size - 1) + 1 ≤ pageShift + order := by
    rw [slabOrderStart, fls, builtinClzll] at h
    split at h <;> omega
  have := Nat.pow_le_pow_right (show 0 < 2 by omega) hexp
  rw [hpow]
  omega

namespace SlabAllocatorRoot

variable (root : SlabAllocatorRoot) {pfn pfn' o : ℕ}

/-- The order is one that the page allocator serves, and at least the one that the size asks for.
Source: `sys/slab_allocator.cpp` `calculate_order`
Kind: L -/
theorem order_bounds : slabOrderStart root.size ≤ root.order ∧ root.order ≤ maxOrder := by
  have h := root.order_eq
  rw [calculateOrder] at h
  split at h
  · rename_i h1
    rw [← Option.some.inj h]
    exact ⟨le_slabOrderLoop _ _ _ _ _, h1.trans (by decide)⟩
  · split at h
    · exact absurd h (by simp)
    · rename_i h2
      rw [← Option.some.inj h]
      exact ⟨le_slabOrderLoop _ _ _ _ _, Nat.le_of_not_lt h2⟩

/-- An object fits into a slab. Source: `sys/slab_allocator.cpp` `slab_order`. Kind: L -/
theorem size_le : root.size ≤ pageSize <<< root.order :=
  size_le_of_slabOrderStart_le root.order_bounds.2 root.order_bounds.1

/-- A slab has at least one object.
Source: `sys/slab_allocator.cpp` `SlabAllocatorRoot::num_objects_per_slab`
Kind: L -/
theorem numObjectsPerSlab_pos : 0 < root.numObjectsPerSlab :=
  Nat.div_pos root.size_le root.size_pos

/-- The number of objects is a small word.
Source: `sys/slab_allocator.cpp` `SlabAllocatorRoot::num_objects_per_slab`
Kind: L -/
theorem numObjectsPerSlab_lt : root.numObjectsPerSlab < word := by
  have h1 : root.numObjectsPerSlab ≤ pageSize <<< root.order := Nat.div_le_self _ _
  have h2 : pageSize <<< root.order ≤ pageSize * 2 ^ maxOrder := by
    rw [Nat.shiftLeft_eq]
    exact Nat.mul_le_mul_left _ (Nat.pow_le_pow_right (by omega) root.order_bounds.2)
  exact (h1.trans h2).trans_lt (by decide)

/-! ## Where the objects lie -/

/-- The objects of a slab in the address space lie inside it.
Source: `sys/slab_allocator.cpp` `SlabCache::AddSlab`
Kind: L -/
theorem inside_of_mem_objects (hpfn : pfn + 2 ^ root.order ≤ maxPfn) (ho : o ∈ root.objects pfn) :
    pfn * pageSize ≤ o ∧ o + root.size ≤ (pfn + 2 ^ root.order) * pageSize := by
  obtain ⟨i, hi, rfl⟩ := List.mem_map.mp ho
  have hi : i + 1 ≤ root.numObjectsPerSlab := List.mem_range.mp hi
  have haddr : pfnToAddr pfn = pfn * pageSize :=
    pfnToAddr_of_lt ((Nat.lt_add_of_pos_right (Nat.two_pow_pos _)).trans_le hpfn)
  have hfit : (i + 1) * root.size ≤ 2 ^ root.order * pageSize := by
    have h1 := Nat.mul_le_mul_right root.size hi
    have h2 : root.numObjectsPerSlab * root.size ≤ pageSize <<< root.order :=
      Nat.div_mul_le_self _ _
    rw [Nat.shiftLeft_eq, Nat.mul_comm pageSize] at h2
    exact h1.trans h2
  rw [haddr]
  rw [Nat.add_mul, one_mul] at hfit
  rw [Nat.add_mul]
  omega

/-- The objects lie inside the slab.
Source: `sys/slab_allocator.cpp` `SlabCache::AddSlab`
Kind: L -/
theorem bounds_of_mem_objects (hpfn : IsBlock root.order pfn) (ho : o ∈ root.objects pfn) :
    pfn * pageSize ≤ o ∧ o < (pfn + 2 ^ root.order) * pageSize := by
  have h := root.inside_of_mem_objects (hpfn.2.trans (by decide)) ho
  exact ⟨h.1, (Nat.lt_add_of_pos_right root.size_pos).trans_le h.2⟩

/-- The order is less than the width of a word.
Source: `sys/slab_allocator.cpp` `addr_to_slab_pfn`
Kind: L -/
theorem order_le_width : root.order ≤ 64 :=
  root.order_bounds.2.trans (show maxOrder ≤ 64 by decide)

/-- An object's frame number, rounded down, is the slab's, wherever the slab is in the address space.
Source: `sys/slab_allocator.cpp` `addr_to_slab_pfn`
Kind: L -/
theorem addrToSlabPfn_of_mem_aligned (halign : 2 ^ root.order ∣ pfn)
    (hpfn : pfn + 2 ^ root.order ≤ maxPfn) (ho : o ∈ root.objects pfn) :
    addrToSlabPfn o root.order = pfn := by
  obtain ⟨hlo, hend⟩ := root.inside_of_mem_objects hpfn ho
  have hhi : o < (pfn + 2 ^ root.order) * pageSize :=
    (Nat.lt_add_of_pos_right root.size_pos).trans_le hend
  have hdown : pfnDown o = o / pageSize := Nat.shiftRight_eq_div_pow o pageShift
  have h1 : pfn ≤ pfnDown o := by
    rw [hdown]
    exact (Nat.le_div_iff_mul_le (by decide)).mpr hlo
  have h2 : pfnDown o < pfn + 2 ^ root.order := by
    rw [hdown]
    exact (Nat.div_lt_iff_lt_mul (by decide)).mpr hhi
  have hword : maxPfn < word := by decide
  have hlt : pfnDown o < word := h2.trans_le (hpfn.trans hword.le)
  rw [addrToSlabPfn, Nat.one_shiftLeft, alignDown_two_pow hlt root.order_le_width]
  obtain ⟨m, rfl⟩ := halign
  have hdiv : pfnDown o / 2 ^ root.order = m :=
    Nat.div_eq_of_lt_le (by rw [Nat.mul_comm]; exact h1)
      (by rw [Nat.add_mul, one_mul, Nat.mul_comm m]; exact h2)
  rw [hdiv, Nat.mul_comm]

/-- **Masking finds the slab**: an object's frame number, rounded down, is the slab's.
Source: `sys/slab_allocator.cpp` `addr_to_slab_pfn`
Kind: P -/
theorem addrToSlabPfn_of_mem (hpfn : IsBlock root.order pfn) (ho : o ∈ root.objects pfn) :
    addrToSlabPfn o root.order = pfn :=
  root.addrToSlabPfn_of_mem_aligned hpfn.1 (hpfn.2.trans (by decide)) ho

/-- Among the frames where a slab's objects start, only its own first one heads a block.
Source: `sys/slab_allocator.cpp` `SlabCache::AddSlab`
Kind: L -/
theorem eq_of_mem_frames (hpfn : IsBlock root.order pfn) (hpfn' : IsBlock root.order pfn')
    (h : pfn' ∈ (root.objects pfn).map pfnDown) : pfn' = pfn := by
  obtain ⟨o, ho, rfl⟩ := List.mem_map.mp h
  have hword : maxPhysPfn < word := by decide
  have hlt : pfnDown o < word :=
    (Nat.lt_add_of_pos_right (Nat.two_pow_pos root.order)).trans_le (hpfn'.2.trans hword.le)
  have hfix : addrToSlabPfn o root.order = pfnDown o := by
    rw [addrToSlabPfn, Nat.one_shiftLeft, alignDown_two_pow hlt root.order_le_width]
    exact Nat.div_mul_cancel hpfn'.1
  exact hfix.symm.trans (root.addrToSlabPfn_of_mem hpfn ho)

/-- The first object of a slab starts in its first frame.
Source: `sys/slab_allocator.cpp` `SlabCache::AddSlab`
Kind: L -/
theorem mem_frames (hpfn : IsBlock root.order pfn) : pfn ∈ (root.objects pfn).map pfnDown := by
  refine List.mem_map.mpr ⟨pfnToAddr pfn + 0 * root.size,
    List.mem_map.mpr ⟨0, List.mem_range.mpr root.numObjectsPerSlab_pos, rfl⟩, ?_⟩
  have haddr : pfnToAddr pfn = pfn * pageSize :=
    pfnToAddr_of_lt ((Nat.lt_add_of_pos_right (Nat.two_pow_pos _)).trans_le
      (hpfn.2.trans (by decide)))
  rw [zero_mul, add_zero, haddr, pfnDown, Nat.shiftRight_eq_div_pow]
  exact Nat.mul_div_cancel pfn (show 0 < pageSize by decide)

/-- Slabs with a common object are the same slab.
Source: `sys/slab_allocator.cpp` `addr_to_slab_pfn`
Kind: L -/
theorem eq_of_mem_objects (hpfn : IsBlock root.order pfn) (hpfn' : IsBlock root.order pfn')
    (ho : o ∈ root.objects pfn) (ho' : o ∈ root.objects pfn') : pfn = pfn' :=
  (root.addrToSlabPfn_of_mem hpfn ho).symm.trans (root.addrToSlabPfn_of_mem hpfn' ho')

/-- Source: `sys/slab_allocator.cpp` `SlabCache::AddSlab`
Kind: L -/
theorem length_objects (pfn : ℕ) : (root.objects pfn).length = root.numObjectsPerSlab := by
  rw [objects, List.length_map, List.length_range]

/-- No two objects of a slab have the same address.
Source: `sys/slab_allocator.cpp` `SlabCache::AddSlab`
Kind: L -/
theorem nodup_objects (pfn : ℕ) : (root.objects pfn).Nodup := by
  refine List.nodup_range.map fun i j hij => ?_
  exact Nat.eq_of_mul_eq_mul_right root.size_pos (Nat.add_left_cancel hij)

end SlabAllocatorRoot

end EbbRT
