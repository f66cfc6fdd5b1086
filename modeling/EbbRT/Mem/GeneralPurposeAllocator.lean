import EbbRT.Mem.SlabLayout

/-!
# Aligned memory from the size classes

`gp_type` has a `SlabAllocatorRoot` for each of its size classes, and an allocation takes the first
class that is not smaller. `ebbrt_newlib_memalign` relies on this: it asks for at least the alignment,
and checks that what it gets is aligned. Objects lie at multiples of their size from the start of the
slab, so a class that the alignment divides is right; 96 and 192 are classes that an alignment below
them does not divide (`memalign_exactlyWhen`).
-/

namespace EbbRT

namespace GeneralPurposeAllocator

open SlabAllocatorRoot

/-! ## The allocator -/

/-- The size classes. Source: `sys/general_purpose_allocator.hpp` `gp_type`. Kind: D -/
def gpType : List ℕ :=
  [8, 16, 32, 64, 96, 128, 192, 256, 512, 1024, 2 * 1024, 4 * 1024, 8 * 1024, 16 * 1024, 32 * 1024,
    64 * 1024, 128 * 1024, 256 * 1024, 512 * 1024, 1024 * 1024, 2 * 1024 * 1024, 4 * 1024 * 1024,
    8 * 1024 * 1024]

/-- The index of the first class from `index` on that is not smaller than the size, or the largest
word where there is none.
Source: `sys/general_purpose_allocator.hpp` `general_purpose_allocator::indexer`
Kind: D -/
def indexer : List ℕ → ℕ → ℕ → ℕ
  | [], _, _ => word - 1
  | head :: tail, index, size => if size ≤ head then index else indexer tail (index + 1) size

/-- How an allocation can fail.
Source: `sys/debug.hpp` `kbugon`
Kind: D -/
inductive Failure
  /-- An assertion of the code, with its text. -/
  | kbugon (message : String)
  /-- An index outside the array of the allocators. -/
  | outside
  deriving DecidableEq, Repr

/-- The roots of the classes; `none` is a class that the constructor refuses.
Source: `sys/general_purpose_allocator.hpp` `general_purpose_allocator::construct`
Kind: D -/
def allocatorRoots : List (Option SlabAllocatorRoot) :=
  gpType.map fun head => SlabAllocatorRoot.construct head 0

/-- What the allocator of each class gives is a parameter; `none` is its `nullptr`.
Source: `sys/general_purpose_allocator.hpp` `general_purpose_allocator::Alloc`
Kind: D -/
def alloc (allocators : SlabAllocatorRoot → Option ℕ) (size : ℕ) : Except Failure ℕ :=
  let index := indexer gpType 0 size
  if index = word - 1 then
    .error (.kbugon s!"Attempt to allocate {size} bytes not supported\n")
  else
    match allocatorRoots[index]?.join with
    | none => .error .outside
    | some root =>
        match allocators root with
        | none => .error (.kbugon "Failed to allocate from this NUMA node, should try others\n")
        | some ret => .ok ret

/-- Source: `sys/newlib.cpp` `ebbrt_newlib_memalign`. Kind: D -/
def memalign (allocators : SlabAllocatorRoot → Option ℕ) (alignment size : ℕ) : Except Failure ℕ :=
  match alloc allocators (max size alignment) with
  | .error failure => .error failure
  | .ok ptr =>
      if alignDown ptr alignment ≠ ptr then
        .error (.kbugon "Memalign failed to allocate aligned region of memory")
      else .ok ptr

/-- The root that an allocation of the size is served from.
Source: `sys/general_purpose_allocator.hpp` `general_purpose_allocator::Alloc`
Kind: D -/
def chosenRoot (size : ℕ) : Option SlabAllocatorRoot := allocatorRoots[indexer gpType 0 size]?.join

/-- The objects of slabs that start at naturally aligned pages.
Source: `sys/slab_allocator.cpp` `SlabCache::AddSlab`
Kind: D -/
def Obtainable (root : SlabAllocatorRoot) (ptr : ℕ) : Prop :=
  ∃ pfn addrs, 2 ^ root.order ∣ pfn ∧ pfn + 2 ^ root.order ≤ maxPfn ∧
    root.addSlabObjects pfn = some addrs ∧ ptr ∈ addrs

/-- Whatever object the allocator of the chosen class gives, it is aligned and large enough, and the
assertion holds.
Source: `sys/newlib.cpp` `ebbrt_newlib_memalign`
Kind: D -/
def ServesAligned (alignment size : ℕ) : Prop :=
  ∃ root, chosenRoot (max size alignment) = some root ∧ size ≤ root.size ∧
    ∀ ptr, Obtainable root ptr → alignment ∣ ptr ∧
      ∀ allocators : SlabAllocatorRoot → Option ℕ, allocators root = some ptr →
        memalign allocators alignment size = .ok ptr

/-! ## The class that is chosen -/

variable {size alignment ptr k : ℕ} {root : SlabAllocatorRoot}

/-- The search finds the first class that is not smaller.
Source: `sys/general_purpose_allocator.hpp` `general_purpose_allocator::indexer`
Kind: L -/
theorem indexer_spec {sizes : List ℕ} (hsorted : sizes.Pairwise (· < ·)) (index : ℕ)
    (hfits : ∃ head ∈ sizes, size ≤ head) :
    ∃ j head, indexer sizes index size = index + j ∧ sizes[j]? = some head ∧ size ≤ head ∧
      ∀ head' ∈ sizes, size ≤ head' → head ≤ head' := by
  induction sizes generalizing index with
  | nil =>
      obtain ⟨head, hmem, -⟩ := hfits
      cases hmem
  | cons head tail ih =>
      obtain ⟨hlt, htail⟩ := List.pairwise_cons.mp hsorted
      rw [indexer]
      by_cases hle : size ≤ head
      · rw [if_pos hle]
        refine ⟨0, head, rfl, rfl, hle, fun head' hmem _ => ?_⟩
        rcases List.mem_cons.mp hmem with rfl | hmem
        · exact le_rfl
        · exact (hlt head' hmem).le
      · rw [if_neg hle]
        have hrest : ∃ head' ∈ tail, size ≤ head' := by
          obtain ⟨head', hmem, hle'⟩ := hfits
          rcases List.mem_cons.mp hmem with rfl | hmem
          · exact absurd hle' hle
          · exact ⟨head', hmem, hle'⟩
        obtain ⟨j, head', hindex, hget, hle', hleast⟩ := ih htail (index + 1) hrest
        refine ⟨j + 1, head', by rw [hindex]; omega, hget, hle', fun head'' hmem hle'' => ?_⟩
        rcases List.mem_cons.mp hmem with rfl | hmem
        · exact absurd hle'' hle
        · exact hleast head'' hmem hle''

/-- The search gives the largest word where no class is large enough.
Source: `sys/general_purpose_allocator.hpp` `general_purpose_allocator::indexer`
Kind: L -/
theorem indexer_eq_last {sizes : List ℕ} (hsmall : ∀ head ∈ sizes, head < size) (index : ℕ) :
    indexer sizes index size = word - 1 := by
  induction sizes generalizing index with
  | nil => rfl
  | cons head tail ih =>
      rw [indexer, if_neg (Nat.not_le.mpr (hsmall head List.mem_cons_self))]
      apply ih
      intro head' hmem
      exact hsmall head' (List.mem_cons_of_mem head hmem)

/-- The constructor takes every class as it is.
Source: `sys/general_purpose_allocator.hpp` `general_purpose_allocator::construct`
Kind: L -/
theorem exists_construct {head : ℕ} (hmem : head ∈ gpType) :
    ∃ root, construct head 0 = some root ∧ root.size = head := by
  have hclass : ∀ head ∈ gpType, head < word ∧ alignedSize head 0 ≤ maxSlabSize ∧
      alignedSize head 0 = head := by decide
  obtain ⟨hword, hmax, hsize⟩ := hclass head hmem
  obtain ⟨root, hroot, hsound⟩ := (construct_sound head 0 hword (Or.inl rfl)).1 hmax
  exact ⟨root, hroot, hsound.size_eq.trans hsize⟩

/-- The chosen class is the least that is not smaller, and its allocator is asked.
Source: `sys/general_purpose_allocator.hpp` `general_purpose_allocator::Alloc`
Kind: L -/
theorem exists_chosenRoot (hsize : size ≤ maxSlabSize) :
    ∃ root, chosenRoot size = some root ∧ root.size ∈ gpType ∧ size ≤ root.size ∧
      (∀ head ∈ gpType, size ≤ head → root.size ≤ head) ∧
      ∀ (allocators : SlabAllocatorRoot → Option ℕ) (ptr : ℕ), allocators root = some ptr →
        alloc allocators size = .ok ptr := by
  have hfits : ∃ head ∈ gpType, size ≤ head := ⟨8 * 1024 * 1024, by decide, hsize⟩
  obtain ⟨j, head, hindex, hget, hle, hleast⟩ := indexer_spec (by decide) 0 hfits
  rw [zero_add] at hindex
  obtain ⟨root, hroot, rfl⟩ := exists_construct (List.mem_of_getElem? hget)
  have hchosen : allocatorRoots[indexer gpType 0 size]?.join = some root := by
    rw [hindex, allocatorRoots, List.getElem?_map, hget, Option.map_some, hroot]
    rfl
  refine ⟨root, hchosen, List.mem_of_getElem? hget, hle, hleast, fun allocators ptr hptr => ?_⟩
  have hlen : j < gpType.length := (List.getElem?_eq_some_iff.mp hget).1
  have hin : indexer gpType 0 size ≠ word - 1 := by
    have : gpType.length < word - 1 := by decide
    omega
  unfold alloc
  dsimp only
  rw [if_neg hin, hchosen]
  dsimp only
  rw [hptr]

/-! ## Where the objects are aligned -/

/-- A power of two that divides the class divides every object.
Source: `sys/slab_allocator.cpp` `SlabCache::AddSlab`
Kind: L -/
theorem Obtainable.dvd (hdvd : 2 ^ k ∣ root.size) (h : Obtainable root ptr) : 2 ^ k ∣ ptr := by
  obtain ⟨pfn, addrs, halign, hpfn, heq, hmem⟩ := h
  rcases root.addSlabObjects_eq hpfn with hall | ⟨hnone, -⟩
  · obtain rfl := Option.some.inj (heq.symm.trans hall)
    exact root.two_pow_dvd_of_mem_objects hdvd halign hpfn hmem
  · obtain rfl := Option.some.inj (heq.symm.trans hnone)
    cases hmem

/-- Objects are addresses. Source: `sys/slab_allocator.cpp` `SlabCache::AddSlab`. Kind: L -/
theorem Obtainable.lt_word (h : Obtainable root ptr) : ptr < word := by
  obtain ⟨pfn, addrs, -, hpfn, heq, hmem⟩ := h
  rcases root.addSlabObjects_eq hpfn with hall | ⟨hnone, -⟩
  · obtain rfl := Option.some.inj (heq.symm.trans hall)
    have hend := (root.inside_of_mem_objects hpfn hmem).2
    have hspace : (pfn + 2 ^ root.order) * pageSize ≤ maxPfn * pageSize :=
      Nat.mul_le_mul_right _ hpfn
    have hword : maxPfn * pageSize = word := by decide
    have := root.size_pos
    omega
  · obtain rfl := Option.some.inj (heq.symm.trans hnone)
    cases hmem

/-- Where two objects fit into a page, there is a second object right behind the first.
Source: `sys/slab_allocator.cpp` `SlabCache::AddSlab`
Kind: L -/
theorem obtainable_second (hsize : 2 * root.size ≤ pageSize) :
    Obtainable root (2 ^ root.order * pageSize + root.size) := by
  have hpow : 2 ^ root.order + 2 ^ root.order < maxPfn := by
    have := Nat.pow_le_pow_right (show 0 < 2 by decide) root.order_bounds.2
    have : 2 ^ maxOrder + 2 ^ maxOrder < maxPfn := by decide
    omega
  have htwo : 2 ≤ root.numObjectsPerSlab := by
    refine (Nat.le_div_iff_mul_le root.size_pos).mpr (hsize.trans ?_)
    rw [Nat.shiftLeft_eq]
    exact Nat.le_mul_of_pos_right _ (Nat.two_pow_pos _)
  refine ⟨2 ^ root.order, root.objects (2 ^ root.order), dvd_rfl, hpow.le, ?_, ?_⟩
  · exact (root.addSlabObjects_eq hpow.le).resolve_right fun h => h.2 hpow
  · refine List.mem_map.mpr ⟨1, List.mem_range.mpr htwo, ?_⟩
    rw [pfnToAddr_of_lt (by omega), one_mul]

/-- An aligned pointer passes the assertion. Source: `sys/newlib.cpp` `ebbrt_newlib_memalign`. Kind: L -/
theorem alignDown_eq_self (hk : k ≤ 64) (hptr : ptr < word) (hdvd : 2 ^ k ∣ ptr) :
    alignDown ptr (2 ^ k) = ptr := by
  rw [alignDown_two_pow hptr hk, Nat.div_mul_cancel hdvd]

/-- **A class serves an alignment** when the alignment divides it.
Source: `sys/newlib.cpp` `ebbrt_newlib_memalign`
Kind: L -/
theorem servesAligned_of_dvd (hmax : max size (2 ^ k) ≤ maxSlabSize)
    (hdvd : ∀ root, chosenRoot (max size (2 ^ k)) = some root → 2 ^ k ∣ root.size) :
    ServesAligned (2 ^ k) size := by
  obtain ⟨root, hroot, -, hle, -, halloc⟩ := exists_chosenRoot hmax
  have hk : k ≤ 64 := by
    have hpow : 2 ^ k ≤ 2 ^ (pageShift + maxOrder) := ((le_max_right _ _).trans hmax).trans_eq rfl
    exact ((Nat.pow_le_pow_iff_right (by decide)).mp hpow).trans (by decide)
  refine ⟨root, hroot, (le_max_left _ _).trans hle, fun ptr hptr => ?_⟩
  have hptrdvd := hptr.dvd (hdvd root hroot)
  refine ⟨hptrdvd, fun allocators heq => ?_⟩
  unfold memalign
  rw [halloc allocators ptr heq]
  dsimp only
  rw [if_neg (not_not.mpr (alignDown_eq_self hk hptr.lt_word hptrdvd))]

/-- A class of which two objects fit into a page serves only the alignments that divide it.
Source: `sys/newlib.cpp` `ebbrt_newlib_memalign`
Kind: L -/
theorem not_servesAligned {head : ℕ} (hroot : chosenRoot (max size alignment) = some root)
    (hhead : root.size = head) (hfit : 2 * head ≤ pageSize) (hpage : alignment ∣ pageSize)
    (hdvd : ¬ alignment ∣ head) : ¬ ServesAligned alignment size := by
  rintro ⟨root', hroot', -, hall⟩
  obtain rfl := Option.some.inj (hroot.symm.trans hroot')
  subst hhead
  have hsecond := (hall _ (obtainable_second hfit)).1
  exact hdvd ((Nat.dvd_add_right (hpage.mul_left _)).mp hsecond)

/-- **A class between two powers of two** serves every alignment but the power below it.
Source: `sys/newlib.cpp` `ebbrt_newlib_memalign`
Kind: L -/
theorem servesAligned_iff_of_between {e head : ℕ} (hmax : max size (2 ^ k) ≤ maxSlabSize)
    (hroot : chosenRoot (max size (2 ^ k)) = some root) (hsize : root.size = head)
    (hle : max size (2 ^ k) ≤ head) (hhead : head = 3 * 2 ^ e) (hfit : 2 * head ≤ pageSize)
    (hpage : 2 ^ (e + 1) ∣ pageSize) : ServesAligned (2 ^ k) size ↔ 2 ^ k ≠ 2 ^ (e + 1) := by
  have hpos : 0 < 2 ^ e := Nat.two_pow_pos e
  have hsucc : 2 ^ (e + 1) = 2 * 2 ^ e := by rw [Nat.pow_succ, Nat.mul_comm]
  constructor
  · intro hserves heq
    refine not_servesAligned hroot hsize hfit (heq ▸ hpage) ?_ hserves
    rw [heq, hsucc, hhead]
    intro hdvd
    exact absurd (Nat.dvd_of_mul_dvd_mul_right hpos hdvd) (by decide)
  · intro hne
    have hlt : 2 ^ k < 2 ^ (e + 2) := by
      rw [Nat.pow_succ, hsucc]
      have := (le_max_right size (2 ^ k)).trans hle
      omega
    have hk : k < e + 2 := (Nat.pow_lt_pow_iff_right (show 1 < 2 by decide)).mp hlt
    have hke : k ≤ e := by
      by_contra hno
      obtain rfl : k = e + 1 := by omega
      exact hne rfl
    refine servesAligned_of_dvd hmax fun root' hroot' => ?_
    obtain rfl := Option.some.inj (hroot.symm.trans hroot')
    rw [hsize, hhead]
    exact (Nat.pow_dvd_pow 2 hke).mul_left 3

/-- **Aligned allocation is right exactly when** it is not served from the class 96 with the alignment
64, or from the class 192 with the alignment 128.
Source: `sys/newlib.cpp` `ebbrt_newlib_memalign`
Kind: P
Hyps: `hmax`: a class is large enough, so that the call does not throw -/
theorem memalign_exactlyWhen (k size : ℕ) (hmax : max size (2 ^ k) ≤ maxSlabSize) :
    ServesAligned (2 ^ k) size ↔
      ¬ (2 ^ k = 64 ∧ 64 < size ∧ size ≤ 96) ∧ ¬ (2 ^ k = 128 ∧ 128 < size ∧ size ≤ 192) := by
  obtain ⟨root, hroot, hmem, hle, hleast, -⟩ := exists_chosenRoot hmax
  have hclasses : ∀ head ∈ gpType, head = 96 ∨ head = 192 ∨ ∃ j < 24, head = 2 ^ j := by decide
  have halign : 2 ^ k ≤ root.size := (le_max_right _ _).trans hle
  have hserves : 2 ^ k ∣ root.size → ServesAligned (2 ^ k) size := fun hdvd =>
    servesAligned_of_dvd hmax fun root' hroot' =>
      Option.some.inj (hroot.symm.trans hroot') ▸ hdvd
  rcases hclasses root.size hmem with h96 | h192 | ⟨j, -, hj⟩
  · -- the class below is 64
    have hgt : 64 < max size (2 ^ k) := by
      by_contra hno
      have := hleast 64 (by decide) (Nat.le_of_not_lt hno)
      omega
    rw [servesAligned_iff_of_between (e := 5) hmax hroot h96 (by omega) rfl (by decide) (by decide)]
    omega
  · -- the class below is 128
    have hgt : 128 < max size (2 ^ k) := by
      by_contra hno
      have := hleast 128 (by decide) (Nat.le_of_not_lt hno)
      omega
    rw [servesAligned_iff_of_between (e := 6) hmax hroot h192 (by omega) rfl (by decide) (by decide)]
    omega
  · -- the class is a power of two itself
    have hk : k ≤ j := (Nat.pow_le_pow_iff_right (show 1 < 2 by decide)).mp (hj ▸ halign)
    refine iff_of_true (hserves (hj ▸ (Nat.pow_dvd_pow_iff_le_right (by decide)).mpr hk)) ?_
    have h7 : (2 : ℕ) ^ 6 = 64 ∧ (2 : ℕ) ^ 7 = 128 ∧ (2 : ℕ) ^ 8 = 256 := by decide
    constructor
    · rintro ⟨h64, hlo, hhi⟩
      have := hleast 96 (by decide) (by omega)
      have hj7 : j < 7 := (Nat.pow_lt_pow_iff_right (show 1 < 2 by decide)).mp (by omega)
      have := Nat.pow_le_pow_right (show 0 < 2 by decide) (Nat.le_of_lt_succ hj7)
      omega
    · rintro ⟨h128, hlo, hhi⟩
      have := hleast 192 (by decide) (by omega)
      have hj8 : j < 8 := (Nat.pow_lt_pow_iff_right (show 1 < 2 by decide)).mp (by omega)
      have := Nat.pow_le_pow_right (show 0 < 2 by decide) (Nat.le_of_lt_succ hj8)
      omega

/-- Asking for 65 bytes with the alignment 64: the second object of a slab is not aligned.
Source: `sys/newlib.cpp` `ebbrt_newlib_memalign`
Kind: P -/
theorem not_servesAligned_65 :
    ¬ ∀ k size, 2 ^ k ≤ maxSlabSize → max size (2 ^ k) ≤ maxSlabSize → ServesAligned (2 ^ k) size := by
  intro hclaim
  obtain ⟨root, hroot, hmem, hle, hleast, -⟩ := exists_chosenRoot (show 65 ≤ maxSlabSize by decide)
  have h96 : root.size = 96 := by
    have hbelow : ∀ head ∈ gpType, 65 ≤ head → head ≤ 96 → head = 96 := by decide
    exact hbelow root.size hmem hle (hleast 96 (by decide) (by decide))
  refine not_servesAligned ?_ h96 (by decide) ?_ ?_ (hclaim 6 65 (by decide) (by decide))
  · exact hroot
  · decide
  · decide

/-- Asking for 48 bytes with the alignment 16. Source: `sys/newlib.cpp` `ebbrt_newlib_memalign`.
Kind: P -/
theorem memalign_exactlyWhen_16 : ServesAligned (2 ^ 4) 48 :=
  (memalign_exactlyWhen 4 48 (by decide)).mpr ⟨by decide, by decide⟩

end GeneralPurposeAllocator

end EbbRT
