import EbbRT.Mem.PageAllocatorInit
import EbbRT.Mem.SlabLayout
import EbbRT.Virtio.Vring

/-!
# Where the parts of a virtqueue lie

The constructor of `vring` allocates a block for the descriptor table and the two rings. How large it is
comes from one formula; where the parts are, from the sizes of the structures and one `align_up` of an
address. `vringLayout_fits`: for every queue size the two agree.
-/

namespace EbbRT

/-! ## The code -/

/-- Source: `sys/virtio.hpp` `vring::desc`
Kind: D -/
def sizeofDesc : ℕ := 16

/-- `flags` and `idx`, before `ring`.
Source: `sys/virtio.hpp` `vring::avail`, `vring::used`
Kind: D -/
def sizeofRingHeader : ℕ := 4

/-- Source: `sys/virtio.hpp` `vring::used_elem`
Kind: D -/
def sizeofUsedElem : ℕ := 8

/-- Source: `sys/virtio.hpp` `vring::vring`
Kind: D -/
def vringSize (qsize : ℕ) : ℕ :=
  (alignUp (sizeofDesc * qsize + 2 * (3 + qsize)) 4096 + alignUp (2 * 3 + sizeofUsedElem * qsize) 4096)
    % word

/-- Source: `sys/virtio.hpp` `vring::vring`
Kind: D -/
def vringOrder (qsize : ℕ) : ℕ := fls (vringSize qsize - 1) - pageShift + 1

/-- The pointers of a `vring`.
Source: `sys/virtio.hpp` `vring`
Kind: D -/
structure VringLayout where
  addr : ℕ
  desc : ℕ
  avail : ℕ
  usedEvent : ℕ
  used : ℕ
  availEvent : ℕ
  deriving DecidableEq, Repr

/-- The pointers for the block at `page`.
Source: `sys/virtio.hpp` `vring::vring`
Kind: D -/
def vringLayout (qsize page : ℕ) : VringLayout :=
  let addr := pfnToAddr page
  let avail := (addr + qsize * sizeofDesc) % word
  let availRingEnd := (avail + sizeofRingHeader + qsize * 2) % word
  let availEnd := (availRingEnd + 2) % word
  let used := alignUp availEnd 4096
  let usedRingEnd := (used + sizeofRingHeader + qsize * sizeofUsedElem) % word
  { addr := addr
    desc := addr
    avail := avail
    usedEvent := availRingEnd
    used := used
    availEvent := usedRingEnd }

/-! ## What a layout should be -/

namespace VringLayout

/-- Source: `sys/virtio.hpp` `vring::desc`
Kind: D -/
def descTable (qsize : ℕ) (l : VringLayout) : Set ℕ := Set.Ico l.desc (l.desc + sizeofDesc * qsize)

/-- The available ring with `used_event`. Source: `sys/virtio.hpp` `vring::avail`
Kind: D -/
def availPart (l : VringLayout) : Set ℕ := Set.Ico l.avail (l.usedEvent + 2)

/-- The used ring with `avail_event`. Source: `sys/virtio.hpp` `vring::used`
Kind: D -/
def usedPart (l : VringLayout) : Set ℕ := Set.Ico l.used (l.availEvent + 2)

/-- The three parts.
Source: `sys/virtio.hpp` `vring::vring`
Kind: D -/
def parts (qsize : ℕ) (l : VringLayout) : List (Set ℕ) := [l.descTable qsize, l.availPart, l.usedPart]

/-- The parts are where they should be: the events behind the rings, all of them aligned and apart, and
inside the bytes that are cleared, which are bytes of the block.
Source: `sys/virtio.hpp` `vring::vring`
Kind: D -/
structure Fits (qsize : ℕ) (l : VringLayout) : Prop where
  usedEvent_eq : l.usedEvent = l.avail + sizeofRingHeader + 2 * qsize
  availEvent_eq : l.availEvent = l.used + sizeofRingHeader + sizeofUsedElem * qsize
  desc_aligned : 16 ∣ l.desc
  avail_aligned : 2 ∣ l.avail ∧ 2 ∣ l.usedEvent
  used_aligned : 4096 ∣ l.used ∧ 4 ∣ l.used ∧ 2 ∣ l.availEvent
  disjoint : (l.parts qsize).Pairwise Disjoint
  inside : ∀ part ∈ l.parts qsize, part ⊆ Set.Ico l.addr (l.addr + vringSize qsize)
  block : vringSize qsize ≤ 2 ^ vringOrder qsize * pageSize

end VringLayout

/-! ## The sizes -/

section Layout

variable {qsize page addr n : ℕ}

/-- Behind a page-aligned address `align_up` works as at 0.
Source: `sys/align.hpp` `align_up`
Kind: L -/
theorem alignUp_add (haddr : 2 ^ 12 ∣ addr) (h : addr + n + 4095 < word) :
    alignUp (addr + n) 4096 = addr + alignUp n 4096 := by
  obtain ⟨q, rfl⟩ := haddr
  have hleft : alignUp (2 ^ 12 * q + n) 4096 = (2 ^ 12 * q + n + 2 ^ 12 - 1) / 2 ^ 12 * 2 ^ 12 :=
    alignUp_two_pow (k := 12) (by omega) (by decide)
  have hright : alignUp n 4096 = (n + 2 ^ 12 - 1) / 2 ^ 12 * 2 ^ 12 :=
    alignUp_two_pow (k := 12) (by omega) (by decide)
  rw [hleft, hright]
  omega

/-- A page boundary, not below and less than a page above. Source: `sys/align.hpp` `align_up`.
Kind: L -/
theorem alignUp_page (h : n + 4095 < word) :
    n ≤ alignUp n 4096 ∧ alignUp n 4096 ≤ n + 4095 ∧ 2 ^ 12 ∣ alignUp n 4096 := by
  have hup : alignUp n 4096 = (n + 2 ^ 12 - 1) / 2 ^ 12 * 2 ^ 12 :=
    alignUp_two_pow (k := 12) (by omega) (by decide)
  rw [hup]
  omega

/-- The size, in plain numbers. Source: `sys/virtio.hpp` `vring::vring`. Kind: L -/
theorem vringSize_eq (hq : qsize < half) :
    vringSize qsize = alignUp (18 * qsize + 6) 4096 + alignUp (8 * qsize + 6) 4096 := by
  have hhalf : half = 2 ^ 16 := rfl
  have hword : word = 2 ^ 64 := rfl
  obtain ⟨-, h1, -⟩ := alignUp_page (n := 18 * qsize + 6) (by omega)
  obtain ⟨-, h2, -⟩ := alignUp_page (n := 8 * qsize + 6) (by omega)
  unfold vringSize sizeofDesc sizeofUsedElem
  rw [show 16 * qsize + 2 * (3 + qsize) = 18 * qsize + 6 by omega,
    show 2 * 3 + 8 * qsize = 8 * qsize + 6 by omega]
  exact Nat.mod_eq_of_lt (by omega)

/-- Source: `sys/virtio.hpp` `vring::vring`. Kind: L -/
theorem vringSize_bounds (hq : qsize < half) : 8192 ≤ vringSize qsize ∧ vringSize qsize < 2 ^ 21 := by
  have hhalf : half = 2 ^ 16 := rfl
  have hword : word = 2 ^ 64 := rfl
  obtain ⟨h1, h2, h3⟩ := alignUp_page (n := 18 * qsize + 6) (by omega)
  obtain ⟨h4, h5, h6⟩ := alignUp_page (n := 8 * qsize + 6) (by omega)
  rw [vringSize_eq hq]
  omega

/-- **The block is large enough**: the order is the least one that holds the size.
Source: `sys/virtio.hpp` `vring::vring`
Kind: L -/
theorem vringOrder_le_iff (hq : qsize < half) {order : ℕ} :
    vringOrder qsize ≤ order ↔ vringSize qsize ≤ pageSize * 2 ^ order := by
  obtain ⟨hlo, hhi⟩ := vringSize_bounds hq
  have hlog : 12 ≤ Nat.log2 (vringSize qsize - 1) := (Nat.le_log2 (by omega)).mpr (by omega)
  have hlog' : Nat.log2 (vringSize qsize - 1) < 21 := (Nat.log2_lt (by omega)).mpr (by omega)
  have hstart : vringOrder qsize = slabOrderStart (vringSize qsize) := by
    have hshift : pageShift = 12 := rfl
    unfold vringOrder slabOrderStart fls builtinClzll
    rw [if_neg (by omega)]
  rw [hstart]
  exact SlabAllocatorRoot.slabOrderStart_le_iff (by omega) (hhi.trans (by decide))

/-- Every queue size has an order that the page allocator accepts.
Source: `sys/page_allocator.cpp` `PageAllocator::AllocLocal`
Kind: L -/
theorem vringOrder_le_maxOrder (hq : qsize < half) : vringOrder qsize ≤ maxOrder := by
  refine (vringOrder_le_iff hq).mpr ((vringSize_bounds hq).2.le.trans ?_)
  decide

/-! ## The pointers -/

/-- The pointers do not wrap. Source: `sys/virtio.hpp` `vring::vring`. Kind: L -/
theorem vringLayout_eq (hq : qsize < half) (hblock : page + 2 ^ vringOrder qsize ≤ maxPfn) :
    vringLayout qsize page =
      { addr := page * 4096
        desc := page * 4096
        avail := page * 4096 + 16 * qsize
        usedEvent := page * 4096 + 18 * qsize + 4
        used := page * 4096 + alignUp (18 * qsize + 6) 4096
        availEvent := page * 4096 + alignUp (18 * qsize + 6) 4096 + 8 * qsize + 4 } := by
  have hhalf : half = 2 ^ 16 := rfl
  have hword : word = 2 ^ 64 := rfl
  have hmax : maxPfn = 2 ^ 52 := rfl
  have hsize : vringSize qsize ≤ pageSize * 2 ^ vringOrder qsize := (vringOrder_le_iff hq).mp le_rfl
  rw [pageSize_eq, vringSize_eq hq] at hsize
  have haddr : pfnToAddr page = page * 4096 := by
    rw [pfnToAddr_of_lt (by have := Nat.two_pow_pos (vringOrder qsize); omega), pageSize_eq]
  obtain ⟨h1, h2, -⟩ := alignUp_page (n := 18 * qsize + 6) (by omega)
  obtain ⟨h3, -, h4⟩ := alignUp_page (n := 8 * qsize + 6) (by omega)
  have hpage : 4096 ≤ alignUp (8 * qsize + 6) 4096 := Nat.le_of_dvd (by omega) h4
  have havail : (page * 4096 + qsize * 16) % word = page * 4096 + 16 * qsize := by
    rw [Nat.mod_eq_of_lt (by omega)]
    omega
  have hevent : (page * 4096 + 16 * qsize + 4 + qsize * 2) % word = page * 4096 + 18 * qsize + 4 := by
    rw [Nat.mod_eq_of_lt (by omega)]
    omega
  have hend : (page * 4096 + 18 * qsize + 4 + 2) % word = page * 4096 + (18 * qsize + 6) := by
    rw [Nat.mod_eq_of_lt (by omega)]
    omega
  have hused : alignUp (page * 4096 + (18 * qsize + 6)) 4096
      = page * 4096 + alignUp (18 * qsize + 6) 4096 :=
    alignUp_add (Nat.dvd_mul_left _ _) (by omega)
  have hlast : (page * 4096 + alignUp (18 * qsize + 6) 4096 + 4 + qsize * 8) % word
      = page * 4096 + alignUp (18 * qsize + 6) 4096 + 8 * qsize + 4 := by
    rw [Nat.mod_eq_of_lt (by omega)]
    omega
  unfold vringLayout sizeofDesc sizeofRingHeader sizeofUsedElem
  dsimp only
  rw [haddr, havail, hevent, hend, hused, hlast]

/-- **The layout fits its allocation.** For every queue size and every block of the order that is asked for:
the parts are aligned, apart, and inside the bytes that are cleared, which are bytes of the block.
Source: `sys/virtio.hpp` `vring::vring`
Kind: P
Hyps: `hq`: `qsize` is 16 bits wide; `hblock`: the block is one of physical pages -/
theorem vringLayout_fits (qsize page : ℕ) (hq : qsize < half)
    (hblock : page + 2 ^ vringOrder qsize ≤ maxPfn) :
    (vringLayout qsize page).Fits qsize ∧ vringOrder qsize ≤ maxOrder := by
  have hhalf : half = 2 ^ 16 := rfl
  have hword : word = 2 ^ 64 := rfl
  have hblock' : vringSize qsize ≤ 2 ^ vringOrder qsize * pageSize :=
    ((vringOrder_le_iff hq).mp le_rfl).trans (Nat.mul_comm _ _).le
  obtain ⟨h1, h2, h3⟩ := alignUp_page (n := 18 * qsize + 6) (by omega)
  obtain ⟨h4, h5, h6⟩ := alignUp_page (n := 8 * qsize + 6) (by omega)
  have hsize := vringSize_eq hq
  rw [vringLayout_eq hq hblock]
  generalize alignUp (18 * qsize + 6) 4096 = a at *
  generalize alignUp (8 * qsize + 6) 4096 = b at *
  refine ⟨⟨?_, ?_, ?_, ?_, ?_, ?_, ?_, hblock'⟩, vringOrder_le_maxOrder hq⟩
  · show page * 4096 + 18 * qsize + 4 = page * 4096 + 16 * qsize + 4 + 2 * qsize
    omega
  · show page * 4096 + a + 8 * qsize + 4 = page * 4096 + a + 4 + 8 * qsize
    omega
  · show 16 ∣ page * 4096
    omega
  · show 2 ∣ page * 4096 + 16 * qsize ∧ 2 ∣ page * 4096 + 18 * qsize + 4
    omega
  · show 4096 ∣ page * 4096 + a ∧ 4 ∣ page * 4096 + a ∧ 2 ∣ page * 4096 + a + 8 * qsize + 4
    omega
  · have hdesc : Disjoint (Set.Ico (page * 4096) (page * 4096 + 16 * qsize))
        (Set.Ico (page * 4096 + 16 * qsize) (page * 4096 + 18 * qsize + 4 + 2)) :=
      Set.Ico_disjoint_Ico_same
    have hused : ∀ {lo hi : ℕ}, hi ≤ page * 4096 + a → Disjoint (Set.Ico lo hi)
        (Set.Ico (page * 4096 + a) (page * 4096 + a + 8 * qsize + 4 + 2)) := by
      intro lo hi hle
      exact Set.disjoint_left.mpr fun x hx hx' => by
        have := hx.2
        have := hx'.1
        omega
    refine List.pairwise_cons.mpr ⟨?_, List.pairwise_cons.mpr ⟨?_, List.pairwise_singleton _ _⟩⟩
    · refine List.forall_mem_cons.mpr ⟨hdesc, List.forall_mem_singleton.mpr (hused ?_)⟩
      show page * 4096 + 16 * qsize ≤ page * 4096 + a
      omega
    · refine List.forall_mem_singleton.mpr (hused ?_)
      show page * 4096 + 18 * qsize + 4 + 2 ≤ page * 4096 + a
      omega
  · rw [hsize]
    refine List.forall_mem_cons.mpr ⟨?_, List.forall_mem_cons.mpr ⟨?_, List.forall_mem_singleton.mpr ?_⟩⟩
    · refine Set.Ico_subset_Ico le_rfl ?_
      show page * 4096 + 16 * qsize ≤ page * 4096 + (a + b)
      omega
    · refine Set.Ico_subset_Ico (Nat.le_add_right _ _) ?_
      show page * 4096 + 18 * qsize + 4 + 2 ≤ page * 4096 + (a + b)
      omega
    · refine Set.Ico_subset_Ico (Nat.le_add_right _ _) ?_
      show page * 4096 + a + 8 * qsize + 4 + 2 ≤ page * 4096 + (a + b)
      omega

/-- The queue of 256 descriptors: three pages, in a block of four.
Source: `sys/virtio.hpp` `vring::vring`
Kind: C -/
theorem vringLayout_fits_256 :
    (vringLayout 256 0x1000).Fits 256 ∧ vringOrder 256 ≤ maxOrder :=
  vringLayout_fits 256 0x1000 (by decide) (by decide +kernel)

end Layout

end EbbRT
