import EbbRT.Mem.Pfn
import EbbRT.Pci.ConfigAccess

/-!
# Probing the base address registers

How much a base address register decodes is found out by writing ones to it and looking at which of them
it has kept; then the contents are put back. A 64-bit memory register takes two of the six, so the index
of the loop goes on by two. `pciDevice_neverProbes`: what is recorded for the six is right for every
device, but the loop does not stop at six. It reads the register behind them, `CARDBUS_CIS_PTR`, and when
that is not zero it writes to it and constructs an element behind the end of `bars_`.
-/

namespace EbbRT

namespace Pci

/-! ## The code -/

/-- What is done to the configuration space and to `bars_`.
Source: `sys/pci.cpp` `pci_device::pci_device`
Kind: D -/
inductive Access
  | read (offset : ℕ)
  | write (offset val : ℕ)
  | element (idx : ℕ)
  deriving DecidableEq, Repr

/-- Source: `sys/pci.hpp` `pci_bar`
Kind: D -/
structure PciBar where
  addr : ℕ
  size : ℕ
  vaddr : ℕ
  mmio : Bool
  is64 : Bool
  prefetchable : Bool
  deriving DecidableEq, Repr

/-- A device under construction. `bars` at 6 is what lies behind the array.
Source: `sys/pci.hpp` `pci_device`
Kind: D -/
structure Probe where
  space : ConfigSpace
  accesses : List Access
  bars : ℕ → Option PciBar

/-- What a register of the function contains after a write, from its number, what it contained and what is
written. Source: `sys/pci.cpp` `pci_write_32`. Kind: D -/
abbrev Keeps : Type := ℕ → ℕ → ℕ → ℕ

/-- Source: `sys/pci.cpp` `pci_write_32`
Kind: D -/
def pciWrite32 (keeps : Keeps) (space : ConfigSpace) (bus device func offset val : ℕ) : ConfigSpace :=
  outDataPort space (pciSetAddr bus device func offset) fun old => keeps (offset / 4) old (val % 2 ^ 32)

/-- Source: `sys/pci.cpp` `pci_function::write32`
Kind: D -/
def PciFunction.write32 (keeps : Keeps) (space : ConfigSpace) (f : PciFunction) (offset val : ℕ) :
    ConfigSpace :=
  pciWrite32 keeps space f.bus f.device f.func offset val

/-- Source: `sys/pci.hpp` `BAR_ADDR`
Kind: D -/
def barAddr (idx : ℕ) : ℕ := (0x10 + idx * 4) % 2 ^ 8

/-- Source: `sys/pci.hpp` `CARDBUS_CIS_PTR_ADDR`
Kind: D -/
def cardbusCisPtrAddr : ℕ := 0x28

/-- Source: `sys/pci.hpp` `BAR_IO_SPACE_FLAG`
Kind: D -/
def barIoSpaceFlag : ℕ := 0x1

/-- Complemented in 32 bits, like `BAR_MMIO_MASK`.
Source: `sys/pci.hpp` `BAR_IO_SPACE_MASK`
Kind: D -/
def barIoSpaceMask : ℕ := 2 ^ 32 - 1 - 0x3

/-- Source: `sys/pci.hpp` `BAR_MMIO_TYPE_MASK`
Kind: D -/
def barMmioTypeMask : ℕ := 0x6

/-- Source: `sys/pci.hpp` `BAR_MMIO_TYPE_64`
Kind: D -/
def barMmioType64 : ℕ := 0x4

/-- Source: `sys/pci.hpp` `BAR_MMIO_PREFETCHABLE_MASK`
Kind: D -/
def barMmioPrefetchableMask : ℕ := 0x8

/-- Source: `sys/pci.hpp` `BAR_MMIO_MASK`
Kind: D -/
def barMmioMask : ℕ := 2 ^ 32 - 1 - 0xf

variable (keeps : Keeps) (f : PciFunction)

/-- Source: `sys/pci.cpp` `pci_device::get_bar_raw`
Kind: D -/
def getBarRaw (idx : ℕ) (p : Probe) : ℕ × Probe :=
  (f.read32 p.space (barAddr idx), { p with accesses := p.accesses ++ [.read (barAddr idx)] })

/-- Source: `sys/pci.cpp` `pci_device::set_bar_raw`
Kind: D -/
def setBarRaw (idx val : ℕ) (p : Probe) : Probe :=
  { p with
    space := f.write32 keeps p.space (barAddr idx) val
    accesses := p.accesses ++ [.write (barAddr idx) val] }

/-- The size is computed in 64 bits for memory, and in 32 bits for I/O.
Source: `sys/pci.cpp` `pci_bar::pci_bar`
Kind: D -/
def pciBar (barVal idx : ℕ) (p : Probe) : PciBar × Probe :=
  if barVal &&& barIoSpaceFlag = 0 then
    let addr := barVal &&& barMmioMask
    let is64 : Bool := barVal &&& barMmioTypeMask = barMmioType64
    let prefetchable : Bool := barVal &&& barMmioPrefetchableMask ≠ 0
    let low := getBarRaw f idx (setBarRaw keeps f idx 0xffffffff p)
    let lowSz := low.1 &&& barMmioMask
    let p := setBarRaw keeps f idx barVal low.2
    if is64 then
      let barVal2 := getBarRaw f (idx + 1) p
      let high := getBarRaw f (idx + 1) (setBarRaw keeps f (idx + 1) 0xffffffff barVal2.2)
      let p := setBarRaw keeps f (idx + 1) barVal2.1 high.2
      let sz := high.1 <<< 32 ||| lowSz
      (⟨addr ||| barVal2.1 <<< 32, (word - 1 - sz + 1) % word, 0, true, is64, prefetchable⟩, p)
    else
      let sz := (2 ^ 32 - 1) <<< 32 ||| lowSz
      (⟨addr, (word - 1 - sz + 1) % word, 0, true, is64, prefetchable⟩, p)
  else
    let addr := barVal &&& barIoSpaceMask
    let low := getBarRaw f idx (setBarRaw keeps f idx 0xffffffff p)
    let sz := low.1 &&& barIoSpaceMask
    (⟨addr, (2 ^ 32 - 1 - sz + 1) % 2 ^ 32, 0, false, false, false⟩, setBarRaw keeps f idx barVal low.2)

/-- `bars_[idx] = …`. Source: `sys/pci.cpp` `pci_device::pci_device`. Kind: D -/
def Probe.setElement (idx : ℕ) (bar : PciBar) (p : Probe) : Probe :=
  { p with bars := Function.update p.bars idx (some bar), accesses := p.accesses ++ [.element idx] }

/-- Source: `sys/pci.cpp` `pci_device::pci_device`
Kind: D -/
def barLoop (idx : ℕ) (p : Probe) : Probe :=
  if idx ≤ 6 then
    let bar := getBarRaw f idx p
    if bar.1 = 0 then barLoop (idx + 1) bar.2
    else
      let made := pciBar keeps f bar.1 idx bar.2
      barLoop (if made.1.is64 then idx + 2 else idx + 1) (made.2.setElement idx made.1)
  else p
termination_by 7 - idx
decreasing_by
  · omega
  · split <;> omega

/-- Source: `sys/pci.cpp` `pci_device::pci_device`
Kind: D -/
def pciDevice (space : ConfigSpace) : Probe := barLoop keeps f 0 ⟨space, [], fun _ => none⟩

/-! ## The hardware -/

/-- What a base address register is: it decodes `2 ^ k` bytes or ports; the upper half of a 64-bit one is
a register of its own.
Source: `sys/pci.cpp` `pci_bar::pci_bar`
Kind: D -/
inductive BarKind
  | absent
  | io (k : ℕ) (reserved : Bool)
  | mem32 (k type : ℕ) (prefetchable : Bool)
  | mem64 (k : ℕ) (prefetchable : Bool)
  | upper (k : ℕ)

namespace BarKind

/-- Source: `sys/pci.hpp` `BAR_MMIO_TYPE_MASK`
Kind: D -/
def WellFormed : BarKind → Prop
  | absent => True
  | io k _ => 2 ≤ k ∧ k < 32
  | mem32 k type _ => 4 ≤ k ∧ k < 32 ∧ type < 4 ∧ type ≠ 2
  | mem64 k _ => 4 ≤ k ∧ k < 64
  | upper _ => True

/-- The lowest bit that can be written.
Source: `sys/pci.cpp` `pci_bar::pci_bar`
Kind: D -/
def lowest : BarKind → ℕ
  | absent => 32
  | io k _ => k
  | mem32 k _ _ => k
  | mem64 k _ => k
  | upper k => k - 32

/-- The fixed bits.
Source: `sys/pci.hpp` `BAR_IO_SPACE_FLAG`, `BAR_MMIO_TYPE_MASK`, `BAR_MMIO_PREFETCHABLE_MASK`
Kind: D -/
def typeBits : BarKind → ℕ
  | absent => 0
  | io _ reserved => 1 + 2 * reserved.toNat
  | mem32 _ type prefetchable => 2 * type + 8 * prefetchable.toNat
  | mem64 _ prefetchable => 4 + 8 * prefetchable.toNat
  | upper _ => 0

/-- The contents after a write.
Source: `sys/pci.cpp` `pci_bar::pci_bar`
Kind: D -/
def holds (kind : BarKind) (val : ℕ) : ℕ := val / 2 ^ kind.lowest * 2 ^ kind.lowest + kind.typeBits

end BarKind

/-- A function with six base address registers; the other registers contain anything, and do anything when
they are written.
Source: `sys/pci.cpp` `pci_device::pci_device`
Kind: D -/
structure BarDevice where
  f : PciFunction
  space : ConfigSpace
  keeps : Keeps
  kind : ℕ → BarKind
  addressable : f.Addressable
  wellFormed : ∀ i < 6, (kind i).WellFormed
  keeps_eq : ∀ i < 6, ∀ old, ∀ val < 2 ^ 32, keeps (4 + i) old val = (kind i).holds val
  contents : ∀ i < 6, ∃ val < 2 ^ 32, space f.bus f.device f.func (4 + i) = (kind i).holds val
  pair : ∀ i < 6, ∀ k, kind i = .upper k ↔ ∃ j prefetchable, i = j + 1 ∧ kind j = .mem64 k prefetchable
  start : ∀ i < 6, ∀ k prefetchable, kind i = .mem64 k prefetchable → i ≤ 4

namespace BarDevice

variable (d : BarDevice)

/-- Source: `sys/pci.cpp` `pci_function::read32`
Kind: D -/
def register (r : ℕ) : ℕ := d.space d.f.bus d.f.device d.f.func r

/-- What should be in an element of `bars_`: nothing for a register that is zero and for an upper half,
and otherwise the address, the size and the kind.
Source: `sys/pci.cpp` `pci_bar::pci_bar`
Kind: D -/
def recorded (i : ℕ) : Option PciBar :=
  if d.register (4 + i) = 0 then none
  else
    match d.kind i with
    | .absent => none
    | .io k _ => some ⟨d.register (4 + i) / 2 ^ k * 2 ^ k, 2 ^ k, 0, false, false, false⟩
    | .mem32 k _ prefetchable =>
        some ⟨d.register (4 + i) / 2 ^ k * 2 ^ k, 2 ^ k, 0, true, false, prefetchable⟩
    | .mem64 k prefetchable =>
        some ⟨(d.register (4 + i) + 2 ^ 32 * d.register (4 + i + 1)) / 2 ^ k * 2 ^ k, 2 ^ k, 0, true, true,
          prefetchable⟩
    | .upper _ => none

end BarDevice

/-- The access is one to a base address register, or to an element that `bars_` has.
Source: `sys/pci.hpp` `pci_device`
Kind: D -/
def Access.Within : Access → Prop
  | .read offset => ∃ i < 6, offset = 0x10 + 4 * i
  | .write offset _ => ∃ i < 6, offset = 0x10 + 4 * i
  | .element idx => idx < 6

/-- Only the base address registers and the elements of `bars_` are accessed, apart from `extra`; the
elements are right; and all that was written has been put back.
Source: `sys/pci.cpp` `pci_device::pci_device`
Kind: D -/
structure Probes (d : BarDevice) (extra : List Access) (p : Probe) : Prop where
  accesses : ∀ a ∈ p.accesses, a.Within ∨ a ∈ extra
  bars : ∀ i < 6, p.bars i = d.recorded i
  restored : p.space = d.space

/-! ## The arithmetic -/

section Arithmetic

variable {m k s t val : ℕ}

/-- The masks clear the lowest bits. Source: `sys/pci.hpp` `BAR_IO_SPACE_MASK`, `BAR_MMIO_MASK`.
Kind: L -/
theorem and_mask (hval : val < 2 ^ 32) (hs : s ≤ 32) :
    val &&& (2 ^ 32 - 2 ^ s) = val / 2 ^ s * 2 ^ s := by
  have hword : val < word := hval.trans (by decide)
  have hdown := alignDown_two_pow hword (show s ≤ 64 by omega)
  have hle : val / 2 ^ s * 2 ^ s ≤ val := Nat.div_mul_le_self val _
  have hsplit : (word - 2 ^ s) % 2 ^ 32 = 2 ^ 32 - 2 ^ s := by
    have hpow : 2 ^ s ≤ 2 ^ 32 := Nat.pow_le_pow_right (by norm_num) hs
    have hpos : 0 < 2 ^ s := Nat.two_pow_pos s
    have hw : word - 2 ^ s = 2 ^ 32 - 2 ^ s + 2 ^ 32 * (2 ^ 32 - 1) := by
      unfold word
      omega
    rw [hw, Nat.add_mul_mod_self_left, Nat.mod_eq_of_lt (by omega)]
  rw [← hsplit, ← Nat.and_two_pow_sub_one_eq_mod, ← Nat.and_assoc, Nat.and_two_pow_sub_one_eq_mod]
  unfold alignDown at hdown
  rw [hdown, Nat.mod_eq_of_lt (by omega)]

/-- The type bits are below the address. Source: none: infrastructure. Kind: L -/
theorem clear_low (hsk : s ≤ k) (ht : t < 2 ^ s) : (m * 2 ^ k + t) / 2 ^ s * 2 ^ s = m * 2 ^ k := by
  obtain ⟨e, rfl⟩ := Nat.exists_eq_add_of_le hsk
  have hpos : 0 < 2 ^ s := Nat.two_pow_pos s
  rw [Nat.pow_add, show m * (2 ^ s * 2 ^ e) + t = t + 2 ^ s * (m * 2 ^ e) by ring,
    Nat.add_mul_div_left _ _ hpos, Nat.div_eq_of_lt ht]
  ring

/-- All ones, without the bits that are too low. Source: none: infrastructure. Kind: L -/
theorem ones_div_mul (hk : k ≤ 32) : (2 ^ 32 - 1) / 2 ^ k * 2 ^ k = 2 ^ 32 - 2 ^ k := by
  obtain ⟨e, he⟩ := Nat.exists_eq_add_of_le hk
  have hpos : 0 < 2 ^ k := Nat.two_pow_pos k
  have hpow : 2 ^ 32 = 2 ^ k * 2 ^ e := by rw [he, Nat.pow_add]
  have hposE : 0 < 2 ^ e := Nat.two_pow_pos e
  have hdecomp : 2 ^ 32 - 1 = (2 ^ k - 1) + 2 ^ k * (2 ^ e - 1) := by
    rw [hpow, Nat.mul_sub, Nat.mul_one]
    have hle : 2 ^ k ≤ 2 ^ k * 2 ^ e := Nat.le_mul_of_pos_right _ hposE
    omega
  rw [hdecomp, Nat.add_mul_div_left _ _ hpos, Nat.div_eq_of_lt (by omega), Nat.zero_add, Nat.mul_comm,
    Nat.mul_sub, Nat.mul_one, ← hpow]

/-- Bits below the fourth are type bits. Source: none: infrastructure. Kind: L -/
theorem and_low {c : ℕ} (hk : 4 ≤ k) (ht : t < 2 ^ 4) (hc : c < 2 ^ 4) : (m * 2 ^ k + t) &&& c = t &&& c := by
  obtain ⟨e, rfl⟩ := Nat.exists_eq_add_of_le hk
  have hmod : (m * 2 ^ (4 + e) + t) % 2 ^ 4 = t := by
    rw [Nat.pow_add, show m * (2 ^ 4 * 2 ^ e) + t = t + 2 ^ 4 * (m * 2 ^ e) by ring,
      Nat.add_mul_mod_self_left, Nat.mod_eq_of_lt ht]
  have hself : (2 ^ 4 - 1) &&& c = c := by
    rw [Nat.and_comm, Nat.and_two_pow_sub_one_of_lt_two_pow hc]
  rw [← hself, ← Nat.and_assoc, ← Nat.and_assoc, Nat.and_two_pow_sub_one_eq_mod, hmod,
    Nat.and_two_pow_sub_one_of_lt_two_pow ht]

/-- The size is the complement plus 1. Source: `sys/pci.cpp` `pci_bar::pci_bar`. Kind: L -/
theorem size_eq {w : ℕ} (hk : k < w) : (2 ^ w - 1 - (2 ^ w - 2 ^ k) + 1) % 2 ^ w = 2 ^ k := by
  have hlt : 2 ^ k < 2 ^ w := Nat.pow_lt_pow_right (by norm_num) hk
  have hpos : 0 < 2 ^ k := Nat.two_pow_pos k
  rw [show 2 ^ w - 1 - (2 ^ w - 2 ^ k) + 1 = 2 ^ k by omega, Nat.mod_eq_of_lt hlt]

/-- The type bits of memory. Source: `sys/pci.hpp` `BAR_MMIO_TYPE_MASK`, `BAR_MMIO_PREFETCHABLE_MASK`.
Kind: L -/
theorem memory_flags {type : ℕ} (hk : 4 ≤ k) (htype : type < 4) (prefetchable : Bool) :
    (m * 2 ^ k + (2 * type + 8 * prefetchable.toNat)) &&& barIoSpaceFlag = 0 ∧
      ((m * 2 ^ k + (2 * type + 8 * prefetchable.toNat)) &&& barMmioTypeMask = barMmioType64 ↔ type = 2) ∧
      decide ((m * 2 ^ k + (2 * type + 8 * prefetchable.toNat)) &&& barMmioPrefetchableMask ≠ 0)
        = prefetchable := by
  have hbit := prefetchable.toNat_lt
  have ht : 2 * type + 8 * prefetchable.toNat < 2 ^ 4 := by omega
  rw [and_low hk ht (by decide), and_low hk ht (by decide), and_low hk ht (by decide)]
  clear ht hbit
  interval_cases type <;> cases prefetchable <;> decide

/-- The address of a 64-bit register, from its halves. Source: `sys/pci.cpp` `pci_bar::pci_bar`. Kind: L -/
theorem address_halves {n : ℕ} (hlt : m * 2 ^ k < 2 ^ 32) (ht : t < 2 ^ k) :
    m * 2 ^ k ||| (n * 2 ^ (k - 32)) <<< 32 =
      (m * 2 ^ k + t + 2 ^ 32 * (n * 2 ^ (k - 32))) / 2 ^ k * 2 ^ k := by
  have hdvd : 2 ^ k ∣ 2 ^ 32 * (n * 2 ^ (k - 32)) := by
    rcases Nat.le_total k 32 with hle | hge
    · exact (Nat.pow_dvd_pow 2 hle).mul_right _
    · obtain ⟨e, rfl⟩ := Nat.exists_eq_add_of_le hge
      rw [Nat.add_sub_cancel_left, Nat.mul_left_comm, ← Nat.pow_add]
      exact Dvd.intro_left n rfl
  rw [Nat.or_comm, ← Nat.shiftLeft_add_eq_or_of_lt hlt, Nat.shiftLeft_eq, Nat.mul_comm _ (2 ^ 32)]
  obtain ⟨q, hq⟩ := hdvd
  rw [hq, show m * 2 ^ k + t + 2 ^ k * q = (m + q) * 2 ^ k + t by ring, clear_low le_rfl ht]
  ring

/-- The two halves that a 64-bit register keeps of all ones.
Source: `sys/pci.cpp` `pci_bar::pci_bar`
Kind: L -/
theorem ones_halves (hk : k < 64) : ((2 ^ 32 - 1) / 2 ^ (k - 32) * 2 ^ (k - 32)) <<< 32 |||
    (2 ^ 32 - 1) / 2 ^ k * 2 ^ k = 2 ^ 64 - 2 ^ k := by
  rcases Nat.lt_or_ge k 32 with hlt | hge
  · rw [show k - 32 = 0 by omega, ones_div_mul hlt.le, Nat.pow_zero, Nat.div_one, Nat.mul_one]
    have hpow : 2 ^ k ≤ 2 ^ 32 := Nat.pow_le_pow_right (by norm_num) hlt.le
    have hpos : 0 < 2 ^ k := Nat.two_pow_pos k
    rw [← Nat.shiftLeft_add_eq_or_of_lt (by omega), Nat.shiftLeft_eq]
    omega
  · obtain ⟨e, rfl⟩ := Nat.exists_eq_add_of_le hge
    have hzero : (2 ^ 32 - 1) / 2 ^ (32 + e) = 0 := by
      apply Nat.div_eq_of_lt
      exact lt_of_lt_of_le (by norm_num) (Nat.pow_le_pow_right (by norm_num) (Nat.le_add_right 32 e))
    rw [hzero, Nat.add_sub_cancel_left, ones_div_mul (by omega), Nat.zero_mul, Nat.or_zero,
      Nat.shiftLeft_eq, Nat.sub_mul, ← Nat.pow_add, Nat.pow_add 2 32 e, Nat.mul_comm (2 ^ 32)]

end Arithmetic

/-! ## Kinds -/

namespace BarKind

variable {kind : BarKind} {val : ℕ}

/-- Source: none: infrastructure. Kind: L -/
theorem typeBits_lt (h : kind.WellFormed) : kind.typeBits < 2 ^ kind.lowest := by
  cases kind with
  | absent => exact Nat.two_pow_pos 32
  | io k reserved =>
      have hpow : 2 ^ 2 ≤ 2 ^ k := Nat.pow_le_pow_right (by norm_num) h.1
      have hbit := reserved.toNat_lt
      show 1 + 2 * reserved.toNat < 2 ^ k
      omega
  | mem32 k type prefetchable =>
      have hpow : 2 ^ 4 ≤ 2 ^ k := Nat.pow_le_pow_right (by norm_num) h.1
      have hbit := prefetchable.toNat_lt
      have htype := h.2.2.1
      show 2 * type + 8 * prefetchable.toNat < 2 ^ k
      omega
  | mem64 k prefetchable =>
      have hpow : 2 ^ 4 ≤ 2 ^ k := Nat.pow_le_pow_right (by norm_num) h.1
      have hbit := prefetchable.toNat_lt
      show 4 + 8 * prefetchable.toNat < 2 ^ k
      omega
  | upper k => exact Nat.two_pow_pos (k - 32)

/-- Source: none: infrastructure. Kind: L -/
theorem typeBits_le (h : kind.WellFormed) : kind.typeBits < 2 ^ 4 := by
  cases kind with
  | absent => exact Nat.two_pow_pos 4
  | io k reserved =>
      have hbit := reserved.toNat_lt
      show 1 + 2 * reserved.toNat < 2 ^ 4
      omega
  | mem32 k type prefetchable =>
      have hbit := prefetchable.toNat_lt
      have htype := h.2.2.1
      show 2 * type + 8 * prefetchable.toNat < 2 ^ 4
      omega
  | mem64 k prefetchable =>
      have hbit := prefetchable.toNat_lt
      show 4 + 8 * prefetchable.toNat < 2 ^ 4
      omega
  | upper k => exact Nat.two_pow_pos 4

/-- 32 bits are kept in 32 bits. Source: none: infrastructure. Kind: L -/
theorem holds_lt (h : kind.WellFormed) (hval : val < 2 ^ 32) : kind.holds val < 2 ^ 32 := by
  have hlow := typeBits_lt h
  have hle := typeBits_le h
  unfold holds
  rcases Nat.lt_or_ge 32 kind.lowest with hgt | hle32
  · have hzero : val / 2 ^ kind.lowest = 0 :=
      Nat.div_eq_of_lt (hval.trans (Nat.pow_lt_pow_right (by norm_num) hgt))
    rw [hzero]
    omega
  · obtain ⟨e, he⟩ := Nat.exists_eq_add_of_le hle32
    rw [he, Nat.pow_add] at hval
    have hq : val / 2 ^ kind.lowest < 2 ^ e := Nat.div_lt_of_lt_mul hval
    calc val / 2 ^ kind.lowest * 2 ^ kind.lowest + kind.typeBits
        < (val / 2 ^ kind.lowest + 1) * 2 ^ kind.lowest := by
          rw [Nat.add_mul, Nat.one_mul]
          exact Nat.add_lt_add_left hlow _
      _ ≤ 2 ^ e * 2 ^ kind.lowest := Nat.mul_le_mul_right _ hq
      _ = 2 ^ 32 := by rw [he, Nat.pow_add, Nat.mul_comm]

/-- What is read can be written back. Source: `sys/pci.cpp` `pci_bar::pci_bar`. Kind: L -/
theorem holds_holds (h : kind.WellFormed) (val : ℕ) : kind.holds (kind.holds val) = kind.holds val := by
  unfold holds
  rw [clear_low le_rfl (typeBits_lt h)]

/-- The masks leave the address. Source: `sys/pci.hpp` `BAR_IO_SPACE_MASK`, `BAR_MMIO_MASK`. Kind: L -/
theorem holds_and_mask {s : ℕ} (h : kind.WellFormed) (hval : val < 2 ^ 32) (hs : s ≤ 32)
    (hlowest : s ≤ kind.lowest) (ht : kind.typeBits < 2 ^ s) :
    kind.holds val &&& (2 ^ 32 - 2 ^ s) = val / 2 ^ kind.lowest * 2 ^ kind.lowest := by
  rw [and_mask (holds_lt h hval) hs]
  exact clear_low hlowest ht

end BarKind

/-! ## Registers of a device -/

section Registers

variable {d : BarDevice} {p : Probe} {i k val : ℕ}

/-- Source: `sys/pci.hpp` `BAR_ADDR`. Kind: L -/
theorem barAddr_eq (hi : i < 8) : barAddr i = 0x10 + 4 * i := by
  unfold barAddr
  omega

/-- A write changes just the register. Source: `sys/pci.cpp` `pci_device::set_bar_raw`. Kind: L -/
theorem setBarRaw_space (keeps : Keeps) {f : PciFunction} (hf : f.Addressable) (hi : i < 8) (val : ℕ)
    (p : Probe) (f' : PciFunction) (register : ℕ) :
    (setBarRaw keeps f i val p).space f'.bus f'.device f'.func register =
      if f' = f ∧ register = 4 + i then
        keeps (4 + i) (p.space f'.bus f'.device f'.func register) (val % 2 ^ 32)
      else p.space f'.bus f'.device f'.func register := by
  have hregister : (0x10 + 4 * i) / 4 = 4 + i := by omega
  have hoffset : 0x10 + 4 * i < 2 ^ 8 := by omega
  unfold setBarRaw PciFunction.write32 pciWrite32
  rw [barAddr_eq hi, ← hregister]
  exact outDataPort_pciSetAddr hf hoffset fun old => keeps ((0x10 + 4 * i) / 4) old (val % 2 ^ 32)

/-- The registers contain 32 bits. Source: `sys/pci.cpp` `pci_device::get_bar_raw`. Kind: L -/
theorem register_lt (d : BarDevice) (hi : i < 6) : d.register (4 + i) < 2 ^ 32 := by
  obtain ⟨val, hval, heq⟩ := d.contents i hi
  show d.space d.f.bus d.f.device d.f.func (4 + i) < 2 ^ 32
  rw [heq]
  exact BarKind.holds_lt (d.wellFormed i hi) hval

/-- The contents are kept. Source: `sys/pci.cpp` `pci_bar::pci_bar`. Kind: L -/
theorem holds_register (d : BarDevice) (hi : i < 6) :
    (d.kind i).holds (d.register (4 + i)) = d.register (4 + i) := by
  obtain ⟨val, -, heq⟩ := d.contents i hi
  show (d.kind i).holds (d.space d.f.bus d.f.device d.f.func (4 + i)) = _
  rw [heq, BarKind.holds_holds (d.wellFormed i hi), ← heq]
  rfl

/-- The masks leave the address. Source: `sys/pci.hpp` `BAR_IO_SPACE_MASK`, `BAR_MMIO_MASK`. Kind: L -/
theorem register_and_mask {kind : BarKind} {s : ℕ} (hi : i < 6) (hkind : d.kind i = kind) (hs : s ≤ 32)
    (hlowest : s ≤ kind.lowest) (ht : kind.typeBits < 2 ^ s) :
    d.register (4 + i) &&& (2 ^ 32 - 2 ^ s) =
      d.register (4 + i) / 2 ^ kind.lowest * 2 ^ kind.lowest := by
  have hself := holds_register d hi
  have hmask := BarKind.holds_and_mask (d.wellFormed i hi) (register_lt d hi) hs (hkind ▸ hlowest) (hkind ▸ ht)
  rwa [hself, hkind] at hmask

/-- What is read is the contents. Source: `sys/pci.cpp` `pci_device::get_bar_raw`. Kind: L -/
theorem getBarRaw_eq (hspace : p.space = d.space) (hi : i < 6) :
    getBarRaw d.f i p =
      (d.register (4 + i), { p with accesses := p.accesses ++ [.read (barAddr i)] }) := by
  have hregister : (0x10 + 4 * i) / 4 = 4 + i := by omega
  unfold getBarRaw
  rw [barAddr_eq (by omega), read32_eq d.addressable (by omega), hregister, hspace]
  exact congrArg (·, _) (Nat.mod_eq_of_lt (register_lt d hi))

/-- Source: `sys/pci.cpp` `pci_bar::pci_bar`. Kind: D -/
def sizingLog (d : BarDevice) (i : ℕ) : List Access :=
  [.write (barAddr i) (2 ^ 32 - 1), .read (barAddr i), .write (barAddr i) (d.register (4 + i))]

/-- Source: none: infrastructure. Kind: L -/
theorem within_read (hi : i < 6) : (Access.read (barAddr i)).Within :=
  ⟨i, hi, barAddr_eq (by omega)⟩

/-- Source: none: infrastructure. Kind: L -/
theorem within_sizingLog (d : BarDevice) (hi : i < 6) : ∀ a ∈ sizingLog d i, a.Within := by
  have haddr : ∃ j < 6, barAddr i = 0x10 + 4 * j := ⟨i, hi, barAddr_eq (by omega)⟩
  unfold sizingLog
  simp only [List.forall_mem_cons]
  exact ⟨haddr, haddr, haddr, fun a ha => absurd ha List.not_mem_nil⟩

/-- **Sizing** gets what the register keeps of all ones, and puts the contents back.
Source: `sys/pci.cpp` `pci_bar::pci_bar`
Kind: L -/
theorem sizing (hspace : p.space = d.space) (hi : i < 6) :
    (getBarRaw d.f i (setBarRaw d.keeps d.f i (2 ^ 32 - 1) p)).1 = (d.kind i).holds (2 ^ 32 - 1) ∧
      setBarRaw d.keeps d.f i (d.register (4 + i))
        (getBarRaw d.f i (setBarRaw d.keeps d.f i (2 ^ 32 - 1) p)).2 =
        { p with accesses := p.accesses ++ sizingLog d i } := by
  have hones : (2 ^ 32 - 1) % 2 ^ 32 = 2 ^ 32 - 1 := rfl
  have hregister : (0x10 + 4 * i) / 4 = 4 + i := by omega
  have hlt : (d.kind i).holds (2 ^ 32 - 1) < 2 ^ 32 := BarKind.holds_lt (d.wellFormed i hi) (by norm_num)
  constructor
  · unfold getBarRaw
    rw [barAddr_eq (by omega), read32_eq d.addressable (by omega), hregister,
      setBarRaw_space d.keeps d.addressable (by omega) _ _ d.f, if_pos ⟨rfl, rfl⟩, hones,
      d.keeps_eq i hi _ _ (by norm_num), Nat.mod_eq_of_lt hlt]
  · have hrestored : (setBarRaw d.keeps d.f i (d.register (4 + i))
        (getBarRaw d.f i (setBarRaw d.keeps d.f i (2 ^ 32 - 1) p)).2).space = p.space := by
      funext bus device func register
      have houter := setBarRaw_space d.keeps d.addressable (show i < 8 by omega) (d.register (4 + i))
        (getBarRaw d.f i (setBarRaw d.keeps d.f i (2 ^ 32 - 1) p)).2 ⟨bus, device, func⟩ register
      have hinner := setBarRaw_space d.keeps d.addressable (show i < 8 by omega) (2 ^ 32 - 1) p
        ⟨bus, device, func⟩ register
      rw [houter]
      split
      · rename_i hhit
        obtain ⟨hf, rfl⟩ := hhit
        rw [Nat.mod_eq_of_lt (register_lt d hi), d.keeps_eq i hi _ _ (register_lt d hi),
          holds_register d hi, hspace]
        unfold BarDevice.register
        rw [← hf]
      · rename_i hmiss
        rw [if_neg hmiss] at hinner
        exact hinner
    have haccesses : p.accesses ++ [.write (barAddr i) (2 ^ 32 - 1)] ++ [.read (barAddr i)] ++
        [.write (barAddr i) (d.register (4 + i))] = p.accesses ++ sizingLog d i := by
      rw [List.append_assoc, List.append_assoc]
      rfl
    rw [← haccesses, ← hrestored]
    rfl

/-- The ones that the mask leaves of what sizing gets. Source: `sys/pci.cpp` `pci_bar::pci_bar`. Kind: L -/
theorem sizing_and_mask {kind : BarKind} {s : ℕ} (hspace : p.space = d.space) (hi : i < 6)
    (hkind : d.kind i = kind) (hs : s ≤ 32) (hlowest : s ≤ kind.lowest) (ht : kind.typeBits < 2 ^ s) :
    (getBarRaw d.f i (setBarRaw d.keeps d.f i (2 ^ 32 - 1) p)).1 &&& (2 ^ 32 - 2 ^ s) =
      (2 ^ 32 - 1) / 2 ^ kind.lowest * 2 ^ kind.lowest := by
  have hwf := d.wellFormed i hi
  rw [hkind] at hwf
  rw [(sizing hspace hi).1, hkind]
  exact BarKind.holds_and_mask hwf (by norm_num) hs hlowest ht

/-- The type bits that are read of a register for memory.
Source: `sys/pci.hpp` `BAR_MMIO_TYPE_MASK`, `BAR_MMIO_PREFETCHABLE_MASK`
Kind: L -/
theorem register_flags {kind : BarKind} {type : ℕ} {prefetchable : Bool} (hi : i < 6)
    (hkind : d.kind i = kind) (hlowest : 4 ≤ kind.lowest) (htype : type < 4)
    (hbits : kind.typeBits = 2 * type + 8 * prefetchable.toNat) :
    d.register (4 + i) &&& barIoSpaceFlag = 0 ∧
      (d.register (4 + i) &&& barMmioTypeMask = barMmioType64 ↔ type = 2) ∧
      decide (d.register (4 + i) &&& barMmioPrefetchableMask ≠ 0) = prefetchable := by
  have hregister := holds_register d hi
  rw [hkind] at hregister
  unfold BarKind.holds at hregister
  rw [hbits] at hregister
  rw [← hregister]
  exact memory_flags hlowest htype prefetchable

/-- A register for I/O. Source: `sys/pci.cpp` `pci_bar::pci_bar`. Kind: L -/
theorem pciBar_io {reserved : Bool} (hspace : p.space = d.space) (hi : i < 6)
    (hkind : d.kind i = .io k reserved) :
    pciBar d.keeps d.f (d.register (4 + i)) i p =
      (⟨d.register (4 + i) / 2 ^ k * 2 ^ k, 2 ^ k, 0, false, false, false⟩,
        { p with accesses := p.accesses ++ sizingLog d i }) := by
  have hwf := d.wellFormed i hi
  have hregister := holds_register d hi
  rw [hkind] at hwf hregister
  have ht : 1 + 2 * reserved.toNat < 2 ^ 2 := by
    have hbit := reserved.toNat_lt
    omega
  have hflag : d.register (4 + i) &&& barIoSpaceFlag ≠ 0 := by
    obtain ⟨e, rfl⟩ := Nat.exists_eq_add_of_le hwf.1
    have hpow : 2 ^ (2 + e) = 2 * (2 * 2 ^ e) := by
      rw [Nat.pow_add]
      ring
    unfold barIoSpaceFlag
    rw [Nat.and_one_is_mod, ← hregister]
    show (d.register (4 + i) / 2 ^ (2 + e) * 2 ^ (2 + e) + (1 + 2 * reserved.toNat)) % 2 ≠ 0
    rw [hpow, Nat.mul_left_comm]
    omega
  have haddr : d.register (4 + i) &&& barIoSpaceMask = d.register (4 + i) / 2 ^ k * 2 ^ k :=
    register_and_mask hi hkind (by norm_num) hwf.1 ht
  have hsize : (getBarRaw d.f i (setBarRaw d.keeps d.f i (2 ^ 32 - 1) p)).1 &&& barIoSpaceMask =
      2 ^ 32 - 2 ^ k :=
    (sizing_and_mask hspace hi hkind (by norm_num) hwf.1 ht).trans (ones_div_mul hwf.2.le)
  unfold pciBar
  rw [if_neg hflag]
  dsimp only
  rw [show 0xffffffff = 2 ^ 32 - 1 from rfl, (sizing hspace hi).2, hsize, haddr, size_eq hwf.2]

/-- A 32-bit register for memory. Source: `sys/pci.cpp` `pci_bar::pci_bar`. Kind: L -/
theorem pciBar_mem32 {type : ℕ} {prefetchable : Bool} (hspace : p.space = d.space) (hi : i < 6)
    (hkind : d.kind i = .mem32 k type prefetchable) :
    pciBar d.keeps d.f (d.register (4 + i)) i p =
      (⟨d.register (4 + i) / 2 ^ k * 2 ^ k, 2 ^ k, 0, true, false, prefetchable⟩,
        { p with accesses := p.accesses ++ sizingLog d i }) := by
  have hwf := d.wellFormed i hi
  rw [hkind] at hwf
  have ht := BarKind.typeBits_le hwf
  obtain ⟨hflag, htype, hprefetchable⟩ := register_flags hi hkind hwf.1 hwf.2.2.1 rfl
  have haddr : d.register (4 + i) &&& barMmioMask = d.register (4 + i) / 2 ^ k * 2 ^ k :=
    register_and_mask hi hkind (by norm_num) hwf.1 ht
  have hsize : (getBarRaw d.f i (setBarRaw d.keeps d.f i (2 ^ 32 - 1) p)).1 &&& barMmioMask =
      2 ^ 32 - 2 ^ k :=
    (sizing_and_mask hspace hi hkind (by norm_num) hwf.1 ht).trans (ones_div_mul hwf.2.1.le)
  have hsz : (2 ^ 32 - 1) <<< 32 ||| (2 ^ 32 - 2 ^ k) = 2 ^ 64 - 2 ^ k := by
    have hpow : 2 ^ k ≤ 2 ^ 32 := Nat.pow_le_pow_right (by norm_num) hwf.2.1.le
    have hpos : 0 < 2 ^ k := Nat.two_pow_pos k
    rw [← Nat.shiftLeft_add_eq_or_of_lt (by omega), Nat.shiftLeft_eq]
    omega
  have h64 : k < 64 := hwf.2.1.trans (by norm_num)
  have hnot : ¬ d.register (4 + i) &&& barMmioTypeMask = barMmioType64 := fun h => hwf.2.2.2 (htype.mp h)
  unfold pciBar
  rw [if_pos hflag]
  dsimp only
  rw [show 0xffffffff = 2 ^ 32 - 1 from rfl, (sizing hspace hi).2, hsize, haddr, hsz, hprefetchable,
    decide_eq_false hnot]
  unfold word
  rw [size_eq h64]
  rfl

/-- A 64-bit register, with its upper half. Source: `sys/pci.cpp` `pci_bar::pci_bar`. Kind: L -/
theorem pciBar_mem64 {prefetchable : Bool} (hspace : p.space = d.space) (hi : i < 6)
    (hkind : d.kind i = .mem64 k prefetchable) :
    pciBar d.keeps d.f (d.register (4 + i)) i p =
      (⟨(d.register (4 + i) + 2 ^ 32 * d.register (4 + i + 1)) / 2 ^ k * 2 ^ k, 2 ^ k, 0, true, true,
          prefetchable⟩,
        { p with accesses := p.accesses ++ sizingLog d i ++ [.read (barAddr (i + 1))] ++
            sizingLog d (i + 1) }) := by
  have hwf := d.wellFormed i hi
  have hregister := holds_register d hi
  have hi' : i + 1 < 6 := by
    have hstart := d.start i hi k prefetchable hkind
    omega
  have hupper : d.kind (i + 1) = .upper k := (d.pair (i + 1) hi' k).mpr ⟨i, prefetchable, rfl, hkind⟩
  have hregister' := holds_register d hi'
  rw [hkind] at hwf hregister
  rw [hupper] at hregister'
  have ht := BarKind.typeBits_le hwf
  obtain ⟨hflag, htype, hprefetchable⟩ := register_flags hi hkind hwf.1 (show 2 < 4 by norm_num) rfl
  have hlow : d.register (4 + i) &&& barMmioMask = d.register (4 + i) / 2 ^ k * 2 ^ k :=
    register_and_mask hi hkind (by norm_num) hwf.1 ht
  have haddr : d.register (4 + i) / 2 ^ k * 2 ^ k ||| d.register (4 + (i + 1)) <<< 32 =
      (d.register (4 + i) + 2 ^ 32 * d.register (4 + i + 1)) / 2 ^ k * 2 ^ k := by
    have hlt : d.register (4 + i) / 2 ^ k * 2 ^ k < 2 ^ 32 :=
      (Nat.div_mul_le_self _ _).trans_lt (register_lt d hi)
    have hhigh : d.register (4 + (i + 1)) / 2 ^ (k - 32) * 2 ^ (k - 32) = d.register (4 + (i + 1)) :=
      hregister'
    have hhalves := address_halves hlt (BarKind.typeBits_lt hwf)
      (n := d.register (4 + (i + 1)) / 2 ^ (k - 32))
    rw [hhigh] at hhalves
    exact hhalves.trans (congrArg (fun x => (x + 2 ^ 32 * d.register (4 + (i + 1))) / 2 ^ k * 2 ^ k) hregister)
  have hlowSz : (getBarRaw d.f i (setBarRaw d.keeps d.f i (2 ^ 32 - 1) p)).1 &&& barMmioMask =
      (2 ^ 32 - 1) / 2 ^ k * 2 ^ k :=
    sizing_and_mask hspace hi hkind (by norm_num) hwf.1 ht
  have hyes := htype.mpr rfl
  unfold pciBar
  rw [if_pos hflag]
  dsimp only
  rw [show 0xffffffff = 2 ^ 32 - 1 from rfl, (sizing hspace hi).2, hlowSz, hlow, hprefetchable,
    decide_eq_true hyes, if_pos rfl]
  obtain ⟨hones, hback⟩ := sizing (i := i + 1)
    (p := { p with accesses := p.accesses ++ sizingLog d i ++ [.read (barAddr (i + 1))] }) hspace hi'
  rw [hupper] at hones
  rw [getBarRaw_eq (by exact hspace) hi']
  dsimp only
  rw [hback, hones]
  have hsz : (BarKind.upper k).holds (2 ^ 32 - 1) <<< 32 ||| (2 ^ 32 - 1) / 2 ^ k * 2 ^ k = 2 ^ 64 - 2 ^ k :=
    ones_halves hwf.2
  rw [hsz, haddr]
  unfold word
  rw [size_eq hwf.2]

end Registers

/-! ## The loop -/

/-- The elements before `idx` are done, and nothing else is changed.
Source: `sys/pci.cpp` `pci_device::pci_device`
Kind: D -/
structure Probed (d : BarDevice) (idx : ℕ) (p : Probe) : Prop where
  space : p.space = d.space
  bars : ∀ i, p.bars i = if i < idx then d.recorded i else none
  accesses : ∀ a ∈ p.accesses, a.Within

/-- The loop does not come to upper halves.
Source: `sys/pci.cpp` `pci_device::pci_device`
Kind: D -/
def Starts (d : BarDevice) (idx : ℕ) : Prop := idx < 6 → ∀ k, d.kind idx ≠ .upper k

section Loop

variable {d : BarDevice} {p : Probe} {i k : ℕ} {bar : PciBar} {log : List Access}

/-- Source: none: infrastructure. Kind: L -/
theorem Probed.logs (hp : Probed d i p) (hlog : ∀ a ∈ log, a.Within) :
    Probed d i { p with accesses := p.accesses ++ log } where
  space := hp.space
  bars := hp.bars
  accesses a ha := (List.mem_append.mp ha).elim (hp.accesses a) (hlog a)

/-- Source: `sys/pci.cpp` `pci_device::pci_device`. Kind: L -/
theorem Probed.skip (hp : Probed d i p) (hrecorded : d.recorded i = none) : Probed d (i + 1) p where
  space := hp.space
  bars j := by
    rw [hp.bars]
    rcases Nat.lt_trichotomy j i with hlt | rfl | hgt
    · rw [if_pos hlt, if_pos (by omega)]
    · rw [if_neg (lt_irrefl j), if_pos (Nat.lt_succ_self j), hrecorded]
    · rw [if_neg (by omega), if_neg (by omega)]
  accesses := hp.accesses

/-- Source: `sys/pci.cpp` `pci_device::pci_device`. Kind: L -/
theorem Probed.setElement (hp : Probed d i p) (hi : i < 6) (hrecorded : d.recorded i = some bar) :
    Probed d (i + 1) (p.setElement i bar) where
  space := hp.space
  bars j := by
    show Function.update p.bars i (some bar) j = _
    rcases Nat.lt_trichotomy j i with hlt | rfl | hgt
    · rw [Function.update_of_ne hlt.ne, hp.bars, if_pos hlt, if_pos (by omega)]
    · rw [Function.update_self, if_pos (Nat.lt_succ_self j), hrecorded]
    · rw [Function.update_of_ne hgt.ne', hp.bars, if_neg (by omega), if_neg (by omega)]
  accesses a ha := by
    rcases List.mem_append.mp ha with hmem | hmem
    · exact hp.accesses a hmem
    · rw [List.mem_singleton.mp hmem]
      exact hi

/-- Source: `sys/pci.cpp` `pci_bar::pci_bar`. Kind: L -/
theorem recorded_upper (hkind : d.kind i = .upper k) : d.recorded i = none := by
  unfold BarDevice.recorded
  rw [hkind]
  exact ite_self none

/-- Source: `sys/pci.cpp` `pci_bar::pci_bar`. Kind: L -/
theorem register_absent (hi : i < 6) (hkind : d.kind i = .absent) : d.register (4 + i) = 0 := by
  have hregister := holds_register d hi
  rw [hkind] at hregister
  rw [← hregister]
  show d.register (4 + i) / 2 ^ 32 * 2 ^ 32 + 0 = 0
  rw [Nat.div_eq_of_lt (register_lt d hi), Nat.zero_mul]

/-- A 64-bit register is not zero. Source: `sys/pci.hpp` `BAR_MMIO_TYPE_64`. Kind: L -/
theorem register_mem64 {prefetchable : Bool} (hi : i < 6) (hkind : d.kind i = .mem64 k prefetchable) :
    d.register (4 + i) ≠ 0 := by
  have hregister := holds_register d hi
  rw [hkind] at hregister
  have hbits : d.register (4 + i) / 2 ^ k * 2 ^ k + (4 + 8 * prefetchable.toNat) = d.register (4 + i) :=
    hregister
  omega

/-- The next register is one to start at, unless this one has an upper half. Source: none: infrastructure.
Kind: L -/
theorem starts_succ (h : ∀ k prefetchable, d.kind i ≠ .mem64 k prefetchable) : Starts d (i + 1) := by
  intro hlt k hupper
  obtain ⟨j, prefetchable, hj, hmem⟩ := (d.pair (i + 1) hlt k).mp hupper
  rw [← Nat.succ.inj hj] at hmem
  exact h k prefetchable hmem

/-- A turn at a register that is not zero. Source: `sys/pci.cpp` `pci_device::pci_device`. Kind: L -/
theorem barLoop_bar {keeps : Keeps} {f : PciFunction} {q r : Probe} {val : ℕ} (hi : i ≤ 6)
    (hread : getBarRaw f i p = (val, q)) (hval : val ≠ 0) (hbar : pciBar keeps f val i q = (bar, r)) :
    barLoop keeps f i p = barLoop keeps f (if bar.is64 then i + 2 else i + 1) (r.setElement i bar) := by
  rw [barLoop, if_pos hi]
  dsimp only
  rw [hread]
  dsimp only
  rw [if_neg hval, hbar]

/-- **One turn** at one of the six registers. Source: `sys/pci.cpp` `pci_device::pci_device`. Kind: L -/
theorem barLoop_turn (hp : Probed d i p) (hi : i < 6) (hstart : Starts d i) :
    ∃ j q, i < j ∧ j ≤ 6 ∧ Starts d j ∧ Probed d j q ∧
      barLoop d.keeps d.f i p = barLoop d.keeps d.f j q := by
  have hread := getBarRaw_eq hp.space hi
  have hq : Probed d i { p with accesses := p.accesses ++ [.read (barAddr i)] } := by
    apply hp.logs
    intro a ha
    rw [List.mem_singleton.mp ha]
    exact within_read hi
  by_cases hzero : d.register (4 + i) = 0
  · have hrecorded : d.recorded i = none := by
      unfold BarDevice.recorded
      rw [if_pos hzero]
    refine ⟨i + 1, _, Nat.lt_succ_self i, hi, starts_succ fun k b hkind => ?_, hq.skip hrecorded, ?_⟩
    · exact register_mem64 hi hkind hzero
    · rw [barLoop, if_pos hi.le]
      dsimp only
      rw [hread]
      dsimp only
      rw [if_pos hzero]
  · have hlog := within_sizingLog d hi
    cases hkind : d.kind i with
    | absent => exact absurd (register_absent hi hkind) hzero
    | upper k => exact absurd hkind (hstart hi k)
    | io k reserved =>
        have hturn := barLoop_bar hi.le hread hzero (pciBar_io hq.space hi hkind)
        refine ⟨i + 1, _, Nat.lt_succ_self i, hi, starts_succ fun k b h => ?_,
          (hq.logs hlog).setElement hi ?_, hturn⟩
        · cases hkind.symm.trans h
        · unfold BarDevice.recorded
          rw [if_neg hzero, hkind]
    | mem32 k type prefetchable =>
        have hturn := barLoop_bar hi.le hread hzero (pciBar_mem32 hq.space hi hkind)
        refine ⟨i + 1, _, Nat.lt_succ_self i, hi, starts_succ fun k b h => ?_,
          (hq.logs hlog).setElement hi ?_, hturn⟩
        · cases hkind.symm.trans h
        · unfold BarDevice.recorded
          rw [if_neg hzero, hkind]
    | mem64 k prefetchable =>
        have hi' : i + 1 < 6 := by
          have hstart' := d.start i hi k prefetchable hkind
          omega
        have hupper : d.kind (i + 1) = .upper k := (d.pair (i + 1) hi' k).mpr ⟨i, prefetchable, rfl, hkind⟩
        have hturn := barLoop_bar hi.le hread hzero (pciBar_mem64 hq.space hi hkind)
        have hread' : ∀ a ∈ [Access.read (barAddr (i + 1))], a.Within := by
          intro a ha
          rw [List.mem_singleton.mp ha]
          exact within_read hi'
        have hdone := ((hq.logs hlog).logs hread').logs (within_sizingLog d hi')
        refine ⟨i + 2, _, by omega, hi', starts_succ fun k b h => ?_,
          (hdone.setElement hi ?_).skip (recorded_upper hupper), hturn⟩
        · cases hupper.symm.trans h
        · unfold BarDevice.recorded
          rw [if_neg hzero, hkind]

/-- **The six turns.** By induction on the registers that are left.
Source: `sys/pci.cpp` `pci_device::pci_device`
Kind: L -/
theorem barLoop_probed (hp : Probed d i p) (hi : i ≤ 6) (hstart : Starts d i) :
    ∃ q, Probed d 6 q ∧ barLoop d.keeps d.f i p = barLoop d.keeps d.f 6 q := by
  induction hleft : 6 - i using Nat.strong_induction_on generalizing i p with
  | _ n ih =>
      rcases hi.lt_or_eq with hlt | rfl
      · obtain ⟨j, q, hij, hj, hstart', hq, hturn⟩ := barLoop_turn hp hlt hstart
        obtain ⟨r, hr, heq⟩ := ih (6 - j) (by omega) hq hj hstart' rfl
        exact ⟨r, hr, hturn.trans heq⟩
      · exact ⟨p, hp, rfl⟩

/-! ## Behind the six -/

/-- Whatever the register is, the elements are not touched. Source: `sys/pci.cpp` `pci_bar::pci_bar`.
Kind: L -/
theorem pciBar_bars (keeps : Keeps) (f : PciFunction) (val idx : ℕ) (p : Probe) :
    (pciBar keeps f val idx p).2.bars = p.bars := by
  unfold pciBar
  split
  · dsimp only
    split <;> rfl
  · rfl

/-- Only the register and the next one are written. Source: `sys/pci.cpp` `pci_bar::pci_bar`. Kind: L -/
theorem pciBar_space (keeps : Keeps) {f : PciFunction} (hf : f.Addressable) (hi : i < 7) (val : ℕ) (p : Probe)
    (f' : PciFunction) (register : ℕ)
    (hother : ¬ (f' = f ∧ (register = 4 + i ∨ register = 4 + (i + 1)))) :
    (pciBar keeps f val i p).2.space f'.bus f'.device f'.func register =
      p.space f'.bus f'.device f'.func register := by
  have hset : ∀ v q, (setBarRaw keeps f i v q).space f'.bus f'.device f'.func register =
      q.space f'.bus f'.device f'.func register := by
    intro v q
    rw [setBarRaw_space keeps hf (by omega), if_neg fun h => hother ⟨h.1, Or.inl h.2⟩]
  have hset' : ∀ v q, (setBarRaw keeps f (i + 1) v q).space f'.bus f'.device f'.func register =
      q.space f'.bus f'.device f'.func register := by
    intro v q
    rw [setBarRaw_space keeps hf (by omega), if_neg fun h => hother ⟨h.1, Or.inr h.2⟩]
  have hget : ∀ idx q, (getBarRaw f idx q).2.space = q.space := fun _ _ => rfl
  unfold pciBar
  split
  · dsimp only
    split
    · rw [hset', hget, hset', hget, hset, hget, hset]
    · rw [hset, hget, hset]
  · rw [hset, hget, hset]

/-- What has been accessed before stays. Source: `sys/pci.cpp` `pci_bar::pci_bar`. Kind: L -/
theorem pciBar_accesses (keeps : Keeps) (f : PciFunction) (val idx : ℕ) (p : Probe) {a : Access}
    (ha : a ∈ p.accesses) : a ∈ (pciBar keeps f val idx p).2.accesses := by
  have hset : ∀ idx v q, a ∈ q.accesses → a ∈ (setBarRaw keeps f idx v q).accesses :=
    fun _ _ _ h => List.mem_append_left _ h
  have hget : ∀ idx q, a ∈ q.accesses → a ∈ (getBarRaw f idx q).2.accesses :=
    fun _ _ h => List.mem_append_left _ h
  have hsizing := hset idx val _ (hget idx _ (hset idx 0xffffffff p ha))
  unfold pciBar
  split
  · dsimp only
    split
    · exact hset _ _ _ (hget _ _ (hset _ _ _ (hget _ _ hsizing)))
    · exact hsizing
  · exact hsizing

/-- **The seventh turn** reads the register behind the six, and if it is zero, that is all.
Source: `sys/pci.cpp` `pci_device::pci_device`
Kind: L -/
theorem barLoop_six (hp : Probed d 6 p) :
    (d.f.read32 d.space cardbusCisPtrAddr = 0 → barLoop d.keeps d.f 6 p =
      { p with accesses := p.accesses ++ [.read cardbusCisPtrAddr] }) ∧
    (d.f.read32 d.space cardbusCisPtrAddr ≠ 0 → ∃ made : PciBar × Probe,
      made = pciBar d.keeps d.f (d.f.read32 d.space cardbusCisPtrAddr) 6
        { p with accesses := p.accesses ++ [.read cardbusCisPtrAddr] } ∧
      barLoop d.keeps d.f 6 p = made.2.setElement 6 made.1) := by
  have hend : ∀ j q, 6 < j → barLoop d.keeps d.f j q = q := by
    intro j q hj
    rw [barLoop, if_neg (by omega)]
  have hread : getBarRaw d.f 6 p = (d.f.read32 d.space cardbusCisPtrAddr,
      { p with accesses := p.accesses ++ [.read cardbusCisPtrAddr] }) := by
    rw [← hp.space]
    rfl
  constructor
  · intro hzero
    rw [barLoop, if_pos le_rfl]
    dsimp only
    rw [hread]
    dsimp only
    rw [if_pos hzero, hend 7 _ (by norm_num)]
  · intro hne
    refine ⟨_, rfl, (barLoop_bar le_rfl hread hne rfl).trans (hend _ _ ?_)⟩
    split <;> norm_num

/-- The state in which the seventh turn begins. Source: `sys/pci.cpp` `pci_device::pci_device`. Kind: L -/
theorem pciDevice_six (d : BarDevice) :
    ∃ p, Probed d 6 p ∧ pciDevice d.keeps d.f d.space = barLoop d.keeps d.f 6 p := by
  have hinit : Probed d 0 ⟨d.space, [], fun _ => none⟩ :=
    ⟨rfl, fun i => (if_neg (Nat.not_lt_zero i)).symm, fun a ha => absurd ha List.not_mem_nil⟩
  refine barLoop_probed hinit (by norm_num) fun h k hkind => ?_
  obtain ⟨j, prefetchable, hj, -⟩ := (d.pair 0 h k).mp hkind
  omega

/-- The register behind the six is read. Source: `sys/pci.cpp` `pci_device::pci_device`. Kind: L -/
theorem read_cardbusCisPtr (d : BarDevice) :
    .read cardbusCisPtrAddr ∈ (pciDevice d.keeps d.f d.space).accesses := by
  obtain ⟨p, hp, heq⟩ := pciDevice_six d
  have hmem : Access.read cardbusCisPtrAddr ∈ p.accesses ++ [.read cardbusCisPtrAddr] :=
    List.mem_append_right _ List.mem_cons_self
  rw [heq]
  by_cases hzero : d.f.read32 d.space cardbusCisPtrAddr = 0
  · rw [(barLoop_six hp).1 hzero]
    exact hmem
  · obtain ⟨made, hmade, hloop⟩ := (barLoop_six hp).2 hzero
    rw [hloop, hmade]
    exact List.mem_append_left _ (pciBar_accesses _ _ _ _ _ hmem)

/-- If it is not zero, an element behind the end is assigned. Source: `sys/pci.cpp` `pci_device::pci_device`.
Kind: L -/
theorem element_six (d : BarDevice) (hne : d.f.read32 d.space cardbusCisPtrAddr ≠ 0) :
    .element 6 ∈ (pciDevice d.keeps d.f d.space).accesses := by
  obtain ⟨p, hp, heq⟩ := pciDevice_six d
  obtain ⟨made, -, hloop⟩ := (barLoop_six hp).2 hne
  rw [heq, hloop]
  exact List.mem_append_right _ List.mem_cons_self

/-- It is not one of the six. Source: `sys/pci.hpp` `CARDBUS_CIS_PTR_ADDR`. Kind: L -/
theorem not_within_cardbusCisPtr : ¬ (Access.read cardbusCisPtrAddr).Within := by
  rintro ⟨i, hi, heq⟩
  unfold cardbusCisPtrAddr at heq
  omega

/-- **Probing** is right for the six registers of every device, and for no device is it confined to them:
the register behind them is read, and if it is not zero, it is written and an element behind the end of
`bars_` is assigned. No other register changes.
Source: `sys/pci.cpp` `pci_device::pci_device`
Kind: P -/
theorem pciDevice_neverProbes (d : BarDevice) :
    ¬ Probes d [] (pciDevice d.keeps d.f d.space) ∧
    (Probes d [.read cardbusCisPtrAddr] (pciDevice d.keeps d.f d.space) ↔
      d.f.read32 d.space cardbusCisPtrAddr = 0) ∧
    (∀ i < 6, (pciDevice d.keeps d.f d.space).bars i = d.recorded i) ∧
    ∀ (f : PciFunction) (r : ℕ), ¬ (f = d.f ∧ (r = 10 ∨ r = 11)) →
      (pciDevice d.keeps d.f d.space).space f.bus f.device f.func r = d.space f.bus f.device f.func r := by
  obtain ⟨p, hp, heq⟩ := pciDevice_six d
  have hbars : ∀ i < 6, (pciDevice d.keeps d.f d.space).bars i = d.recorded i := by
    intro i hi
    have hsix : p.bars i = d.recorded i := by rw [hp.bars, if_pos hi]
    rw [heq]
    by_cases hzero : d.f.read32 d.space cardbusCisPtrAddr = 0
    · rw [(barLoop_six hp).1 hzero]
      exact hsix
    · obtain ⟨made, hmade, hloop⟩ := (barLoop_six hp).2 hzero
      rw [hloop, hmade]
      show Function.update _ 6 _ i = _
      rw [Function.update_of_ne hi.ne, pciBar_bars]
      exact hsix
  refine ⟨fun h => ?_, ⟨fun h => ?_, fun hzero => ?_⟩, hbars, fun f r hother => ?_⟩
  · rcases h.accesses _ (read_cardbusCisPtr d) with hwithin | hmem
    · exact not_within_cardbusCisPtr hwithin
    · exact absurd hmem List.not_mem_nil
  · by_contra hne
    rcases h.accesses _ (element_six d hne) with hwithin | hmem
    · exact absurd (show 6 < 6 from hwithin) (lt_irrefl 6)
    · cases List.mem_singleton.mp hmem
  · have hdone := (barLoop_six hp).1 hzero
    refine ⟨fun a ha => ?_, hbars, ?_⟩
    · rw [heq, hdone] at ha
      exact (List.mem_append.mp ha).imp_left (hp.accesses a)
    · rw [heq, hdone]
      exact hp.space
  · rw [heq, ← hp.space]
    by_cases hzero : d.f.read32 d.space cardbusCisPtrAddr = 0
    · rw [(barLoop_six hp).1 hzero]
    · obtain ⟨made, hmade, hloop⟩ := (barLoop_six hp).2 hzero
      rw [hloop, hmade]
      exact pciBar_space d.keeps d.addressable (by norm_num) _ _ f r hother

/-! ## A device -/

/-- Its first two registers are for 8 GB of memory, and its CIS pointer is not zero.
Source: `sys/pci.cpp` `pci_device::pci_device`
Kind: D -/
def cardbusKind : ℕ → BarKind
  | 0 => .mem64 33 true
  | 1 => .upper 33
  | _ => .absent

/-- Source: `sys/pci.cpp` `pci_device::pci_device`
Kind: D -/
def cardbusDevice : BarDevice where
  f := ⟨0, 0, 0⟩
  space _ _ _ r := if r = 10 then 8 else if 4 ≤ r then (cardbusKind (r - 4)).holds 0 else 0
  keeps r old val := if 4 ≤ r ∧ r < 10 then (cardbusKind (r - 4)).holds val else old
  kind := cardbusKind
  addressable := by decide
  wellFormed i hi := by
    match i with
    | 0 => exact ⟨by norm_num, by norm_num⟩
    | 1 => trivial
    | _ + 2 => trivial
  keeps_eq i hi old val _ := by
    rw [if_pos ⟨Nat.le_add_right 4 i, by omega⟩, Nat.add_sub_cancel_left]
  contents i hi := by
    refine ⟨0, by norm_num, ?_⟩
    rw [if_neg (by omega), if_pos (Nat.le_add_right 4 i), Nat.add_sub_cancel_left]
  pair i hi k := by
    constructor
    · intro h
      match i with
      | 1 =>
          cases h
          exact ⟨0, true, rfl, rfl⟩
    · rintro ⟨j, prefetchable, rfl, h⟩
      match j with
      | 0 =>
          cases h
          rfl
      | 1 => cases h
      | _ + 2 => cases h
  start i hi k prefetchable h := by
    match i with
    | 0 => norm_num
    | 1 => cases h
    | _ + 2 => cases h

/-- An element behind the end of `bars_` is assigned. Source: `sys/pci.cpp` `pci_device::pci_device`.
Kind: C -/
theorem pciDevice_not_always :
    ¬ ∀ d : BarDevice, Probes d [] (pciDevice d.keeps d.f d.space) := by
  intro hall
  have hmem := element_six cardbusDevice (by decide +kernel)
  rcases (hall cardbusDevice).accesses _ hmem with hwithin | hnil
  · exact absurd (show 6 < 6 from hwithin) (lt_irrefl 6)
  · exact absurd hnil List.not_mem_nil

end Loop

end Pci

end EbbRT
