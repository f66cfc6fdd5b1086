import EbbRT.Pci.Enumeration

/-!
# Configuration accesses of different widths

The address port takes the number of a 32-bit register: its two lowest bits are zero whatever is written
to them. Which bytes of the register are meant is said by the offset of the access to the data port.
`pci_read_8` adds it; `pci_read_16` and `pci_write_16` do not, and take the low half of the register for
the upper one, too. `configAccess_exactlyWhen`: what that comes to for every offset and all contents.
-/

namespace EbbRT

namespace Pci

/-! ## The code -/

/-- The registers after a write to `PCI_DATA_PORT` that makes `new old` of the register's contents, for
what `PCI_ADDRESS_PORT` holds.
Source: `sys/pci.cpp` `PCI_DATA_PORT`
Kind: D -/
def outDataPort (space : ConfigSpace) (addr : ℕ) (new : ℕ → ℕ) : ConfigSpace :=
  fun bus device func register =>
    if bus = addr / 2 ^ 16 % 2 ^ 8 ∧ device = addr / 2 ^ 11 % 2 ^ 5 ∧ func = addr / 2 ^ 8 % 2 ^ 3 ∧
        register = addr % 2 ^ 8 / 4 then
      new (space bus device func register)
    else space bus device func register

/-- Source: `sys/pci.cpp` `pci_read_32`
Kind: D -/
def pciRead32 (space : ConfigSpace) (bus device func offset : ℕ) : ℕ :=
  dataPort space (pciSetAddr bus device func offset) % 2 ^ 32

/-- Two bytes from `PCI_DATA_PORT` on: the low half of the register.
Source: `sys/pci.cpp` `pci_write_16`
Kind: D -/
def pciWrite16 (space : ConfigSpace) (bus device func offset val : ℕ) : ConfigSpace :=
  outDataPort space (pciSetAddr bus device func offset) fun old => old / 2 ^ 16 * 2 ^ 16 + val % 2 ^ 16

namespace PciFunction

/-- Source: `sys/pci.cpp` `pci_function::read32`
Kind: D -/
def read32 (space : ConfigSpace) (f : PciFunction) (offset : ℕ) : ℕ :=
  pciRead32 space f.bus f.device f.func offset

/-- Source: `sys/pci.cpp` `pci_function::write16`
Kind: D -/
def write16 (space : ConfigSpace) (f : PciFunction) (offset val : ℕ) : ConfigSpace :=
  pciWrite16 space f.bus f.device f.func offset val

/-- The fields are those of an address.
Source: `sys/pci.cpp` `enumerate_bus`
Kind: D -/
def Addressable (f : PciFunction) : Prop := f.bus < 2 ^ 8 ∧ f.device < 2 ^ 5 ∧ f.func < 2 ^ 3

instance (f : PciFunction) : Decidable f.Addressable := inferInstanceAs (Decidable (_ ∧ _))

end PciFunction

/-! ## The contents -/

/-- A byte of the configuration space of a function.
Source: `sys/pci.hpp` `pci_function`
Kind: D -/
def byteAt (space : ConfigSpace) (f : PciFunction) (offset : ℕ) : ℕ :=
  space f.bus f.device f.func (offset / 4) / 2 ^ (8 * (offset % 4)) % 2 ^ 8

/-- The two halves of the register at an offset.
Source: `sys/pci.hpp` `pci_function`
Kind: D -/
def halves (space : ConfigSpace) (f : PciFunction) (offset : ℕ) : ℕ × ℕ :=
  (space f.bus f.device f.func (offset / 4) % 2 ^ 16,
    space f.bus f.device f.func (offset / 4) / 2 ^ 16 % 2 ^ 16)

/-- From `space` to `space'` the bytes at `offset` and `offset + 1` have become `val`, and no other byte of
any function has changed.
Source: `sys/pci.cpp` `pci_write_16`
Kind: D -/
def Writes16 (space space' : ConfigSpace) (f : PciFunction) (offset val : ℕ) : Prop :=
  ∀ f' o, byteAt space' f' o =
    if f' = f ∧ o = offset then val % 2 ^ 8
    else if f' = f ∧ o = offset + 1 then val / 2 ^ 8
    else byteAt space f' o

section Access

variable {space : ConfigSpace} {f f' : PciFunction} {offset val register : ℕ}

/-- The address leads to the register, for writes too. Source: `sys/pci.cpp` `pci_set_addr`. Kind: L -/
theorem outDataPort_pciSetAddr (hf : f.Addressable) (hoffset : offset < 2 ^ 8) (new : ℕ → ℕ) :
    outDataPort space (pciSetAddr f.bus f.device f.func offset) new f'.bus f'.device f'.func register =
      if f' = f ∧ register = offset / 4 then new (space f'.bus f'.device f'.func register)
      else space f'.bus f'.device f'.func register := by
  obtain ⟨hbus, hdevice, hfunc⟩ := hf
  unfold outDataPort
  rw [pciSetAddr_eq hbus hdevice hfunc hoffset]
  refine if_congr ?_ rfl rfl
  obtain ⟨b, d, n⟩ := f
  obtain ⟨b', d', n'⟩ := f'
  rw [PciFunction.mk.injEq]
  dsimp only at hbus hdevice hfunc ⊢
  omega

/-- **Single bytes** are read where they are. Source: `sys/pci.cpp` `pci_read_8`. Kind: L -/
theorem read8_eq (hf : f.Addressable) (hoffset : offset < 2 ^ 8) :
    f.read8 space offset = byteAt space f offset := by
  obtain ⟨hbus, hdevice, hfunc⟩ := hf
  unfold PciFunction.read8 pciRead8 byteAt
  rw [dataPort_pciSetAddr hbus hdevice hfunc hoffset, show 3 = 2 ^ 2 - 1 from rfl,
    Nat.and_two_pow_sub_one_eq_mod]

/-- Two bytes are read from the low half. Source: `sys/pci.cpp` `pci_read_16`. Kind: L -/
theorem read16_eq (hf : f.Addressable) (hoffset : offset < 2 ^ 8) :
    f.read16 space offset = (halves space f offset).1 := by
  obtain ⟨hbus, hdevice, hfunc⟩ := hf
  unfold PciFunction.read16 pciRead16 halves
  rw [dataPort_pciSetAddr hbus hdevice hfunc hoffset]

/-- Source: `sys/pci.cpp` `pci_read_32`. Kind: L -/
theorem read32_eq (hf : f.Addressable) (hoffset : offset < 2 ^ 8) :
    f.read32 space offset = space f.bus f.device f.func (offset / 4) % 2 ^ 32 := by
  obtain ⟨hbus, hdevice, hfunc⟩ := hf
  unfold PciFunction.read32 pciRead32
  rw [dataPort_pciSetAddr hbus hdevice hfunc hoffset]

/-- A byte of a register, from its halves. Source: none: infrastructure. Kind: D -/
def byteOf (h : ℕ × ℕ) (lane : ℕ) : ℕ :=
  if lane < 2 then h.1 / 2 ^ (8 * lane) % 2 ^ 8 else h.2 / 2 ^ (8 * (lane - 2)) % 2 ^ 8

/-- Source: none: infrastructure. Kind: L -/
@[simp]
theorem byteOf_zero (h : ℕ × ℕ) : byteOf h 0 = h.1 % 2 ^ 8 := by simp [byteOf]

/-- Source: none: infrastructure. Kind: L -/
@[simp]
theorem byteOf_one (h : ℕ × ℕ) : byteOf h 1 = h.1 / 2 ^ 8 % 2 ^ 8 := by simp [byteOf]

/-- Source: none: infrastructure. Kind: L -/
@[simp]
theorem byteOf_two (h : ℕ × ℕ) : byteOf h 2 = h.2 % 2 ^ 8 := by simp [byteOf]

/-- Source: none: infrastructure. Kind: L -/
@[simp]
theorem byteOf_three (h : ℕ × ℕ) : byteOf h 3 = h.2 / 2 ^ 8 % 2 ^ 8 := by simp [byteOf]

/-- Source: none: infrastructure. Kind: L -/
theorem byteAt_eq (space : ConfigSpace) (f : PciFunction) (o : ℕ) :
    byteAt space f o = byteOf (halves space f o) (o % 4) := by
  unfold byteAt halves
  generalize space f.bus f.device f.func (o / 4) = x
  obtain h | h | h | h : o % 4 = 0 ∨ o % 4 = 1 ∨ o % 4 = 2 ∨ o % 4 = 3 := by omega
  · rw [h, byteOf_zero]
    omega
  · rw [h, byteOf_one]
    omega
  · rw [h, byteOf_two]
    omega
  · rw [h, byteOf_three]
    omega

/-- Source: none: infrastructure. Kind: L -/
theorem halves_lt (space : ConfigSpace) (f : PciFunction) (o : ℕ) :
    (halves space f o).1 < 2 ^ 16 ∧ (halves space f o).2 < 2 ^ 16 :=
  ⟨Nat.mod_lt _ (by norm_num), Nat.mod_lt _ (by norm_num)⟩

/-- Offsets of one register. Source: none: infrastructure. Kind: L -/
theorem halves_congr {o o' : ℕ} (h : o / 4 = o' / 4) : halves space f o = halves space f o' := by
  unfold halves
  rw [h]

/-- The two bytes at an even offset are a half of the register. Source: none: infrastructure. Kind: L -/
theorem bytes_eq (heven : 2 ∣ offset) :
    byteAt space f offset + 2 ^ 8 * byteAt space f (offset + 1)
      = if 4 ∣ offset then (halves space f offset).1 else (halves space f offset).2 := by
  obtain ⟨hlo, hhi⟩ := halves_lt space f offset
  rw [byteAt_eq, byteAt_eq, halves_congr (show (offset + 1) / 4 = offset / 4 by omega)]
  by_cases hdvd : 4 ∣ offset
  · have h0 : offset % 4 = 0 := Nat.mod_eq_zero_of_dvd hdvd
    have h1 : (offset + 1) % 4 = 1 := by omega
    rw [if_pos hdvd, h0, h1, byteOf_zero, byteOf_one]
    omega
  · have h2 : offset % 4 = 2 := by omega
    have h3 : (offset + 1) % 4 = 3 := by omega
    rw [if_neg hdvd, h2, h3, byteOf_two, byteOf_three]
    omega

/-- The four bytes of a register. Source: none: infrastructure. Kind: L -/
theorem dword_eq (hdvd : 4 ∣ offset) :
    space f.bus f.device f.func (offset / 4) % 2 ^ 32 =
      byteAt space f offset + 2 ^ 8 * byteAt space f (offset + 1)
        + 2 ^ 16 * byteAt space f (offset + 2) + 2 ^ 24 * byteAt space f (offset + 3) := by
  have hq1 : (offset + 1) / 4 = offset / 4 := by omega
  have hq2 : (offset + 2) / 4 = offset / 4 := by omega
  have hq3 : (offset + 3) / 4 = offset / 4 := by omega
  have h0 : offset % 4 = 0 := Nat.mod_eq_zero_of_dvd hdvd
  have h1 : (offset + 1) % 4 = 1 := by omega
  have h2 : (offset + 2) % 4 = 2 := by omega
  have h3 : (offset + 3) % 4 = 3 := by omega
  unfold byteAt
  rw [hq1, hq2, hq3, h0, h1, h2, h3]
  omega

/-- The halves after a write. Source: `sys/pci.cpp` `pci_write_16`. Kind: L -/
theorem halves_write16 (hf : f.Addressable) (hoffset : offset < 2 ^ 8) (hval : val < 2 ^ 16) (o : ℕ) :
    halves (f.write16 space offset val) f' o =
      if f' = f ∧ o / 4 = offset / 4 then (val, (halves space f' o).2) else halves space f' o := by
  unfold halves PciFunction.write16 pciWrite16
  rw [outDataPort_pciSetAddr hf hoffset]
  split
  · generalize space f'.bus f'.device f'.func (o / 4) = x
    rw [Prod.mk.injEq]
    omega
  · rfl

/-- A write is right if the bytes of its register are. Source: `sys/pci.cpp` `pci_write_16`. Kind: L -/
theorem writes16_iff_lanes (hf : f.Addressable) (hoffset : offset < 2 ^ 8) (heven : 2 ∣ offset)
    (hval : val < 2 ^ 16) : Writes16 space (f.write16 space offset val) f offset val ↔
      ∀ o, o / 4 = offset / 4 → byteOf (val, (halves space f offset).2) (o % 4) =
        if o = offset then val % 2 ^ 8 else if o = offset + 1 then val / 2 ^ 8
        else byteOf (halves space f offset) (o % 4) := by
  have hsame : ∀ o, o / 4 = offset / 4 →
      byteAt (f.write16 space offset val) f o = byteOf (val, (halves space f offset).2) (o % 4) ∧
        byteAt space f o = byteOf (halves space f offset) (o % 4) := by
    intro o ho
    rw [byteAt_eq, byteAt_eq, halves_write16 hf hoffset hval, if_pos ⟨rfl, ho⟩, halves_congr ho]
    exact ⟨rfl, rfl⟩
  constructor
  · intro h o ho
    have ho' := h f o
    rw [(hsame o ho).1, (hsame o ho).2] at ho'
    simpa only [true_and] using ho'
  · intro h f' o
    by_cases hregister : f' = f ∧ o / 4 = offset / 4
    · obtain ⟨rfl, ho⟩ := hregister
      rw [(hsame o ho).1, (hsame o ho).2]
      simpa only [true_and] using h o ho
    · -- the bytes of other registers stay, and none of them is meant
      have hbyte : byteAt (f.write16 space offset val) f' o = byteAt space f' o := by
        rw [byteAt_eq, byteAt_eq, halves_write16 hf hoffset hval, if_neg hregister]
      have hfirst : ¬ (f' = f ∧ o = offset) := fun h => hregister ⟨h.1, h.2 ▸ rfl⟩
      have hsecond : ¬ (f' = f ∧ o = offset + 1) := fun h => hregister ⟨h.1, by omega⟩
      rw [hbyte, if_neg hfirst, if_neg hsecond]

/-- **A write goes to the low half**, so it is right where that is meant, and where the register holds the
value in both halves already.
Source: `sys/pci.cpp` `pci_write_16`
Kind: P -/
theorem writes16_iff (hf : f.Addressable) (hoffset : offset < 2 ^ 8) (heven : 2 ∣ offset)
    (hval : val < 2 ^ 16) : Writes16 space (f.write16 space offset val) f offset val ↔
      4 ∣ offset ∨ halves space f offset = (val, val) := by
  obtain ⟨hlo, hhi⟩ := halves_lt space f offset
  rw [writes16_iff_lanes hf hoffset heven hval]
  generalize halves space f offset = h at *
  obtain ⟨lo, hi⟩ := h
  rw [Prod.mk.injEq]
  constructor
  · intro h
    by_cases hdvd : 4 ∣ offset
    · exact Or.inl hdvd
    · right
      have b0 := h (offset - 2) (by omega)
      have b1 := h (offset - 1) (by omega)
      have b2 := h offset rfl
      have b3 := h (offset + 1) (by omega)
      rw [show (offset - 2) % 4 = 0 by omega, if_neg (by omega), if_neg (by omega)] at b0
      rw [show (offset - 1) % 4 = 1 by omega, if_neg (by omega), if_neg (by omega)] at b1
      rw [show offset % 4 = 2 by omega, if_pos rfl] at b2
      rw [show (offset + 1) % 4 = 3 by omega, if_neg (by omega), if_pos rfl] at b3
      simp only [byteOf_zero, byteOf_one, byteOf_two, byteOf_three] at b0 b1 b2 b3
      omega
  · intro h o ho
    obtain hlane | hlane | hlane | hlane : o % 4 = 0 ∨ o % 4 = 1 ∨ o % 4 = 2 ∨ o % 4 = 3 := by omega
    all_goals
      rw [hlane]
      simp only [byteOf_zero, byteOf_one, byteOf_two, byteOf_three]
      rcases h with hdvd | ⟨rfl, rfl⟩
      · split_ifs <;> omega
      · split_ifs <;> omega

/-- **Accesses of different widths** agree for registers, and for the upper half of one exactly where the
lower half is the same: two bytes are the bytes read one by one if the halves are equal, and a write
changes just its two bytes if it changes nothing.
Source: `sys/pci.cpp` `pci_read_16`, `pci_write_16`
Kind: P
Hyps: `hf`, `hoffset`, `hval`: the widths of the arguments; `heven`: the offset of a 16-bit access -/
theorem configAccess_exactlyWhen (space : ConfigSpace) (f : PciFunction) (offset val : ℕ)
    (hf : f.Addressable) (hoffset : offset < 2 ^ 8) (heven : 2 ∣ offset) (hval : val < 2 ^ 16) :
    (f.read16 space offset = f.read8 space offset + 2 ^ 8 * f.read8 space (offset + 1) ↔
      4 ∣ offset ∨ (halves space f offset).1 = (halves space f offset).2) ∧
    (4 ∣ offset → f.read32 space offset =
      f.read8 space offset + 2 ^ 8 * f.read8 space (offset + 1) + 2 ^ 16 * f.read8 space (offset + 2)
        + 2 ^ 24 * f.read8 space (offset + 3)) ∧
    (Writes16 space (f.write16 space offset val) f offset val ↔
      4 ∣ offset ∨ halves space f offset = (val, val)) := by
  refine ⟨?_, fun hdvd => ?_, ?_⟩
  · rw [read16_eq hf hoffset, read8_eq hf hoffset, read8_eq hf (by omega), bytes_eq heven]
    by_cases hdvd : 4 ∣ offset
    · rw [if_pos hdvd]
      exact iff_of_true rfl (Or.inl hdvd)
    · rw [if_neg hdvd]
      exact (or_iff_right hdvd).symm
  · rw [read32_eq hf hoffset, dword_eq hdvd, read8_eq hf hoffset, read8_eq hf (by omega),
      read8_eq hf (by omega), read8_eq hf (by omega)]
  · exact writes16_iff hf hoffset heven hval

/-- The command register, at offset 4. Source: `sys/pci.cpp` `pci_function::get_command`. Kind: C -/
theorem configAccess_exactlyWhen_command :
    Writes16 (hostBridge 0) (PciFunction.write16 (hostBridge 0) ⟨0, 0, 0⟩ 4 0x400) ⟨0, 0, 0⟩ 4 0x400 :=
  (configAccess_exactlyWhen (hostBridge 0) ⟨0, 0, 0⟩ 4 0x400 (by decide) (by decide) (by decide)
    (by decide)).2.2.mpr (Or.inl (by decide))

/-- The device, at offset 2: the vendor is read.
Source: `sys/pci.cpp` `pci_function::get_device_id`
Kind: C -/
theorem configAccess_not_always :
    ¬ ∀ (space : ConfigSpace) (f : PciFunction) (offset : ℕ), f.Addressable → offset < 2 ^ 8 →
      2 ∣ offset → f.read16 space offset = f.read8 space offset + 2 ^ 8 * f.read8 space (offset + 1) := by
  intro hall
  have h := hall (hostBridge 0) ⟨0, 0, 0⟩ 2 (by decide) (by decide) (by decide)
  exact absurd h (by decide +kernel)

end Access

end Pci

end EbbRT
