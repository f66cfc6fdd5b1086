import Mathlib

/-!
# Finding the PCI functions

A function of the PCI bus is read through two ports: the first takes its bus, device, function and
register, the second has what is there. `enumerate_bus` asks every device of a bus for its function 0,
and a device with more than one function for all eight. When function 0:0.0 has more than one function,
there is a bus for each of them that is present. The conversion to `bool` is true of a function that is
absent, and `enumerate_all_buses` takes it the other way round; and a device whose function 0 is absent
is passed over, although what is read there (all ones) may say that it has more functions.
`enumerateAllBuses_exactlyWhen` says that the functions that are there are found if and only if neither
matters: 0:0.0 is the only function of its device, or there is no device at all on the first eight buses,
and no function is stranded on a bus to scan.
-/

namespace EbbRT

namespace Pci

/-! ## Configuration space -/

/-- The 32-bit registers: bus, device, function, register.
Source: `sys/pci.cpp` `pci_read_32`
Kind: D -/
def ConfigSpace : Type := ℕ → ℕ → ℕ → ℕ → ℕ

/-- What is written to `PCI_ADDRESS_PORT`.
Source: `sys/pci.cpp` `pci_set_addr`
Kind: D -/
def pciSetAddr (bus device func offset : ℕ) : ℕ :=
  0x80000000 ||| (bus <<< 16) ||| (device <<< 11) ||| (func <<< 8) ||| offset

/-- The register behind `PCI_DATA_PORT`, for what `PCI_ADDRESS_PORT` holds: the fields of the address
are the ones that `pci_set_addr` writes, and the two lowest bits are not looked at.
Source: `sys/pci.cpp` `PCI_BUS_OFFSET`, `PCI_DEVICE_OFFSET`, `PCI_FUNC_OFFSET`
Kind: D -/
def dataPort (space : ConfigSpace) (addr : ℕ) : ℕ :=
  space (addr / 2 ^ 16 % 2 ^ 8) (addr / 2 ^ 11 % 2 ^ 5) (addr / 2 ^ 8 % 2 ^ 3) (addr % 2 ^ 8 / 4)

/-- Source: `sys/pci.cpp` `pci_read_8`
Kind: D -/
def pciRead8 (space : ConfigSpace) (bus device func offset : ℕ) : ℕ :=
  dataPort space (pciSetAddr bus device func offset) / 2 ^ (8 * (offset &&& 3)) % 2 ^ 8

/-- Source: `sys/pci.cpp` `pci_read_16`
Kind: D -/
def pciRead16 (space : ConfigSpace) (bus device func offset : ℕ) : ℕ :=
  dataPort space (pciSetAddr bus device func offset) % 2 ^ 16

/-! ## Functions -/

/-- Source: `sys/pci.hpp` `pci_function`
Kind: D -/
structure PciFunction where
  bus : ℕ
  device : ℕ
  func : ℕ
  deriving DecidableEq, Repr

namespace PciFunction

/-- Source: `sys/pci.hpp` `VENDOR_ID_ADDR`
Kind: D -/
def vendorIdAddr : ℕ := 0x00

/-- Source: `sys/pci.hpp` `HEADER_TYPE_ADDR`
Kind: D -/
def headerTypeAddr : ℕ := 0x0E

/-- Source: `sys/pci.hpp` `HEADER_MULTIFUNC_MASK`
Kind: D -/
def headerMultifuncMask : ℕ := 0x80

/-- Source: `sys/pci.hpp` `HEADER_TYPE_BRIDGE`
Kind: D -/
def headerTypeBridge : ℕ := 0x01

variable (space : ConfigSpace) (f : PciFunction)

/-- Source: `sys/pci.cpp` `pci_function::read8`
Kind: D -/
def read8 (offset : ℕ) : ℕ := pciRead8 space f.bus f.device f.func offset

/-- Source: `sys/pci.cpp` `pci_function::read16`
Kind: D -/
def read16 (offset : ℕ) : ℕ := pciRead16 space f.bus f.device f.func offset

/-- Source: `sys/pci.cpp` `pci_function::get_vendor_id`
Kind: D -/
def getVendorId : ℕ := f.read16 space vendorIdAddr

/-- The mask is complemented in 8 bits.
Source: `sys/pci.cpp` `pci_function::get_header_type`
Kind: D -/
def getHeaderType : ℕ := f.read8 space headerTypeAddr &&& (2 ^ 8 - 1 - headerMultifuncMask)

/-- True of an absent function.
Source: `sys/pci.cpp` `pci_function::operator bool`
Kind: D -/
def toBool : Bool := f.getVendorId space = 0xffff

/-- Source: `sys/pci.cpp` `pci_function::is_multifunc`
Kind: D -/
def isMultifunc : Bool := f.read8 space headerTypeAddr &&& headerMultifuncMask ≠ 0

/-- Source: `sys/pci.cpp` `pci_function::is_bridge`
Kind: D -/
def isBridge : Bool := f.getHeaderType space = headerTypeBridge

end PciFunction

/-! ## The enumeration -/

variable (space : ConfigSpace)

/-- The inner loop's body; `none` is the `kabort`.
Source: `sys/pci.cpp` `enumerate_bus`
Kind: D -/
def enumerateFunc (bus device : ℕ) (devices : List PciFunction) (func : ℕ) :
    Option (List PciFunction) :=
  let dev : PciFunction := ⟨bus, device, func⟩
  if dev.toBool space then some devices
  else if dev.isBridge space then none
  else some (devices ++ [⟨bus, device, func⟩])

/-- The outer loop's body.
Source: `sys/pci.cpp` `enumerate_bus`
Kind: D -/
def enumerateDevice (bus : ℕ) (devices : List PciFunction) (device : ℕ) : Option (List PciFunction) :=
  let dev : PciFunction := ⟨bus, device, 0⟩
  if dev.toBool space then some devices
  else
    let nfuncs := if dev.isMultifunc space then 8 else 1
    (List.range nfuncs).foldlM (enumerateFunc space bus device) devices

/-- Source: `sys/pci.cpp` `enumerate_bus`
Kind: D -/
def enumerateBus (bus : ℕ) (devices : List PciFunction) : Option (List PciFunction) :=
  (List.range 32).foldlM (enumerateDevice space bus) devices

/-- The body of the loop over the buses.
Source: `sys/pci.cpp` `enumerate_all_buses`
Kind: D -/
def enumerateFurtherBus (devices : List PciFunction) (func : ℕ) : Option (List PciFunction) :=
  let bus : PciFunction := ⟨0, 0, func⟩
  if !bus.toBool space then some devices else enumerateBus space func devices

/-- `devices` after it.
Source: `sys/pci.cpp` `enumerate_all_buses`, `pci_init`
Kind: D -/
def enumerateAllBuses : Option (List PciFunction) :=
  let bus : PciFunction := ⟨0, 0, 0⟩
  if !bus.isMultifunc space then enumerateBus space 0 []
  else (List.range 8).foldlM (enumerateFurtherBus space) []

/-! ## What should be found -/

/-- The registers say that the function is there: the vendor, in the low half of register 0, is not
`0xffff`.
Source: `sys/pci.hpp` `VENDOR_ID_ADDR`
Kind: D -/
def Present (bus device func : ℕ) : Prop := space bus device func 0 % 2 ^ 16 ≠ 0xffff

/-- The header type, in the third byte of register 3.
Source: `sys/pci.hpp` `HEADER_TYPE_ADDR`
Kind: D -/
def headerType (bus device func : ℕ) : ℕ := space bus device func 3 / 2 ^ 16 % 2 ^ 8

/-- The highest bit of the header type says that the device has more than one function.
Source: `sys/pci.hpp` `HEADER_MULTIFUNC_MASK`
Kind: D -/
def Multifunction (bus device func : ℕ) : Prop := 2 ^ 7 ≤ headerType space bus device func

instance (bus device func : ℕ) : Decidable (Present space bus device func) :=
  inferInstanceAs (Decidable (_ ≠ _))

instance (bus device func : ℕ) : Decidable (Multifunction space bus device func) :=
  inferInstanceAs (Decidable (_ ≤ _))

/-- No function is a bridge: the rest of the header type is 1 nowhere.
Source: `sys/pci.hpp` `HEADER_TYPE_BRIDGE`
Kind: D -/
def NoBridges : Prop :=
  ∀ bus device func, Present space bus device func → headerType space bus device func % 2 ^ 7 ≠ 1

/-- The buses to scan: bus 0 alone, or those of the functions of the device 0:0.
Source: `sys/pci.cpp` `enumerate_all_buses`
Kind: D -/
def MustScan (bus : ℕ) : Prop :=
  if Multifunction space 0 0 0 then bus < 8 ∧ Present space 0 0 bus else bus = 0

/-- The functions to look for: function 0 of each of the 32 devices, and the other seven where the header
type that is read for function 0 says that there are more.
Source: `sys/pci.cpp` `enumerate_bus`
Kind: D
Fidelity: `enumerate_bus` looks for the other seven only where function 0 is there -/
def Considered (f : PciFunction) : Prop :=
  f.device < 32 ∧ (f.func = 0 ∨ f.func < 8 ∧ Multifunction space f.bus f.device 0)

/-- The enumeration returns, with the present functions of the buses to scan, and each of them once.
Source: `sys/pci.cpp` `enumerate_all_buses`
Kind: D -/
def FindsPresent : Prop :=
  ∃ devices, enumerateAllBuses space = some devices ∧ devices.Nodup ∧
    ∀ f, f ∈ devices ↔ MustScan space f.bus ∧ Considered space f ∧
      Present space f.bus f.device f.func

/-- There is no device on the bus: none has a function 0.
Source: `sys/pci.cpp` `enumerate_bus`
Kind: D -/
def NoDevices (bus : ℕ) : Prop := ∀ device < 32, ¬ Present space bus device 0

instance (bus : ℕ) : Decidable (NoDevices space bus) := inferInstanceAs (Decidable (∀ _ < _, _))

/-- No function of the bus is stranded: where function 0 is absent and the header type that is read for
it (all ones, say) has the bit for more functions, no other function is there.
Source: `sys/pci.cpp` `enumerate_bus`
Kind: D -/
def NoneStranded (bus : ℕ) : Prop :=
  ∀ device < 32, ¬ Present space bus device 0 → Multifunction space bus device 0 →
    ∀ func < 8, ¬ Present space bus device func

instance (bus : ℕ) : Decidable (NoneStranded space bus) := inferInstanceAs (Decidable (∀ _ < _, _))

/-- The spaces that the code handles.
Source: `sys/pci.cpp` `enumerate_all_buses`, `enumerate_bus`
Kind: D -/
def Enumerable : Prop :=
  if Multifunction space 0 0 0 then
    ∀ bus < 8, NoDevices space bus ∧ (Present space 0 0 bus → NoneStranded space bus)
  else NoneStranded space 0

instance : Decidable (Enumerable space) :=
  inferInstanceAs (Decidable (ite (Multifunction space 0 0 0)
    (∀ bus < 8, NoDevices space bus ∧ (Present space 0 0 bus → NoneStranded space bus)) (NoneStranded space 0)))

/-! ## Reading -/

variable {space} {bus device func offset : ℕ}

/-- The fields of the address do not overlap. Source: `sys/pci.cpp` `pci_set_addr`. Kind: L -/
theorem pciSetAddr_eq (hbus : bus < 2 ^ 8) (hdevice : device < 2 ^ 5) (hfunc : func < 2 ^ 3)
    (hoffset : offset < 2 ^ 8) :
    pciSetAddr bus device func offset
      = 2 ^ 31 + bus * 2 ^ 16 + device * 2 ^ 11 + func * 2 ^ 8 + offset := by
  have h16 := Nat.two_pow_add_eq_or_of_lt (show bus * 2 ^ 16 < 2 ^ 31 by omega) 1
  have h11 := Nat.two_pow_add_eq_or_of_lt (show device * 2 ^ 11 < 2 ^ 16 by omega) (2 ^ 15 + bus)
  have h8 := Nat.two_pow_add_eq_or_of_lt (show func * 2 ^ 8 < 2 ^ 11 by omega)
    (2 ^ 5 * (2 ^ 15 + bus) + device)
  have h0 := Nat.two_pow_add_eq_or_of_lt hoffset
    (2 ^ 3 * (2 ^ 5 * (2 ^ 15 + bus) + device) + func)
  unfold pciSetAddr
  rw [Nat.shiftLeft_eq, Nat.shiftLeft_eq, Nat.shiftLeft_eq,
    show 0x80000000 = 2 ^ 31 * 1 from rfl, ← h16,
    show 2 ^ 31 * 1 + bus * 2 ^ 16 = 2 ^ 16 * (2 ^ 15 + bus) by omega, ← h11,
    show 2 ^ 16 * (2 ^ 15 + bus) + device * 2 ^ 11 = 2 ^ 11 * (2 ^ 5 * (2 ^ 15 + bus) + device) by
      omega, ← h8,
    show 2 ^ 11 * (2 ^ 5 * (2 ^ 15 + bus) + device) + func * 2 ^ 8
      = 2 ^ 8 * (2 ^ 3 * (2 ^ 5 * (2 ^ 15 + bus) + device) + func) by omega, ← h0]
  omega

/-- The address leads to the register. Source: `sys/pci.cpp` `pci_set_addr`. Kind: L -/
theorem dataPort_pciSetAddr (hbus : bus < 2 ^ 8) (hdevice : device < 2 ^ 5) (hfunc : func < 2 ^ 3)
    (hoffset : offset < 2 ^ 8) :
    dataPort space (pciSetAddr bus device func offset) = space bus device func (offset / 4) := by
  unfold dataPort
  rw [pciSetAddr_eq hbus hdevice hfunc hoffset]
  congr 1 <;> omega

/-- The conversion is true where the function is absent.
Source: `sys/pci.cpp` `pci_function::operator bool`
Kind: L -/
theorem toBool_eq_true_iff (hbus : bus < 2 ^ 8) (hdevice : device < 2 ^ 5) (hfunc : func < 2 ^ 3) :
    PciFunction.toBool space ⟨bus, device, func⟩ = true ↔ ¬ Present space bus device func := by
  unfold PciFunction.toBool PciFunction.getVendorId PciFunction.read16 pciRead16 Present
  rw [dataPort_pciSetAddr hbus hdevice hfunc (by decide), decide_eq_true_eq, not_not]
  rfl

/-- The byte with the header type. Source: `sys/pci.cpp` `pci_read_8`. Kind: L -/
theorem read8_headerTypeAddr (hbus : bus < 2 ^ 8) (hdevice : device < 2 ^ 5) (hfunc : func < 2 ^ 3) :
    PciFunction.read8 space ⟨bus, device, func⟩ PciFunction.headerTypeAddr
      = headerType space bus device func := by
  unfold PciFunction.read8 pciRead8 headerType
  rw [dataPort_pciSetAddr hbus hdevice hfunc (by decide)]
  rfl

/-- Source: `sys/pci.cpp` `pci_function::is_multifunc`. Kind: L -/
theorem isMultifunc_eq_true_iff (hbus : bus < 2 ^ 8) (hdevice : device < 2 ^ 5)
    (hfunc : func < 2 ^ 3) :
    PciFunction.isMultifunc space ⟨bus, device, func⟩ = true ↔
      Multifunction space bus device func := by
  have hlt : headerType space bus device func < 2 ^ 8 := Nat.mod_lt _ (by norm_num)
  have hbit : headerType space bus device func &&& 2 ^ 7
      = 2 ^ 7 * (headerType space bus device func / 2 ^ 7 % 2) := by
    rw [Nat.and_two_pow, Nat.testBit_eq_decide_div_mod_eq]
    rcases Nat.mod_two_eq_zero_or_one (headerType space bus device func / 2 ^ 7) with h | h
    · rw [h]
      rfl
    · rw [h]
      rfl
  unfold PciFunction.isMultifunc Multifunction
  rw [read8_headerTypeAddr hbus hdevice hfunc, decide_eq_true_eq,
    show PciFunction.headerMultifuncMask = 2 ^ 7 from rfl, hbit]
  omega

/-- Source: `sys/pci.cpp` `pci_function::is_bridge`. Kind: L -/
theorem isBridge_eq_true_iff (hbus : bus < 2 ^ 8) (hdevice : device < 2 ^ 5) (hfunc : func < 2 ^ 3) :
    PciFunction.isBridge space ⟨bus, device, func⟩ = true ↔
      headerType space bus device func % 2 ^ 7 = 1 := by
  unfold PciFunction.isBridge PciFunction.getHeaderType
  rw [read8_headerTypeAddr hbus hdevice hfunc, decide_eq_true_eq,
    show 2 ^ 8 - 1 - PciFunction.headerMultifuncMask = 2 ^ 7 - 1 from rfl,
    Nat.and_two_pow_sub_one_eq_mod]
  rfl

/-! ## What the loops find -/

/-- A loop whose turns only append. Source: none: infrastructure. Kind: L -/
theorem foldlM_append {α β : Type*} {l : List α} {step : List β → α → Option (List β)}
    {new : α → List β} (h : ∀ acc, ∀ a ∈ l, step acc a = some (acc ++ new a)) (acc : List β) :
    l.foldlM step acc = some (acc ++ l.flatMap new) := by
  induction l generalizing acc with
  | nil => simp
  | cons a l ih =>
      rw [List.foldlM_cons, h acc a List.mem_cons_self]
      show l.foldlM step (acc ++ new a) = _
      rw [ih fun acc b hb => h acc b (List.mem_cons_of_mem a hb), List.flatMap_cons,
        List.append_assoc]

variable (space)

/-- The functions of a device that `enumerate_bus` finds.
Source: `sys/pci.cpp` `enumerate_bus`
Kind: D -/
def deviceFunctions (bus device : ℕ) : List PciFunction :=
  if Present space bus device 0 then
    ((List.range (if Multifunction space bus device 0 then 8 else 1)).filter
      fun func => Present space bus device func).map fun func => ⟨bus, device, func⟩
  else []

/-- The functions of a bus that `enumerate_bus` finds.
Source: `sys/pci.cpp` `enumerate_bus`
Kind: D -/
def busFunctions (bus : ℕ) : List PciFunction := (List.range 32).flatMap (deviceFunctions space bus)

variable {space} {devices : List PciFunction} {f : PciFunction}

/-- One turn of the inner loop. Source: `sys/pci.cpp` `enumerate_bus`. Kind: L -/
theorem enumerateFunc_eq (hbridges : NoBridges space) (hbus : bus < 2 ^ 8) (hdevice : device < 2 ^ 5)
    (hfunc : func < 2 ^ 3) :
    enumerateFunc space bus device devices func
      = some (devices ++ if Present space bus device func then [⟨bus, device, func⟩] else []) := by
  have hbool : PciFunction.toBool space ⟨bus, device, func⟩ = true ↔ _ :=
    toBool_eq_true_iff hbus hdevice hfunc
  unfold enumerateFunc
  dsimp only
  by_cases hpresent : Present space bus device func
  · have hbridge : ¬ PciFunction.isBridge space ⟨bus, device, func⟩ = true := by
      rw [isBridge_eq_true_iff hbus hdevice hfunc]
      exact hbridges bus device func hpresent
    rw [if_neg fun h => hbool.mp h hpresent, if_neg hbridge, if_pos hpresent]
  · rw [if_pos (hbool.mpr hpresent), if_neg hpresent, List.append_nil]

/-- One turn of the outer loop. Source: `sys/pci.cpp` `enumerate_bus`. Kind: L -/
theorem enumerateDevice_eq (hbridges : NoBridges space) (hbus : bus < 2 ^ 8)
    (hdevice : device < 2 ^ 5) :
    enumerateDevice space bus devices device
      = some (devices ++ deviceFunctions space bus device) := by
  have hbool : PciFunction.toBool space ⟨bus, device, 0⟩ = true ↔ _ :=
    toBool_eq_true_iff hbus hdevice (by decide)
  have hmulti : PciFunction.isMultifunc space ⟨bus, device, 0⟩ = true ↔ _ :=
    isMultifunc_eq_true_iff hbus hdevice (by decide)
  unfold enumerateDevice deviceFunctions
  dsimp only
  by_cases hpresent : Present space bus device 0
  · rw [if_neg fun h => hbool.mp h hpresent, if_pos hpresent, if_congr hmulti rfl rfl]
    have hlt : ∀ func ∈ List.range (if Multifunction space bus device 0 then 8 else 1),
        func < 2 ^ 3 := by
      intro func hfunc
      have := List.mem_range.mp hfunc
      split at this <;> omega
    have hturn : ∀ acc, ∀ func ∈ List.range (if Multifunction space bus device 0 then 8 else 1),
        enumerateFunc space bus device acc func
          = some (acc ++ if Present space bus device func then [⟨bus, device, func⟩] else []) :=
      fun acc func hfunc => enumerateFunc_eq hbridges hbus hdevice (hlt func hfunc)
    refine (foldlM_append hturn devices).trans (congrArg (fun new => some (devices ++ new)) ?_)
    generalize List.range (if Multifunction space bus device 0 then 8 else 1) = l
    induction l with
    | nil => rfl
    | cons func l ih =>
        rw [List.flatMap_cons, ih, List.filter_cons]
        by_cases hfunc : Present space bus device func
        · simp only [hfunc, if_true, decide_true, List.map_cons, List.singleton_append]
        · simp only [hfunc, if_false, decide_false, Bool.false_eq_true, List.nil_append]
  · rw [if_pos (hbool.mpr hpresent), if_neg hpresent, List.append_nil]

/-- **One bus**: every function of it that there is to find.
Source: `sys/pci.cpp` `enumerate_bus`
Kind: P -/
theorem enumerateBus_eq (hbridges : NoBridges space) (hbus : bus < 2 ^ 8) :
    enumerateBus space bus devices = some (devices ++ busFunctions space bus) := by
  have hturn : ∀ acc, ∀ device ∈ List.range 32,
      enumerateDevice space bus acc device = some (acc ++ deviceFunctions space bus device) :=
    fun acc device hdevice => enumerateDevice_eq hbridges hbus (List.mem_range.mp hdevice)
  exact foldlM_append hturn devices

/-- The functions that are found on a bus. Source: `sys/pci.cpp` `enumerate_bus`. Kind: L -/
theorem mem_busFunctions : f ∈ busFunctions space bus ↔
    f.bus = bus ∧ Considered space f ∧ Present space f.bus f.device 0 ∧
      Present space f.bus f.device f.func := by
  unfold busFunctions deviceFunctions Considered
  simp only [List.mem_flatMap, List.mem_range]
  constructor
  · rintro ⟨device, hdevice, hmem⟩
    by_cases hpresent : Present space bus device 0
    · rw [if_pos hpresent] at hmem
      obtain ⟨func, hfunc, rfl⟩ := List.mem_map.mp hmem
      obtain ⟨hrange, hthere⟩ := List.mem_filter.mp hfunc
      have hlt := List.mem_range.mp hrange
      refine ⟨rfl, ⟨hdevice, ?_⟩, hpresent, of_decide_eq_true hthere⟩
      split at hlt
      · rename_i hmulti
        exact Or.inr ⟨hlt, hmulti⟩
      · exact Or.inl (Nat.lt_one_iff.mp hlt)
    · rw [if_neg hpresent] at hmem
      cases hmem
  · rintro ⟨rfl, ⟨hdevice, hfunc⟩, hpresent, hthere⟩
    refine ⟨f.device, hdevice, ?_⟩
    rw [if_pos hpresent]
    refine List.mem_map.mpr ⟨f.func, List.mem_filter.mpr ⟨List.mem_range.mpr ?_, ?_⟩, rfl⟩
    · rcases hfunc with h0 | ⟨hlt, hmulti⟩
      · split <;> omega
      · rwa [if_pos hmulti]
    · exact decide_eq_true hthere

/-- No function of a bus is found twice. Source: `sys/pci.cpp` `enumerate_bus`. Kind: L -/
theorem nodup_busFunctions (bus : ℕ) : (busFunctions space bus).Nodup := by
  unfold busFunctions
  rw [List.nodup_flatMap]
  constructor
  · intro device _
    unfold deviceFunctions
    split
    · refine (List.nodup_range.filter _).map fun a b hab => ?_
      exact (PciFunction.mk.inj hab).2.2
    · exact List.nodup_nil
  · refine List.nodup_range.imp fun {a b} hab f hfa hfb => hab ?_
    have hdev : ∀ device, f ∈ deviceFunctions space bus device → f.device = device := by
      intro device hf
      unfold deviceFunctions at hf
      split at hf
      · obtain ⟨func, -, rfl⟩ := List.mem_map.mp hf
        rfl
      · cases hf
    exact (hdev a hfa).symm.trans (hdev b hfb)

/-- A bus without devices has no functions that are found. Source: `sys/pci.cpp` `enumerate_bus`. Kind: L -/
theorem not_mem_busFunctions (hno : NoDevices space bus) : f ∉ busFunctions space bus := by
  intro hf
  obtain ⟨rfl, ⟨hdevice, -⟩, hzero, -⟩ := mem_busFunctions.mp hf
  exact hno f.device hdevice hzero

/-- Function 0 of a device is found. Source: `sys/pci.cpp` `enumerate_bus`. Kind: L -/
theorem zero_mem_busFunctions (hdevice : device < 32) (hpresent : Present space bus device 0) :
    (⟨bus, device, 0⟩ : PciFunction) ∈ busFunctions space bus :=
  mem_busFunctions.mpr ⟨rfl, ⟨hdevice, Or.inl rfl⟩, hpresent, hpresent⟩

/-- **One bus is right exactly when** none of its functions is stranded.
Source: `sys/pci.cpp` `enumerate_bus`
Kind: P -/
theorem busFunctions_exactlyWhen (space : ConfigSpace) (bus : ℕ) :
    (∀ f, f ∈ busFunctions space bus ↔
      f.bus = bus ∧ Considered space f ∧ Present space f.bus f.device f.func) ↔ NoneStranded space bus := by
  constructor
  · intro hmem device hdevice habsent hmulti func hfunc hthere
    have hf := (hmem ⟨bus, device, func⟩).mpr ⟨rfl, ⟨hdevice, Or.inr ⟨hfunc, hmulti⟩⟩, hthere⟩
    exact habsent (mem_busFunctions.mp hf).2.2.1
  · intro hnone f
    rw [mem_busFunctions]
    constructor
    · rintro ⟨hbus, hconsidered, -, hthere⟩
      exact ⟨hbus, hconsidered, hthere⟩
    · rintro ⟨rfl, hconsidered, hthere⟩
      refine ⟨rfl, hconsidered, ?_, hthere⟩
      obtain ⟨hdevice, hzero | ⟨hfunc, hmulti⟩⟩ := hconsidered
      · rwa [hzero] at hthere
      · by_contra habsent
        exact hnone f.device hdevice habsent hmulti f.func hfunc hthere

/-! ## All buses -/

/-- With the conversion taken the other way round, the buses of the absent functions are scanned.
Source: `sys/pci.cpp` `enumerate_all_buses`
Kind: L -/
theorem enumerateAllBuses_eq (hbridges : NoBridges space) :
    enumerateAllBuses space = some (if Multifunction space 0 0 0 then
      (List.range 8).flatMap fun bus => if Present space 0 0 bus then [] else busFunctions space bus
      else busFunctions space 0) := by
  have hmulti : PciFunction.isMultifunc space ⟨0, 0, 0⟩ = true ↔ _ :=
    isMultifunc_eq_true_iff (by decide) (by decide) (by decide)
  unfold enumerateAllBuses
  dsimp only
  by_cases h : Multifunction space 0 0 0
  · rw [hmulti.mpr h, if_pos h, Bool.not_true, if_neg Bool.false_ne_true]
    have hturn : ∀ acc, ∀ bus ∈ List.range 8, enumerateFurtherBus space acc bus
        = some (acc ++ if Present space 0 0 bus then [] else busFunctions space bus) := by
      intro acc bus hbus
      have hlt : bus < 2 ^ 3 := List.mem_range.mp hbus
      have hbool : PciFunction.toBool space ⟨0, 0, bus⟩ = true ↔ _ :=
        toBool_eq_true_iff (by decide) (by decide) hlt
      unfold enumerateFurtherBus
      dsimp only
      by_cases hpresent : Present space 0 0 bus
      · rw [Bool.eq_false_iff.mpr fun h => hbool.mp h hpresent, if_pos hpresent, List.append_nil]
        rfl
      · rw [hbool.mpr hpresent, if_neg hpresent]
        exact enumerateBus_eq hbridges (by omega)
    exact foldlM_append hturn []
  · rw [Bool.eq_false_iff.mpr fun h' => h (hmulti.mp h'), if_neg h]
    exact enumerateBus_eq hbridges (by decide)

/-- What is scanned when 0:0 has more than one function. Source: `sys/pci.cpp` `enumerate_all_buses`. Kind: L -/
theorem mem_scanned : (f ∈ (List.range 8).flatMap fun bus =>
    if Present space 0 0 bus then [] else busFunctions space bus) ↔
      f.bus < 8 ∧ ¬ Present space 0 0 f.bus ∧ f ∈ busFunctions space f.bus := by
  rw [List.mem_flatMap]
  constructor
  · rintro ⟨bus, hbus, hmem⟩
    by_cases hthere : Present space 0 0 bus
    · rw [if_pos hthere] at hmem
      exact absurd hmem List.not_mem_nil
    · rw [if_neg hthere] at hmem
      obtain rfl : f.bus = bus := (mem_busFunctions.mp hmem).1
      exact ⟨List.mem_range.mp hbus, hthere, hmem⟩
  · rintro ⟨hbus, hthere, hmem⟩
    refine ⟨f.bus, List.mem_range.mpr hbus, ?_⟩
    rwa [if_neg hthere]

/-- **The enumeration is right exactly when** no function of a bus to scan is stranded and, where 0:0.0
says that it is not the only function of its device, there is no device on the first eight buses.
Source: `sys/pci.cpp` `enumerate_all_buses`, `enumerate_bus`
Kind: P
Hyps: `hbridges`: no PCI-to-PCI bridge, for which the code aborts -/
theorem enumerateAllBuses_exactlyWhen (space : ConfigSpace) (hbridges : NoBridges space) :
    FindsPresent space ↔ Enumerable space := by
  have hall := enumerateAllBuses_eq hbridges
  unfold FindsPresent MustScan Enumerable
  by_cases hmulti : Multifunction space 0 0 0
  · rw [if_pos hmulti] at hall
    simp only [if_pos hmulti]
    constructor
    · rintro ⟨devices, heq, -, hmem⟩ bus hbus
      obtain rfl := Option.some.inj (hall.symm.trans heq)
      simp only [mem_scanned] at hmem
      refine ⟨fun device hdevice hpresent => ?_, fun hthere device hdevice _ hmore func hfunc hpresent => ?_⟩
      · have hzero := zero_mem_busFunctions hdevice hpresent
        have hfunc := hmem ⟨bus, device, 0⟩
        by_cases hthere : Present space 0 0 bus
        · -- a bus that must be scanned and is not
          exact (hfunc.mpr ⟨⟨hbus, hthere⟩, ⟨hdevice, Or.inl rfl⟩, hpresent⟩).2.1 hthere
        · -- a bus that is scanned and must not be
          exact hthere (hfunc.mp ⟨hbus, hthere, hzero⟩).1.2
      · have hconsidered : Considered space ⟨bus, device, func⟩ := ⟨hdevice, Or.inr ⟨hfunc, hmore⟩⟩
        exact ((hmem ⟨bus, device, func⟩).mpr ⟨⟨hbus, hthere⟩, hconsidered, hpresent⟩).2.1 hthere
    · intro hno
      refine ⟨_, hall, ?_, fun f => ?_⟩
      · rw [List.nodup_flatMap]
        refine ⟨fun bus _ => ?_, List.nodup_range.imp fun {a b} hab f hfa hfb => hab ?_⟩
        · split
          · exact List.nodup_nil
          · exact nodup_busFunctions bus
        · have hbus : ∀ bus, (f ∈ if Present space 0 0 bus then [] else busFunctions space bus) → f.bus = bus := by
            intro bus hf
            split at hf
            · exact absurd hf List.not_mem_nil
            · exact (mem_busFunctions.mp hf).1
          exact (hbus a hfa).symm.trans (hbus b hfb)
      · rw [mem_scanned]
        constructor
        · rintro ⟨hbus, -, hmem⟩
          exact absurd hmem (not_mem_busFunctions (hno f.bus hbus).1)
        · rintro ⟨⟨hbus, hthere⟩, hconsidered, hpresent⟩
          obtain ⟨hdevices, hstranded⟩ := hno f.bus hbus
          have hmem := ((busFunctions_exactlyWhen space f.bus).mpr (hstranded hthere) f).mpr
            ⟨rfl, hconsidered, hpresent⟩
          exact absurd hmem (not_mem_busFunctions hdevices)
  · rw [if_neg hmulti] at hall
    simp only [if_neg hmulti]
    rw [← busFunctions_exactlyWhen]
    constructor
    · rintro ⟨devices, heq, -, hmem⟩
      obtain rfl := Option.some.inj (hall.symm.trans heq)
      exact hmem
    · intro hmem
      exact ⟨_, hall, nodup_busFunctions 0, hmem⟩

/-- A host bridge at 0:0.0 and nothing else: every other function reads all ones.
Source: `sys/pci.cpp` `pci_read_32`
Kind: D -/
def hostBridge (headerType : ℕ) : ConfigSpace := fun bus device func register =>
  if bus = 0 ∧ device = 0 ∧ func = 0 then
    if register = 0 then 0x12378086 else if register = 3 then headerType * 2 ^ 16 else 0
  else 0xffffffff

/-- It is not a bridge between buses. Source: `sys/pci.cpp` `pci_function::is_bridge`. Kind: L -/
theorem noBridges_hostBridge {t : ℕ} (ht : t % 2 ^ 7 ≠ 1) : NoBridges (hostBridge t) := by
  intro bus device func hpresent
  unfold Present hostBridge at hpresent
  unfold headerType hostBridge
  by_cases hzero : bus = 0 ∧ device = 0 ∧ func = 0
  · simp only [if_pos hzero, OfNat.ofNat_ne_zero, if_false, if_true]
    omega
  · rw [if_neg hzero] at hpresent
    exact absurd rfl hpresent

/-- With the bit for more functions set, its bus is the one that is skipped.
Source: `sys/pci.cpp` `enumerate_all_buses`
Kind: P -/
theorem not_findsPresent_hostBridge :
    ¬ ∀ space : ConfigSpace, NoBridges space → FindsPresent space := by
  intro hclaim
  obtain ⟨devices, heq, -, hmem⟩ := hclaim (hostBridge 0x80) (noBridges_hostBridge (by decide))
  have hnone : enumerateAllBuses (hostBridge 0x80) = some [] := by decide +kernel
  obtain rfl := Option.some.inj (hnone.symm.trans heq)
  refine List.not_mem_nil ((hmem ⟨0, 0, 0⟩).mpr ⟨?_, ⟨by decide, Or.inl rfl⟩, by decide⟩)
  unfold MustScan
  rw [if_pos (by decide)]
  exact ⟨by decide, by decide⟩

/-- Without it, it is found. Source: `sys/pci.cpp` `enumerate_all_buses`. Kind: P -/
theorem findsPresent_hostBridge : FindsPresent (hostBridge 0) :=
  (enumerateAllBuses_exactlyWhen (hostBridge 0) (noBridges_hostBridge (by decide))).mpr (by decide +kernel)

end Pci

end EbbRT
