import EbbRT.Lib.Walk
import EbbRT.Pci.ConfigAccess

/-!
# The list of capabilities

A function's capabilities are linked through its configuration space: a byte with the kind, behind it the
position of the next one, and 0 at the end. `find_capability` follows the links and counts nothing, so it
does not come back from links that go in a circle without the capability.
`findCapability_exactlyWhen`: these are the only contents for which it is wrong.
-/

namespace EbbRT

namespace Pci

open EbbRT.Lib

/-! ## The code -/

/-- Source: `sys/pci.hpp` `CAPABILITIES_PTR_ADDR`
Kind: D -/
def capabilitiesPtrAddr : ℕ := 0x34

/-- The loop; `none` is that it has not come to an end within so many turns.
Source: `sys/pci.cpp` `pci_device::find_capability`
Kind: D -/
def findCapabilityLoop (space : ConfigSpace) (f : PciFunction) (capability : ℕ) : ℕ → ℕ → Option ℕ
  | 0, _ => none
  | fuel + 1, ptr =>
      if ptr ≠ 0 then
        let cap := f.read8 space ptr
        if cap = capability then some ptr
        else findCapabilityLoop space f capability fuel (f.read8 space ((ptr + 1) % 2 ^ 8))
      else some 0xFF

/-- Source: `sys/pci.cpp` `pci_device::find_capability`
Kind: D -/
def findCapability (space : ConfigSpace) (f : PciFunction) (capability fuel : ℕ) : Option ℕ :=
  findCapabilityLoop space f capability fuel (f.read8 space capabilitiesPtrAddr)

/-! ## What should be found -/

/-- The next position in the list.
Source: `sys/pci.cpp` `pci_device::find_capability`
Kind: D -/
def nextPosition (space : ConfigSpace) (f : PciFunction) (ptr : ℕ) : ℕ :=
  byteAt space f ((ptr + 1) % 2 ^ 8)

/-- The positions in the list; behind the end they mean nothing.
Source: `sys/pci.cpp` `pci_device::find_capability`
Kind: D -/
def position (space : ConfigSpace) (f : PciFunction) (n : ℕ) : ℕ :=
  (nextPosition space f)^[n] (byteAt space f capabilitiesPtrAddr)

/-- The first capability of the kind is the one at position `n`, before the end of the list.
Source: `sys/pci.cpp` `pci_device::find_capability`
Kind: D -/
def IsFirst (space : ConfigSpace) (f : PciFunction) (capability n : ℕ) : Prop :=
  (∀ m ≤ n, position space f m ≠ 0) ∧ byteAt space f (position space f n) = capability ∧
    ∀ m < n, byteAt space f (position space f m) ≠ capability

/-- The search comes to an end, with the first position of the kind, or with `0xFF` if there is none.
Source: `sys/pci.cpp` `pci_device::find_capability`
Kind: D -/
def FindsFirst (space : ConfigSpace) (f : PciFunction) (capability : ℕ) : Prop :=
  ∃ fuel r, findCapability space f capability fuel = some r ∧
    ((∃ n, IsFirst space f capability n ∧ r = position space f n) ∨
      (¬ ∃ n, IsFirst space f capability n) ∧ r = 0xFF)

/-- The loop ends at the position: it is the end of the list, or has the kind.
Source: `sys/pci.cpp` `pci_device::find_capability`
Kind: D -/
def Stops (space : ConfigSpace) (f : PciFunction) (capability ptr : ℕ) : Prop :=
  ptr = 0 ∨ byteAt space f ptr = capability

instance (space : ConfigSpace) (f : PciFunction) (capability ptr : ℕ) :
    Decidable (Stops space f capability ptr) := inferInstanceAs (Decidable (_ ∨ _))

section Search

variable {space : ConfigSpace} {f : PciFunction} {capability ptr n fuel : ℕ}

/-- Source: none: infrastructure. Kind: L -/
theorem byteAt_lt (space : ConfigSpace) (f : PciFunction) (o : ℕ) : byteAt space f o < 2 ^ 8 :=
  Nat.mod_lt _ (by norm_num)

/-- Source: none: infrastructure. Kind: L -/
theorem position_succ (space : ConfigSpace) (f : PciFunction) (n : ℕ) :
    position space f (n + 1) = nextPosition space f (position space f n) :=
  Function.iterate_succ_apply' _ _ _

/-- Source: none: infrastructure. Kind: L -/
theorem position_lt (space : ConfigSpace) (f : PciFunction) (n : ℕ) : position space f n < 2 ^ 8 := by
  cases n with
  | zero => exact byteAt_lt space f _
  | succ n =>
      rw [position_succ]
      exact byteAt_lt space f _

/-- One turn. Source: `sys/pci.cpp` `pci_device::find_capability`. Kind: L -/
theorem findCapabilityLoop_succ (hf : f.Addressable) (hptr : ptr < 2 ^ 8) :
    findCapabilityLoop space f capability (fuel + 1) ptr =
      if ptr = 0 then some 0xFF
      else if byteAt space f ptr = capability then some ptr
      else findCapabilityLoop space f capability fuel (nextPosition space f ptr) := by
  have hnext : (ptr + 1) % 2 ^ 8 < 2 ^ 8 := Nat.mod_lt _ (by norm_num)
  rw [findCapabilityLoop, read8_eq hf hptr, read8_eq hf hnext, ite_not]
  rfl

/-- **Up to the end** the loop goes from position to position. By induction on the positions before.
Source: `sys/pci.cpp` `pci_device::find_capability`
Kind: L -/
theorem findCapability_add (hf : f.Addressable)
    (h : ∀ m < n, ¬ Stops space f capability (position space f m)) (fuel : ℕ) :
    findCapability space f capability (fuel + n) =
      findCapabilityLoop space f capability fuel (position space f n) := by
  induction n generalizing fuel with
  | zero =>
      unfold findCapability
      rw [read8_eq hf (by decide)]
      rfl
  | succ n ih =>
      have hgo := not_or.mp (h n (Nat.lt_succ_self n))
      have hrest := ih (fun m hm => h m (hm.trans (Nat.lt_succ_self n))) (fuel + 1)
      rw [Nat.add_right_comm] at hrest
      rw [← Nat.add_assoc, hrest, findCapabilityLoop_succ hf (position_lt space f n), if_neg hgo.1,
        if_neg hgo.2, position_succ]

/-- The loop at the first position that it stops at. Source: `sys/pci.cpp` `pci_device::find_capability`.
Kind: L -/
theorem findCapability_stop (hf : f.Addressable)
    (hbefore : ∀ m < n, ¬ Stops space f capability (position space f m))
    (hstop : Stops space f capability (position space f n)) :
    findCapability space f capability (1 + n) =
      some (if position space f n = 0 then 0xFF else position space f n) := by
  rw [findCapability_add hf hbefore, findCapabilityLoop_succ hf (position_lt space f n)]
  by_cases hzero : position space f n = 0
  · rw [if_pos hzero, if_pos hzero]
  · rw [if_neg hzero, if_neg hzero, if_pos (hstop.resolve_left hzero)]

/-- Without such a position it does not end. Source: `sys/pci.cpp` `pci_device::find_capability`. Kind: L -/
theorem findCapability_none (hf : f.Addressable)
    (h : ∀ m, ¬ Stops space f capability (position space f m)) (fuel : ℕ) :
    findCapability space f capability fuel = none := by
  have hadd := findCapability_add (n := fuel) hf (fun m _ => h m) 0
  rw [Nat.zero_add] at hadd
  rw [hadd, findCapabilityLoop]

/-- **The first stop** is the end of the list without the capability, or the capability's first position.
Source: `sys/pci.cpp` `pci_device::find_capability`
Kind: L -/
theorem isFirst_iff (hbefore : ∀ m < n, ¬ Stops space f capability (position space f m))
    (hstop : Stops space f capability (position space f n)) (k : ℕ) :
    IsFirst space f capability k ↔ k = n ∧ position space f n ≠ 0 := by
  constructor
  · rintro ⟨hlist, hkind, hfirst⟩
    have hkn : k = n := by
      rcases Nat.lt_trichotomy k n with hlt | heq | hlt
      · exact absurd (Or.inr hkind) (hbefore k hlt)
      · exact heq
      · rcases hstop with hzero | hkind'
        · exact absurd hzero (hlist n hlt.le)
        · exact absurd hkind' (hfirst n hlt)
    subst hkn
    exact ⟨rfl, hlist k le_rfl⟩
  · rintro ⟨rfl, hne⟩
    refine ⟨fun m hm => ?_, hstop.resolve_left hne, fun m hm => (not_or.mp (hbefore m hm)).2⟩
    rcases Nat.lt_or_eq_of_le hm with hlt | rfl
    · exact (not_or.mp (hbefore m hlt)).1
    · exact hne

/-- **The search for a capability** comes to an end, and is right, exactly when the list does or has the
capability: not when it goes in a circle without it.
Source: `sys/pci.cpp` `pci_device::find_capability`
Kind: P
Hyps: `hf`: the widths of bus, device and function -/
theorem findCapability_exactlyWhen (space : ConfigSpace) (f : PciFunction) (capability : ℕ)
    (hf : f.Addressable) : FindsFirst space f capability ↔
      (∃ n, position space f n = 0) ∨ ∃ n, byteAt space f (position space f n) = capability := by
  rw [← exists_or]
  constructor
  · rintro ⟨fuel, r, hfound, -⟩
    by_contra hnever
    rw [findCapability_none hf (fun m hm => hnever ⟨m, hm⟩) fuel] at hfound
    cases hfound
  · intro hstop
    have hbefore : ∀ m < Nat.find hstop, ¬ Stops space f capability (position space f m) :=
      fun m hm => Nat.find_min hstop hm
    have hat : Stops space f capability (position space f (Nat.find hstop)) := Nat.find_spec hstop
    generalize Nat.find hstop = n at hbefore hat
    refine ⟨1 + n, _, findCapability_stop hf hbefore hat, ?_⟩
    by_cases hzero : position space f n = 0
    · rw [if_pos hzero]
      refine Or.inr ⟨fun ⟨k, hk⟩ => ?_, rfl⟩
      exact ((isFirst_iff hbefore hat k).mp hk).2 hzero
    · rw [if_neg hzero]
      exact Or.inl ⟨n, (isFirst_iff hbefore hat n).mpr ⟨rfl, hzero⟩, rfl⟩

/-- **256 turns are enough**: a search that comes to an end at all has done so by then.
Source: `sys/pci.cpp` `pci_device::find_capability`
Kind: P -/
theorem findCapability_bounded (hf : f.Addressable)
    (h : ∃ n, Stops space f capability (position space f n)) :
    ∃ r, findCapability space f capability 256 = some r := by
  have hS : ∀ n, (nextPosition space f)^[n] (byteAt space f capabilitiesPtrAddr) ∈ Finset.range 256 :=
    fun n => Finset.mem_range.mpr (position_lt space f n)
  obtain ⟨k, hk, hstop⟩ := exists_lt_card hS h
  rw [Finset.card_range] at hk
  have hle : Nat.find h ≤ k := Nat.find_min' h hstop
  have hadd := findCapability_add hf (fun m hm => Nat.find_min h hm) (256 - Nat.find h)
  obtain ⟨fuel, hfuel⟩ : ∃ fuel, 256 - Nat.find h = fuel + 1 := ⟨255 - Nat.find h, by omega⟩
  rw [Nat.sub_add_cancel (by omega), hfuel, findCapabilityLoop_succ hf (position_lt space f _)] at hadd
  by_cases hzero : position space f (Nat.find h) = 0
  · rw [if_pos hzero] at hadd
    exact ⟨_, hadd⟩
  · rw [if_neg hzero, if_pos ((Nat.find_spec h).resolve_left hzero)] at hadd
    exact ⟨_, hadd⟩

/-- A function with one capability at 0x40, which `next` says is followed by the one at `next`.
Source: none: infrastructure
Kind: D -/
def oneCapability (kind next : ℕ) : ConfigSpace := fun _ _ _ register =>
  if register = 0x34 / 4 then 0x40 else if register = 0x40 / 4 then kind + 2 ^ 8 * next else 0

/-- The capability for MSI-X, and the end. Source: `sys/pci.cpp` `pci_device::msix_enable`. Kind: C -/
theorem findCapability_exactlyWhen_msix : FindsFirst (oneCapability 0x11 0) ⟨0, 1, 0⟩ 0x11 :=
  (findCapability_exactlyWhen (oneCapability 0x11 0) ⟨0, 1, 0⟩ 0x11 (by decide)).mpr
    (Or.inl ⟨1, by decide +kernel⟩)

/-- A capability that is followed by itself. Source: `sys/pci.cpp` `pci_device::find_capability`. Kind: C -/
theorem findCapability_not_always :
    ¬ ∀ (space : ConfigSpace) (f : PciFunction) (capability : ℕ), f.Addressable →
      FindsFirst space f capability := by
  intro hall
  obtain ⟨fuel, r, hfound, -⟩ := hall (oneCapability 0x05 0x40) ⟨0, 1, 0⟩ 0x11 (by decide)
  have hstay : ∀ n, position (oneCapability 0x05 0x40) ⟨0, 1, 0⟩ n = 0x40 := by
    intro n
    induction n with
    | zero => decide +kernel
    | succ n ih =>
        rw [position_succ, ih]
        decide +kernel
  have hnever : ∀ m, ¬ Stops (oneCapability 0x05 0x40) ⟨0, 1, 0⟩ 0x11
      (position (oneCapability 0x05 0x40) ⟨0, 1, 0⟩ m) := by
    intro m
    rw [hstay m]
    decide +kernel
  rw [findCapability_none (by decide) hnever fuel] at hfound
  cases hfound

end Search

end Pci

end EbbRT
