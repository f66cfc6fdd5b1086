import EbbRT.Mem.Pfn

/-!
# The two passes over the memory map

The firmware's memory map is a list of entries, of which those of `TYPE_RAM` are usable. The first
1 GB is mapped when `kmain` starts, so it hands the usable memory to the early page allocator in two
passes: what lies below 1 GB and above the kernel, and, when the tables map everything, the rest. Each
pass cuts a copy of an entry down with `trim_below` and `trim_above`, which leave an entry alone that
does not reach the bound. `bootPasses_handOver`: together the passes hand over every usable byte behind
the kernel, and each of them once.
-/

namespace EbbRT

namespace E820

/-! ## The code -/

/-- Source: `sys/e820.hpp` `e820_entry`
Kind: D -/
structure E820Entry where
  addr : ℕ
  length : ℕ
  type : ℕ
  deriving DecidableEq, Repr

/-- Source: `sys/e820.hpp` `e820_entry::TYPE_RAM`
Kind: D -/
def typeRam : ℕ := 1

namespace E820Entry

/-- `addr + length`, in 64 bits.
Source: `sys/e820.hpp` `e820_entry`
Kind: D -/
def stop (e : E820Entry) : ℕ := (e.addr + e.length) % word

/-- Source: `sys/e820.hpp` `e820_entry::trim_below`
Kind: D -/
def trimBelow (e : E820Entry) (newAddr : ℕ) : E820Entry :=
  if e.addr > newAddr ∨ e.stop < newAddr then e
  else { e with length := wsub e.length (wsub newAddr e.addr), addr := newAddr }

/-- Source: `sys/e820.hpp` `e820_entry::trim_above`
Kind: D -/
def trimAbove (e : E820Entry) (newAddr : ℕ) : E820Entry :=
  if e.addr > newAddr ∨ e.stop < newAddr then e
  else { e with length := wsub e.length (wsub e.stop newAddr) }

end E820Entry

/-- What the passes call.
Source: `sys/main.cpp` `kmain`
Kind: D -/
inductive Call
  | earlyFreeMemoryRange (begin length : ℕ)
  | earlyMapMemory (addr length : ℕ)
  deriving DecidableEq, Repr

/-- The calls that `f` makes on the entries of `TYPE_RAM`, one after the other.
Source: `sys/e820.hpp` `e820_for_each_usable_region`
Kind: D -/
def forEachUsableRegion (f : E820Entry → List Call) (e820Map : List E820Entry) : List Call :=
  (e820Map.filter fun entry => entry.type = typeRam).flatMap f

/-- Source: `sys/main.cpp` `kmain`
Kind: D -/
def initialMapEnd : ℕ := 1 <<< 30

/-- The pass below 1 GB, on one entry.
Source: `sys/main.cpp` `kmain`
Kind: D -/
def passBelow (kendAddr : ℕ) (entry : E820Entry) : List Call :=
  if entry.stop ≤ kendAddr then []
  else
    let trimmed := (entry.trimBelow kendAddr).trimAbove initialMapEnd
    (if trimmed.addr < initialMapEnd then
      [Call.earlyFreeMemoryRange trimmed.addr trimmed.length] else []) ++
        [Call.earlyMapMemory entry.addr entry.length]

/-- The pass above 1 GB, on one entry.
Source: `sys/main.cpp` `kmain`
Kind: D -/
def passAbove (entry : E820Entry) : List Call :=
  if entry.stop < initialMapEnd then []
  else
    let trimmed := entry.trimBelow initialMapEnd
    [Call.earlyFreeMemoryRange trimmed.addr trimmed.length]

/-- A range of bytes.
Source: `sys/early_page_allocator.cpp` `early_free_memory_range`
Kind: D -/
structure ByteRange where
  begin : ℕ
  length : ℕ
  deriving DecidableEq, Repr

/-- Source: none: infrastructure
Kind: D -/
def ByteRange.bytes (r : ByteRange) : Set ℕ := Set.Ico r.begin (r.begin + r.length)

/-- The range that a call hands to the early page allocator.
Source: `sys/early_page_allocator.cpp` `early_free_memory_range`
Kind: D -/
def Call.freed : Call → Option ByteRange
  | .earlyFreeMemoryRange begin length => some ⟨begin, length⟩
  | .earlyMapMemory _ _ => none

/-- The ranges that the pass below 1 GB hands over.
Source: `sys/main.cpp` `kmain`
Kind: D -/
def freedBelow (kendAddr : ℕ) (e820Map : List E820Entry) : List ByteRange :=
  (forEachUsableRegion (passBelow kendAddr) e820Map).filterMap Call.freed

/-- The ranges that the pass above 1 GB hands over.
Source: `sys/main.cpp` `kmain`
Kind: D -/
def freedAbove (e820Map : List E820Entry) : List ByteRange :=
  (forEachUsableRegion passAbove e820Map).filterMap Call.freed

/-! ## One entry -/

/-- The bytes of an entry. Source: `sys/e820.hpp` `e820_entry`. Kind: D -/
def E820Entry.bytes (e : E820Entry) : Set ℕ := Set.Ico e.addr (e.addr + e.length)

/-- The range lies in the part of the entry from `lo` on.
Source: none: infrastructure
Kind: D -/
structure Inside (r : ByteRange) (e : E820Entry) (lo : ℕ) : Prop where
  above : lo ≤ r.begin
  first : e.addr ≤ r.begin
  stop : r.begin + r.length ≤ e.addr + e.length

variable {e : E820Entry} {r r' : ByteRange} {kendAddr lo x : ℕ}

/-- The range has no bytes but those of the entry. Source: none: infrastructure. Kind: L -/
theorem Inside.mem (h : Inside r e lo) (hx : x ∈ r.bytes) : x ∈ e.bytes ∧ lo ≤ x :=
  ⟨⟨h.first.trans hx.1, hx.2.trans_le h.stop⟩, h.above.trans hx.1⟩

/-- Trimming an entry that reaches over the bound.
Source: `sys/e820.hpp` `e820_entry::trim_below`
Kind: L -/
theorem trimBelow_of_le (hwrap : e.addr + e.length < word) (h1 : e.addr ≤ lo)
    (h2 : lo ≤ e.addr + e.length) : e.trimBelow lo = ⟨lo, e.addr + e.length - lo, e.type⟩ := by
  have hstop : e.stop = e.addr + e.length := Nat.mod_eq_of_lt hwrap
  have hdiff : wsub lo e.addr = lo - e.addr := wsub_eq h1 (by omega)
  have hlength : wsub e.length (lo - e.addr) = e.length - (lo - e.addr) :=
    wsub_eq (by omega) (by omega)
  unfold E820Entry.trimBelow
  rw [if_neg (by omega), hdiff, hlength]
  congr 1
  omega

/-- An entry above the bound is left alone.
Source: `sys/e820.hpp` `e820_entry::trim_below`
Kind: L -/
theorem trimBelow_of_lt (h : lo < e.addr) : e.trimBelow lo = e := if_pos (Or.inl h)

/-- The end of an entry becomes the bound, if it is beyond it.
Source: `sys/e820.hpp` `e820_entry::trim_above`
Kind: L -/
theorem trimAbove_eq (hwrap : e.addr + e.length < word) (h : e.addr ≤ lo) :
    e.trimAbove lo = ⟨e.addr, min (e.addr + e.length) lo - e.addr, e.type⟩ := by
  have hstop : e.stop = e.addr + e.length := Nat.mod_eq_of_lt hwrap
  unfold E820Entry.trimAbove
  by_cases hlt : e.addr + e.length < lo
  · rw [if_pos (by omega), min_eq_left hlt.le, Nat.add_sub_cancel_left]
  · have hdiff : wsub e.stop lo = e.stop - lo := wsub_eq (by omega) (by omega)
    have hlength : wsub e.length (e.stop - lo) = e.length - (e.stop - lo) :=
      wsub_eq (by omega) (by omega)
    rw [if_neg (by omega), hdiff, hlength, min_eq_right (by omega)]
    congr 1
    omega

/-- Source: `sys/early_page_allocator.cpp` `early_free_memory_range`. Kind: L -/
theorem freed_free (begin length : ℕ) (calls : List Call) :
    (Call.earlyFreeMemoryRange begin length :: calls).filterMap Call.freed =
      ⟨begin, length⟩ :: calls.filterMap Call.freed := rfl

/-- Source: `sys/vmem.cpp` `early_map_memory`. Kind: L -/
theorem freed_map (begin length : ℕ) (calls : List Call) :
    (Call.earlyMapMemory begin length :: calls).filterMap Call.freed = calls.filterMap Call.freed := rfl

/-- **The first pass on one entry** hands over its bytes from the kernel's end to 1 GB, in at most one
range.
Source: `sys/main.cpp` `kmain`
Kind: P -/
theorem passBelow_freed (hwrap : e.addr + e.length < word) (hkend : kendAddr ≤ initialMapEnd) :
    ((passBelow kendAddr e).filterMap Call.freed).length ≤ 1 ∧
      (∀ r ∈ (passBelow kendAddr e).filterMap Call.freed,
        Inside r e kendAddr ∧ r.begin + r.length ≤ initialMapEnd) ∧
      ∀ x ∈ e.bytes, kendAddr ≤ x → x < initialMapEnd →
        ∃ r ∈ (passBelow kendAddr e).filterMap Call.freed, x ∈ r.bytes := by
  have hstop : e.stop = e.addr + e.length := Nat.mod_eq_of_lt hwrap
  unfold passBelow
  by_cases hbelow : e.stop ≤ kendAddr
  · rw [if_pos hbelow]
    refine ⟨by simp, by simp, fun x hx hk _ => ?_⟩
    have := hx.2
    omega
  · rw [if_neg hbelow]
    -- what is left of the entry above the kernel
    obtain ⟨first, hfirst, htrim⟩ : ∃ first, first = max e.addr kendAddr ∧
        e.trimBelow kendAddr = ⟨first, e.addr + e.length - first, e.type⟩ := by
      by_cases hlt : kendAddr < e.addr
      · exact ⟨e.addr, (max_eq_left hlt.le).symm, by
          rw [trimBelow_of_lt hlt, Nat.add_sub_cancel_left]⟩
      · exact ⟨kendAddr, (max_eq_right (by omega)).symm, trimBelow_of_le hwrap (by omega) (by omega)⟩
    dsimp only
    rw [htrim]
    by_cases hle : first ≤ initialMapEnd
    · rw [trimAbove_eq (by dsimp only; omega) hle]
      dsimp only
      rw [Nat.add_sub_cancel' (show first ≤ e.addr + e.length by omega)]
      by_cases hlt : first < initialMapEnd
      · rw [if_pos hlt]
        rw [List.singleton_append, freed_free, freed_map]
        refine ⟨le_rfl, fun r hr => ?_, fun x hx hk hmap => ⟨_, List.mem_cons_self, ?_⟩⟩
        · obtain rfl := List.mem_singleton.mp hr
          refine ⟨⟨?_, ?_, ?_⟩, ?_⟩ <;> dsimp only <;> omega
        · have h1 := hx.1
          have h2 := hx.2
          constructor <;> dsimp only <;> omega
      · rw [if_neg hlt, List.nil_append, freed_map]
        refine ⟨Nat.zero_le 1, fun r hr => absurd hr List.not_mem_nil, fun x hx hk hmap => ?_⟩
        have h1 := hx.1
        omega
    · -- an entry that starts beyond 1 GB is left alone, and not freed
      have habove : (⟨first, e.addr + e.length - first, e.type⟩ : E820Entry).trimAbove initialMapEnd
          = ⟨first, e.addr + e.length - first, e.type⟩ := if_pos (Or.inl (by dsimp only; omega))
      rw [habove]
      dsimp only
      rw [if_neg (by omega), List.nil_append, freed_map]
      refine ⟨Nat.zero_le 1, fun r hr => absurd hr List.not_mem_nil, fun x hx hk hmap => ?_⟩
      have h1 := hx.1
      omega

/-- **The second pass on one entry** hands over its bytes from 1 GB on, in at most one range.
Source: `sys/main.cpp` `kmain`
Kind: P -/
theorem passAbove_freed (hwrap : e.addr + e.length < word) :
    ((passAbove e).filterMap Call.freed).length ≤ 1 ∧
      (∀ r ∈ (passAbove e).filterMap Call.freed, Inside r e initialMapEnd) ∧
      ∀ x ∈ e.bytes, initialMapEnd ≤ x → ∃ r ∈ (passAbove e).filterMap Call.freed, x ∈ r.bytes := by
  have hstop : e.stop = e.addr + e.length := Nat.mod_eq_of_lt hwrap
  unfold passAbove
  by_cases hbelow : e.stop < initialMapEnd
  · rw [if_pos hbelow]
    refine ⟨by simp, by simp, fun x hx hmap => ?_⟩
    have := hx.2
    omega
  · rw [if_neg hbelow]
    dsimp only
    by_cases hlt : initialMapEnd < e.addr
    · rw [trimBelow_of_lt hlt, freed_free]
      refine ⟨le_rfl, fun r hr => ?_, fun x hx hmap => ⟨_, List.mem_cons_self, hx⟩⟩
      obtain rfl := List.mem_singleton.mp hr
      exact ⟨hlt.le, le_rfl, le_rfl⟩
    · rw [trimBelow_of_le hwrap (by omega) (by omega), freed_free]
      refine ⟨le_rfl, fun r hr => ?_, fun x hx hmap => ⟨_, List.mem_cons_self, ?_⟩⟩
      · obtain rfl := List.mem_singleton.mp hr
        refine ⟨le_rfl, ?_, ?_⟩ <;> dsimp only <;> omega
      · have h2 := hx.2
        constructor <;> dsimp only <;> omega

/-! ## The map -/

/-- The ranges of a pass come from the usable entries one by one.
Source: `sys/e820.hpp` `e820_for_each_usable_region`
Kind: L -/
theorem filterMap_forEachUsableRegion (f : E820Entry → List Call) (e820Map : List E820Entry) :
    (forEachUsableRegion f e820Map).filterMap Call.freed
      = (e820Map.filter fun entry => entry.type = typeRam).flatMap
          fun entry => (f entry).filterMap Call.freed := by
  unfold forEachUsableRegion
  rw [List.filterMap_flatMap]

variable {e820Map : List E820Entry}

/-- A range of the first pass. Source: `sys/main.cpp` `kmain`. Kind: L -/
theorem mem_freedBelow : r ∈ freedBelow kendAddr e820Map ↔
    ∃ e ∈ e820Map, e.type = typeRam ∧ r ∈ (passBelow kendAddr e).filterMap Call.freed := by
  unfold freedBelow
  rw [filterMap_forEachUsableRegion]
  simp only [List.mem_flatMap, List.mem_filter, decide_eq_true_eq, and_assoc]

/-- A range of the second pass. Source: `sys/main.cpp` `kmain`. Kind: L -/
theorem mem_freedAbove : r ∈ freedAbove e820Map ↔
    ∃ e ∈ e820Map, e.type = typeRam ∧ r ∈ (passAbove e).filterMap Call.freed := by
  unfold freedAbove
  rw [filterMap_forEachUsableRegion]
  simp only [List.mem_flatMap, List.mem_filter, decide_eq_true_eq, and_assoc]

/-- The ranges of a pass are disjoint if it takes at most one from each entry, inside that entry.
Source: `sys/main.cpp` `kmain`
Kind: L -/
theorem pairwise_freed {f : E820Entry → List Call}
    (hdisj : e820Map.Pairwise fun a b => Disjoint a.bytes b.bytes)
    (hone : ∀ e ∈ e820Map, ((f e).filterMap Call.freed).length ≤ 1)
    (hin : ∀ e ∈ e820Map, ∀ r ∈ (f e).filterMap Call.freed, r.bytes ⊆ e.bytes) :
    ((forEachUsableRegion f e820Map).filterMap Call.freed).Pairwise
      fun a b => Disjoint a.bytes b.bytes := by
  rw [filterMap_forEachUsableRegion, List.pairwise_flatMap]
  constructor
  · intro e he
    have hlen := hone e (List.mem_of_mem_filter he)
    rcases h : (f e).filterMap Call.freed with - | ⟨r, l⟩
    · exact List.Pairwise.nil
    · rw [h, List.length_cons] at hlen
      obtain rfl := List.eq_nil_of_length_eq_zero (show l.length = 0 by omega)
      exact List.pairwise_singleton _ _
  · refine (hdisj.sublist List.filter_sublist).imp_of_mem ?_
    intro a b ha hb hab x hx y hy
    exact hab.mono (hin a (List.mem_of_mem_filter ha) x hx) (hin b (List.mem_of_mem_filter hb) y hy)

/-- **The passes hand over each usable byte once.** For every map of disjoint entries that do not
wrap, and every kernel that ends at 1 GB at most: the ranges of the two passes are disjoint, each lies
in a usable entry behind the kernel, the first pass stays below 1 GB, and together they are all usable
bytes behind the kernel.
Source: `sys/main.cpp` `kmain`
Kind: P
Hyps: `hwrap`, `hdisj`: what the BIOS reports; `hkend`: where the kernel is linked -/
theorem bootPasses_handOver (e820Map : List E820Entry) (kendAddr : ℕ)
    (hwrap : ∀ e ∈ e820Map, e.addr + e.length < word)
    (hdisj : e820Map.Pairwise fun a b => Disjoint a.bytes b.bytes)
    (hkend : kendAddr ≤ initialMapEnd) :
    (freedBelow kendAddr e820Map ++ freedAbove e820Map).Pairwise
        (fun a b => Disjoint a.bytes b.bytes) ∧
      (∀ r ∈ freedBelow kendAddr e820Map ++ freedAbove e820Map,
        ∃ e ∈ e820Map, e.type = typeRam ∧ Inside r e kendAddr) ∧
      (∀ r ∈ freedBelow kendAddr e820Map, r.begin + r.length ≤ initialMapEnd) ∧
      ∀ x, (∃ r ∈ freedBelow kendAddr e820Map ++ freedAbove e820Map, x ∈ r.bytes) ↔
        kendAddr ≤ x ∧ ∃ e ∈ e820Map, e.type = typeRam ∧ x ∈ e.bytes := by
  have hbelow : ∀ r ∈ freedBelow kendAddr e820Map, (∃ e ∈ e820Map, e.type = typeRam ∧
      Inside r e kendAddr) ∧ r.begin + r.length ≤ initialMapEnd := by
    intro r hr
    obtain ⟨e, he, htype, hmem⟩ := mem_freedBelow.mp hr
    obtain ⟨hin, hend⟩ := (passBelow_freed (hwrap e he) hkend).2.1 r hmem
    exact ⟨⟨e, he, htype, hin⟩, hend⟩
  have habove : ∀ r ∈ freedAbove e820Map, ∃ e ∈ e820Map, e.type = typeRam ∧
      Inside r e initialMapEnd := by
    intro r hr
    obtain ⟨e, he, htype, hmem⟩ := mem_freedAbove.mp hr
    exact ⟨e, he, htype, (passAbove_freed (hwrap e he)).2.1 r hmem⟩
  have hinside : ∀ r ∈ freedBelow kendAddr e820Map ++ freedAbove e820Map,
      ∃ e ∈ e820Map, e.type = typeRam ∧ Inside r e kendAddr := by
    intro r hr
    rcases List.mem_append.mp hr with hr | hr
    · exact (hbelow r hr).1
    · obtain ⟨e, he, htype, hin⟩ := habove r hr
      exact ⟨e, he, htype, hkend.trans hin.above, hin.first, hin.stop⟩
  refine ⟨List.pairwise_append.mpr ⟨?_, ?_, ?_⟩, hinside, fun r hr => (hbelow r hr).2, fun x => ?_⟩
  · exact pairwise_freed hdisj (fun e he => (passBelow_freed (hwrap e he) hkend).1) fun e he r hr x hx =>
      (((passBelow_freed (hwrap e he) hkend).2.1 r hr).1.mem hx).1
  · exact pairwise_freed hdisj (fun e he => (passAbove_freed (hwrap e he)).1) fun e he r hr x hx =>
      (((passAbove_freed (hwrap e he)).2.1 r hr).mem hx).1
  · -- the first pass ends where the second begins
    intro a ha b hb
    rw [Set.disjoint_left]
    intro x hxa hxb
    obtain ⟨e, -, -, hin⟩ := habove b hb
    have h1 := (hbelow a ha).2
    have h2 := hxa.2
    have h3 := (hin.mem hxb).2
    omega
  · constructor
    · rintro ⟨r, hr, hx⟩
      obtain ⟨e, he, htype, hin⟩ := hinside r hr
      obtain ⟨hmem, hle⟩ := hin.mem hx
      exact ⟨hle, e, he, htype, hmem⟩
    · rintro ⟨hle, e, he, htype, hx⟩
      by_cases hlt : x < initialMapEnd
      · obtain ⟨r, hr, hxr⟩ := (passBelow_freed (hwrap e he) hkend).2.2 x hx hle hlt
        exact ⟨r, List.mem_append_left _ (mem_freedBelow.mpr ⟨e, he, htype, hr⟩), hxr⟩
      · obtain ⟨r, hr, hxr⟩ := (passAbove_freed (hwrap e he)).2.2 x hx (Nat.le_of_not_lt hlt)
        exact ⟨r, List.mem_append_right _ (mem_freedAbove.mpr ⟨e, he, htype, hr⟩), hxr⟩

/-- A map of a machine with 3 GB: low memory, a reserved entry, an entry that reaches over the kernel's
end and over 1 GB, and one above 4 GB.
Source: none: infrastructure
Kind: D -/
def threeGigabytes : List E820Entry :=
  [⟨0, 0x9fc00, typeRam⟩, ⟨0x9fc00, 0x400, 2⟩, ⟨0x100000, 0x7fee0000, typeRam⟩,
    ⟨0x100000000, 0x40000000, typeRam⟩]

/-- The entry that reaches over both bounds is handed over in two parts.
Source: `sys/main.cpp` `kmain`
Kind: C -/
theorem bootPasses_handOver_straddling :
    freedBelow 0x500000 threeGigabytes = [⟨0x500000, 0x3fb00000⟩] ∧
      freedAbove threeGigabytes = [⟨0x40000000, 0x3ffe0000⟩, ⟨0x100000000, 0x40000000⟩] ∧
      ∀ x, (∃ r ∈ freedBelow 0x500000 threeGigabytes ++ freedAbove threeGigabytes, x ∈ r.bytes) ↔
        0x500000 ≤ x ∧ ∃ e ∈ threeGigabytes, e.type = typeRam ∧ x ∈ e.bytes := by
  have hdisj : threeGigabytes.Pairwise fun a b => Disjoint a.bytes b.bytes := by
    simp [threeGigabytes, E820Entry.bytes, Set.Ico_disjoint_Ico]
  exact ⟨by decide, by decide,
    (bootPasses_handOver threeGigabytes 0x500000 (by decide) hdisj (by decide)).2.2.2⟩

end E820

end EbbRT
