import EbbRT.Lib.Radix
import EbbRT.Lib.System
import EbbRT.Mem.Pfn

/-!
# Page tables

A page table is 512 `pte`s in a page, found through the entry that holds the page's address.
`traverse_page_table` goes down from an entry to the blocks of a range: where a block at level 0
(4 KB) or 1 (2 MB) lies wholly inside the range it calls `found`, everywhere else it follows the
entry, and where the entry is not present it first calls `empty`, which may install a table. At level 0
`--level` wraps, and the page is taken for a table once more, with slots for 8 bytes
(`traverseBottom`).

The tables are kept by page address; the entry that a `pte &` refers to is the root or a slot of a
table. `early_allocate_page` is the stream `pages`: the page that the `n`-th call returns, `none`
when it aborts.
-/

namespace EbbRT

open EbbRT.Lib

/-! ## Entries -/

namespace Pte

/-- `~a` on 64 bits.
Source: none: infrastructure
Kind: D -/
def compl (a : ℕ) : ℕ := word - 1 - a

/-- Source: `sys/vmem.hpp` `pte::present`
Kind: D -/
def present (raw : ℕ) : Bool := raw &&& 1 != 0

/-- Source: `sys/vmem.hpp` `pte::addr`
Kind: D -/
def addr (raw : ℕ) (large : Bool) : ℕ :=
  let ret := raw &&& (1 <<< 52 - 1)
  let ret := ret &&& compl (1 <<< 12 - 1)
  ret &&& compl (large.toNat <<< 12)

/-- Source: `sys/vmem.hpp` `pte::large`
Kind: D -/
def large (raw : ℕ) : Bool := raw &&& (1 <<< 7) != 0

/-- Source: `sys/vmem.hpp` `pte::set_bit`
Kind: D -/
def setBit (raw bitNum : ℕ) (value : Bool) : ℕ :=
  (raw &&& compl (1 <<< bitNum)) ||| (value.toNat <<< bitNum)

/-- Source: `sys/vmem.hpp` `pte::set_present`
Kind: D -/
def setPresent (raw : ℕ) (val : Bool) : ℕ := setBit raw 0 val

/-- Source: `sys/vmem.hpp` `pte::set_writable`
Kind: D -/
def setWritable (raw : ℕ) (val : Bool) : ℕ := setBit raw 1 val

/-- Source: `sys/vmem.hpp` `pte::set_large`
Kind: D -/
def setLarge (raw : ℕ) (val : Bool) : ℕ := setBit raw 7 val

/-- Source: `sys/vmem.hpp` `pte::set_nx`
Kind: D -/
def setNx (raw : ℕ) (val : Bool) : ℕ := setBit raw 63 val

/-- Source: `sys/vmem.hpp` `pte::set_addr`
Kind: D -/
def setAddr (raw addr : ℕ) (large : Bool) : ℕ :=
  let mask := 0x8000000000000fff ||| (large.toNat <<< 12)
  (raw &&& mask) ||| addr

/-- `perm_read | perm_write | perm_exec`, the default of `permissions`.
Source: `sys/vmem.hpp` `pte::perm_read`, `pte::perm_write`, `pte::perm_exec`
Kind: D -/
def permAll : ℕ := 1 <<< 0 ||| 1 <<< 1 ||| 1 <<< 2

/-- The new value of the entry; what it held is dropped.
Source: `sys/vmem.hpp` `pte::set`
Kind: D -/
def set (physAddr : ℕ) (large : Bool) (permissions : ℕ := permAll) : ℕ :=
  let raw := 0
  let raw := setPresent raw (permissions != 0)
  let raw := setWritable raw (permissions &&& (1 <<< 1) != 0)
  let raw := setLarge raw large
  let raw := setAddr raw physAddr large
  setNx raw (permissions &&& (1 <<< 2) == 0)

/-- Source: `sys/vmem.hpp` `pte::set_normal`
Kind: D -/
def setNormal (physAddr : ℕ) (permissions : ℕ := permAll) : ℕ := set physAddr false permissions

end Pte

/-- Source: `sys/vmem.hpp` `pt_index`
Kind: D -/
def ptIndex (virtAddr level : ℕ) : ℕ := (virtAddr >>> (12 + level * 9)) &&& (1 <<< 9 - 1)

/-- The low 48 bits, with bit 47 repeated above them.
Source: `sys/vmem.hpp` `canonical`
Kind: D -/
def canonical (addr : ℕ) : ℕ :=
  let low := addr % 2 ^ 48
  if low < 2 ^ 47 then low else low + (word - 2 ^ 48)

/-- Source: `sys/vmem.hpp` `num_page_sizes`
Kind: D -/
def numPageSizes : ℕ := 2

/-! ## Tables -/

/-- Why a call does not return.
Source: `sys/debug.hpp` `kassert`, `kabort`
Kind: D -/
inductive Abort
  /-- A `kassert` failed. -/
  | kassert
  /-- `kabort` after "Asked to unmap memory that wasn't mapped!". -/
  | notMapped
  /-- The page allocator had no page and aborted. -/
  | noPage
  /-- `--level` below 0 for the second time: a shift by more than 63 bits. -/
  | undefined
  deriving DecidableEq, Repr

/-- What a `pte &` refers to.
Source: `sys/vmem.hpp` `traverse_page_table`
Kind: D -/
inductive Entry
  /-- `page_table_root`. -/
  | root
  /-- `pt[idx]` in the table at this address. -/
  | slot (pt idx : ℕ)
  deriving DecidableEq, Repr

/-- The entries in memory and what has been done so far.
Source: `sys/vmem.cpp` `page_table_root`
Kind: D -/
structure Tables where
  /-- `page_table_root`. -/
  root : ℕ
  /-- The entries of the page at an address, read as a table. -/
  mem : ℕ → ℕ → ℕ
  /-- How many pages have been allocated. -/
  allocated : ℕ
  /-- The entries that have been followed as pointers to a table, with their levels, the last one
  first. -/
  descents : List (ℕ × ℕ)

namespace Tables

/-- Source: none: infrastructure
Kind: D -/
def read (t : Tables) : Entry → ℕ
  | .root => t.root
  | .slot pt idx => t.mem pt idx

/-- Source: none: infrastructure
Kind: D -/
def write (t : Tables) (raw : ℕ) : Entry → Tables
  | .root => { t with root := raw }
  | .slot pt idx => { t with mem := Function.update t.mem pt (Function.update (t.mem pt) idx raw) }

/-- `new (page_addr) pte[512]`: every entry is cleared.
Source: `sys/vmem.cpp` `early_map_memory`
Kind: D -/
def clearPage (t : Tables) (pageAddr : ℕ) : Tables :=
  { t with mem := Function.update t.mem pageAddr fun _ => 0 }

/-- A page has been allocated: clear it and make the entry point to it.
Source: `sys/vmem.cpp` `early_map_memory`
Kind: D -/
def install (t : Tables) (page : ℕ) (entry : Entry) : Tables :=
  let t := { t with allocated := t.allocated + 1 }
  let pageAddr := pfnToAddr page
  (t.clearPage pageAddr).write (Pte.setNormal pageAddr) entry

end Tables

/-! ## The traversal -/

/-- The two functions `traverse_page_table` is given. `empty` also says whether to go on.
Source: `sys/vmem.hpp` `traverse_page_table`
Kind: D -/
structure Callbacks where
  /-- `found(entry, base_virt, level)`. -/
  found : Entry → ℕ → ℕ → Tables → Except Abort Tables
  /-- `empty(entry)`. -/
  empty : Entry → Tables → Except Abort (Bool × Tables)

/-- The loop over the slots: `n` slots from `idx` on, the first one for `baseVirt`.
Source: `sys/vmem.hpp` `traverse_page_table`
Kind: D -/
def forSlots (slot : ℕ → ℕ → Tables → Except Abort Tables) (step : ℕ) :
    ℕ → ℕ → ℕ → Tables → Except Abort Tables
  | 0, _, _, t => .ok t
  | n + 1, idx, baseVirt, t => do
      let t ← slot idx baseVirt t
      forSlots slot step n (idx + 1) (canonical ((baseVirt + step) % word)) t

/-- `if (!entry.present()) if (!empty(entry)) return;`: whether the call goes on, and the tables.
Source: `sys/vmem.hpp` `traverse_page_table`
Kind: D -/
def enter (c : Callbacks) (entry : Entry) (t : Tables) : Except Abort (Bool × Tables) :=
  if Pte.present (t.read entry) then .ok (true, t) else c.empty entry t

/-- `12 + level * 9` at the level that `--level` wraps to at level 0, the largest `size_t`.
Source: `sys/vmem.hpp` `traverse_page_table`
Kind: D -/
def wrappedShift : ℕ := (12 + (word - 1) * 9) % word

/-- `pt_index` at that level.
Source: `sys/vmem.hpp` `pt_index`
Kind: D -/
def ptIndexWrapped (virtAddr : ℕ) : ℕ := (virtAddr >>> wrappedShift) &&& (1 <<< 9 - 1)

/-- A call at that level. `--level` once more makes the shift one by more than 63 bits.
Source: `sys/vmem.hpp` `traverse_page_table`
Kind: D -/
def traverseWrapped (c : Callbacks) (entry : Entry) (t : Tables) : Except Abort Tables := do
  let (goOn, t) ← enter c entry t
  if goOn then .error .undefined else .ok t

/-- A call at level 0. The level is no page size after `--level`, so that every slot is for another call.
Source: `sys/vmem.hpp` `traverse_page_table`
Kind: D -/
def traverseBottom (c : Callbacks) (virtStart virtEnd : ℕ) (entry : Entry) (baseVirt : ℕ) (t : Tables) :
    Except Abort Tables := do
  let (goOn, t) ← enter c entry t
  if !goOn then .ok t
  else
    let raw := t.read entry
    let pt := Pte.addr raw false
    let t := { t with descents := (0, raw) :: t.descents }
    let step := (1 <<< wrappedShift) % word
    let idxBegin := ptIndexWrapped (max virtStart baseVirt)
    let baseVirtEnd := canonical (wsub ((baseVirt + step * 512) % word) 1)
    let idxEnd := ptIndexWrapped (min (wsub virtEnd 1) baseVirtEnd)
    let baseVirt := (baseVirt + canonical (idxBegin * step % word)) % word
    forSlots (fun idx _ t => traverseWrapped c (.slot pt idx) t) step (idxEnd + 1 - idxBegin) idxBegin
      baseVirt t

/-- The level is the argument.
Source: `sys/vmem.hpp` `traverse_page_table`
Kind: D -/
def traversePageTable (c : Callbacks) (virtStart virtEnd : ℕ) :
    ℕ → Entry → ℕ → Tables → Except Abort Tables
  | 0, entry, baseVirt, t => traverseBottom c virtStart virtEnd entry baseVirt t
  | level + 1, entry, baseVirt, t => do
      let (goOn, t) ← enter c entry t
      if !goOn then .ok t
      else
        let raw := t.read entry
        let pt := Pte.addr raw false
        let t := { t with descents := (level + 1, raw) :: t.descents }
        let step := (1 <<< (12 + level * 9)) % word
        let idxBegin := ptIndex (max virtStart baseVirt) level
        let baseVirtEnd := canonical (wsub ((baseVirt + step * 512) % word) 1)
        let idxEnd := ptIndex (min (wsub virtEnd 1) baseVirtEnd) level
        let baseVirt := (baseVirt + canonical (idxBegin * step % word)) % word
        forSlots
          (fun idx baseVirt t =>
            if level < numPageSizes ∧ virtStart ≤ baseVirt ∧ virtEnd ≥ (baseVirt + step) % word then
              c.found (.slot pt idx) baseVirt level t
            else
              traversePageTable c virtStart virtEnd level (.slot pt idx) baseVirt t)
          step (idxEnd + 1 - idxBegin) idxBegin baseVirt t

/-! ## The early mapping -/

section Early

variable (pages : ℕ → Option ℕ)

/-- Install the next page of the stream as the table that the entry points to.
Source: `sys/vmem.cpp` `early_map_memory`
Kind: D -/
def installTable (entry : Entry) (t : Tables) : Except Abort (Bool × Tables) :=
  match pages t.allocated with
  | none => .error .noPage
  | some page => .ok (true, t.install page entry)

/-- Source: `sys/vmem.cpp` `early_map_memory`
Kind: D -/
def earlyMapFound (entry : Entry) (baseVirt level : ℕ) (t : Tables) : Except Abort Tables :=
  if Pte.present (t.read entry) then
    if Pte.addr (t.read entry) (0 < level) = baseVirt then .ok t else .error .kassert
  else .ok (t.write (Pte.set baseVirt (0 < level)) entry)

/-- Source: `sys/vmem.cpp` `early_unmap_memory`
Kind: D -/
def earlyUnmapFound (entry : Entry) (_baseVirt _level : ℕ) (t : Tables) : Except Abort Tables :=
  if Pte.present (t.read entry) then
    .ok (t.write (Pte.setPresent (t.read entry) false) entry)
  else .error .kassert

/-- Source: `sys/vmem.cpp` `early_unmap_memory`
Kind: D -/
def earlyUnmapEmpty (_entry : Entry) (_t : Tables) : Except Abort (Bool × Tables) :=
  .error .notMapped

/-- The page that holds the address, `aligned_addr`.
Source: `sys/vmem.cpp` `early_map_memory`, `early_unmap_memory`
Kind: D -/
def alignedAddr (addr : ℕ) : ℕ := alignDown addr pageSize

/-- `aligned_addr + aligned_length`.
Source: `sys/vmem.cpp` `early_map_memory`, `early_unmap_memory`
Kind: D -/
def alignedEnd (addr length : ℕ) : ℕ :=
  let alignedLength := alignUp ((length + wsub addr (alignedAddr addr)) % word) pageSize
  (alignedAddr addr + alignedLength) % word

/-- Source: `sys/vmem.cpp` `early_map_memory`
Kind: D -/
def earlyMapMemory (addr length : ℕ) (t : Tables) : Except Abort Tables :=
  traversePageTable ⟨earlyMapFound, installTable pages⟩ (alignedAddr addr) (alignedEnd addr length)
    4 .root 0 t

/-- Source: `sys/vmem.cpp` `early_unmap_memory`
Kind: D -/
def earlyUnmapMemory (addr length : ℕ) (t : Tables) : Except Abort Tables :=
  traversePageTable ⟨earlyUnmapFound, earlyUnmapEmpty⟩ (alignedAddr addr) (alignedEnd addr length)
    4 .root 0 t

end Early

/-! ## The hardware's walk -/

/-- What an x86-64 processor makes of an entry that it reads at `level` (0 is a page table, 3 the
top): a page of 4 KB, a page of 2 MB or 1 GB (bit 7, which pages at the levels 1 and 2 have), or the
address of the next table.
Source: `sys/vmem.hpp` `pte`
Kind: D -/
def pteView (level raw : ℕ) : Radix.View ℕ ℕ :=
  if !Pte.present raw then .absent
  else if level = 0 ∨ (level < 3 ∧ Pte.large raw) then .leaf raw
  else .table (raw % 2 ^ 52 / 2 ^ 12 * 2 ^ 12)

/-- The physical address of `va` in the page that the entry maps.
Source: `sys/vmem.hpp` `pte`
Kind: D -/
def physAddr (level raw va : ℕ) : ℕ :=
  raw % 2 ^ 52 / 2 ^ (12 + level * 9) * 2 ^ (12 + level * 9) + va % 2 ^ (12 + level * 9)

/-- The walk below an entry at `level`; `none` is a page fault.
Source: `sys/vmem.hpp` `pt_index`
Kind: D -/
def x86WalkFrom (mem : ℕ → ℕ → ℕ) : ℕ → ℕ → ℕ → Option ℕ
  | 0, raw, va =>
      match pteView 0 raw with
      | .leaf raw => some (physAddr 0 raw va)
      | _ => none
  | level + 1, raw, va =>
      match pteView (level + 1) raw with
      | .absent => none
      | .leaf raw => some (physAddr (level + 1) raw va)
      | .table pt => x86WalkFrom mem level (mem pt (va / 2 ^ (12 + level * 9) % 512)) va

/-- The walk from the table whose address the root holds. The processor does not look at the present
bit there.
Source: `sys/vmem.cpp` `enable_runtime_page_table`
Kind: D -/
def x86Walk (t : Tables) (va : ℕ) : Option ℕ :=
  x86WalkFrom t.mem 3 (t.mem (t.root % 2 ^ 52 / 2 ^ 12 * 2 ^ 12) (va / 2 ^ 39 % 512)) va

end EbbRT
