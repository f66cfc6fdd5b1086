import EbbRT.Lib.X86

/-!
# Descriptors

What the kernel writes for the processor to read: the gates of the interrupt descriptor table, the
global descriptor table of each core, and the core's task state segment with its interrupt stacks.
The kernel assigns bit-fields; the processor decodes the bytes. `decode_set` and `decode_setTssAddr`
say that the two agree for every address, and `interruptStacks` that a core that has been
initialised and given an event stack starts an interrupt on the stack that was meant.
-/

namespace EbbRT.Processor

open EbbRT.Lib EbbRT.Lib.X86

/-! ## The code -/

/-- Source: `sys/idt.cpp` `entry`
Kind: D -/
structure Entry where
  offsetLow : BitVec 16 := 0
  selector : BitVec 16 := 0
  ist : BitVec 3 := 0
  reserved0 : BitVec 5 := 0
  type : BitVec 4 := 0
  reserved1 : BitVec 1 := 0
  dpl : BitVec 2 := 0
  p : BitVec 1 := 0
  offsetHigh : BitVec 48 := 0
  reserved2 : BitVec 32 := 0
  deriving DecidableEq

namespace Entry

/-- Source: `sys/idt.cpp` `entry::TYPE_INTERRUPT`
Kind: D -/
def typeInterrupt : BitVec 64 := 0xe

/-- The bit-fields as they are packed, the first the lowest.
Source: `sys/idt.cpp` `entry::raw_`
Kind: D -/
def raw (e : Entry) : BitVec 128 :=
  e.reserved2 ++ e.offsetHigh ++ e.p ++ e.dpl ++ e.reserved1 ++ e.type ++ e.reserved0 ++ e.ist ++
    e.selector ++ e.offsetLow

/-- Source: `sys/idt.cpp` `entry::set`
Kind: D -/
def set (selector : BitVec 16) (handler type pl ist : BitVec 64) (e : Entry) : Entry :=
  { e with
    selector := selector
    offsetLow := (handler &&& 0xFFFF).setWidth 16
    offsetHigh := (handler >>> 16).setWidth 48
    ist := ist.setWidth 3
    type := type.setWidth 4
    dpl := pl.setWidth 2
    p := 1 }

end Entry

/-- Source: `sys/cpu.hpp` `segdesc`
Kind: D -/
structure Segdesc where
  limitLow : BitVec 16 := 0
  baseLow : BitVec 24 := 0
  type : BitVec 4 := 0
  s : BitVec 1 := 0
  dpl : BitVec 2 := 0
  p : BitVec 1 := 0
  limitHigh : BitVec 4 := 0
  avl : BitVec 1 := 0
  l : BitVec 1 := 0
  db : BitVec 1 := 0
  g : BitVec 1 := 0
  baseHigh : BitVec 8 := 0
  deriving DecidableEq

namespace Segdesc

/-- Source: `sys/cpu.hpp` `segdesc::raw_`
Kind: D -/
def raw (d : Segdesc) : BitVec 64 :=
  d.baseHigh ++ d.g ++ d.db ++ d.l ++ d.avl ++ d.limitHigh ++ d.p ++ d.dpl ++ d.s ++ d.type ++
    d.baseLow ++ d.limitLow

/-- Source: `sys/cpu.hpp` `segdesc::set`
Kind: D -/
def set (type : BitVec 8) (longmode : Bool) (d : Segdesc) : Segdesc :=
  { d with type := type.setWidth 4, l := BitVec.ofBool longmode, s := 1, p := 1 }

/-- Source: `sys/cpu.hpp` `segdesc::set_code`
Kind: D -/
def setCode (d : Segdesc) : Segdesc := d.set 8 true

/-- Source: `sys/cpu.hpp` `segdesc::set_data`
Kind: D -/
def setData (d : Segdesc) : Segdesc := d.set 0 false

end Segdesc

/-- Source: `sys/cpu.hpp` `tssdesc`
Kind: D -/
structure Tssdesc where
  limitLow : BitVec 16 := 0
  baseLow : BitVec 24 := 0
  type : BitVec 4 := 0
  reserved0 : BitVec 1 := 0
  dpl : BitVec 2 := 0
  p : BitVec 1 := 0
  limitHigh : BitVec 4 := 0
  avl : BitVec 1 := 0
  reserved1 : BitVec 2 := 0
  g : BitVec 1 := 0
  baseHigh : BitVec 40 := 0
  reserved2 : BitVec 32 := 0
  deriving DecidableEq

namespace Tssdesc

/-- Source: `sys/cpu.hpp` `tssdesc::raw_`
Kind: D -/
def raw (d : Tssdesc) : BitVec 128 :=
  d.reserved2 ++ d.baseHigh ++ d.g ++ d.reserved1 ++ d.avl ++ d.limitHigh ++ d.p ++ d.dpl ++
    d.reserved0 ++ d.type ++ d.baseLow ++ d.limitLow

/-- Source: `sys/cpu.hpp` `tssdesc::set`
Kind: D -/
def set (addr : BitVec 64) (d : Tssdesc) : Tssdesc :=
  { d with
    limitLow := 103
    baseLow := addr.setWidth 24
    baseHigh := (addr >>> 24).setWidth 40
    p := 1
    type := 9 }

end Tssdesc

/-- Source: `sys/cpu.hpp` `gdt`
Kind: D -/
structure Gdt where
  nulldesc : Segdesc := {}
  cs : Segdesc := {}
  ds : Segdesc := {}
  tss : Tssdesc := {}

namespace Gdt

/-- The constructor.
Source: `sys/cpu.hpp` `gdt::gdt`
Kind: D -/
def construct : Gdt where
  cs := Segdesc.setCode {}
  ds := Segdesc.setData {}

/-- Source: `sys/cpu.hpp` `gdt::set_tss_addr`
Kind: D -/
def setTssAddr (tssAddr : BitVec 64) (g : Gdt) : Gdt := { g with tss := g.tss.set tssAddr }

/-- The descriptors as they lie in memory.
Source: `sys/cpu.hpp` `gdt`
Kind: D -/
def words (g : Gdt) : List (BitVec 64) :=
  [g.nulldesc.raw, g.cs.raw, g.ds.raw, g.tss.raw.extractLsb' 0 64, g.tss.raw.extractLsb' 64 64]

end Gdt

/-- The segment behind four bytes of padding, which align its 64-bit fields: `head` is the padding and
`reserved0`, `tail` is `reserved3` and `io_map_base` and the padding behind them.
Source: `sys/cpu.hpp` `aligned_tss`, `task_state_segment`
Kind: D -/
structure AlignedTss where
  head : BitVec 64
  rsp : Vector (BitVec 64) 3
  reserved1 : BitVec 64
  ist : Vector (BitVec 64) 7
  reserved2 : BitVec 64
  tail : BitVec 64

namespace AlignedTss

/-- `ist[entry - 1] = addr`, for the entries that there are.
Source: `sys/cpu.hpp` `task_state_segment::set_ist_entry`
Kind: D -/
def setIstEntry (entry : ℕ) (addr : BitVec 64) (t : AlignedTss) : AlignedTss :=
  { t with ist := t.ist.setIfInBounds (entry - 1) addr }

/-- Source: `sys/cpu.hpp` `aligned_tss`
Kind: D -/
def words (t : AlignedTss) : List (BitVec 64) :=
  t.head :: (t.rsp.toList ++ t.reserved1 :: (t.ist.toList ++ [t.reserved2, t.tail]))

end AlignedTss

/-- The part of `cpu` that the processor reads.
Source: `sys/cpu.hpp` `cpu`
Kind: D -/
structure Cpu where
  atss : AlignedTss
  gdt : Gdt := Gdt.construct

namespace Cpu

/-- `&atss_.tss`, for the core's structure at `this`.
Source: `sys/cpu.cpp` `cpu::init`
Kind: D -/
def tssAddr (this : BitVec 64) : BitVec 64 := this + 4

/-- Source: `sys/cpu.cpp` `cpu::init`
Kind: D -/
def init (this interruptStack : BitVec 64) (c : Cpu) : Cpu where
  gdt := c.gdt.setTssAddr (tssAddr this)
  atss := c.atss.setIstEntry 1 interruptStack

/-- Source: `sys/cpu.cpp` `cpu::set_event_stack`
Kind: D -/
def setEventStack (topOfStack : BitVec 64) (c : Cpu) : Cpu :=
  { c with atss := c.atss.setIstEntry 2 topOfStack }

/-- The structure as it lies in memory.
Source: `sys/cpu.hpp` `cpu::atss_`, `cpu::gdt_`
Kind: D -/
def words (c : Cpu) : List (BitVec 64) := c.atss.words ++ c.gdt.words

/-- Where `gdt_.tss` is: behind `atss_` and three descriptors.
Source: `sys/cpu.hpp` `gdt::load`
Kind: D -/
def tssDescriptor (this : BitVec 64) (m : Memory) : BitVec 128 :=
  m.load (this + 144) ++ m.load (this + 136)

end Cpu

/-! ## What the processor reads -/

section Slices

variable {w n start len : ℕ}

/-- A part of a word shifted and cut off. Source: none: infrastructure. Kind: L -/
theorem extractLsb'_shift (x : BitVec w) (k n : ℕ) (h : start + len ≤ n) :
    ((x >>> k).setWidth n).extractLsb' start len = x.extractLsb' (k + start) len := by
  apply BitVec.eq_of_getLsbD_eq
  intro i hi
  simp only [BitVec.getLsbD_extractLsb', BitVec.getLsbD_setWidth, BitVec.getLsbD_ushiftRight, hi,
    decide_true, Bool.true_and, show start + i < n by omega, Nat.add_assoc]

/-- The lowest part of a word. Source: none: infrastructure. Kind: L -/
theorem setWidth_eq_extractLsb' (x : BitVec w) (n : ℕ) : x.setWidth n = x.extractLsb' 0 n := by
  apply BitVec.eq_of_getLsbD_eq
  intro i hi
  simp [hi]

/-- Masking with ones before cutting off. Source: none: infrastructure. Kind: L -/
theorem setWidth_and_ones (x : BitVec 64) :
    (x &&& 0xFFFF).setWidth 16 = x.extractLsb' 0 16 := by
  rw [BitVec.setWidth_and, setWidth_eq_extractLsb' x, show (0xFFFF : BitVec 64).setWidth 16 = BitVec.allOnes 16
    from rfl, BitVec.and_allOnes]

end Slices

/-- A bit, as a part of the word. Source: none: infrastructure. Kind: L -/
theorem getLsbD_eq_of_slice {w k : ℕ} {x : BitVec w} {b : BitVec 1} (h : x.extractLsb' k 1 = b) :
    x.getLsbD k = b.getLsbD 0 := by
  rw [← h, BitVec.getLsbD_extractLsb']
  simp

namespace Entry

variable (e : Entry)

/-- Source: `sys/idt.cpp` `entry`. Kind: L -/
theorem raw_selector : e.raw.extractLsb' 16 16 = e.selector := by
  simp (disch := decide) only [raw, BitVec.extractLsb'_append_eq_of_le,
    BitVec.extractLsb'_append_eq_of_add_le]
  exact BitVec.extractLsb'_eq_self

/-- Source: `sys/idt.cpp` `entry`. Kind: L -/
theorem raw_ist : e.raw.extractLsb' 32 3 = e.ist := by
  simp (disch := decide) only [raw, BitVec.extractLsb'_append_eq_of_le,
    BitVec.extractLsb'_append_eq_of_add_le]
  exact BitVec.extractLsb'_eq_self

/-- Source: `sys/idt.cpp` `entry`. Kind: L -/
theorem raw_type : e.raw.extractLsb' 40 4 = e.type := by
  simp (disch := decide) only [raw, BitVec.extractLsb'_append_eq_of_le,
    BitVec.extractLsb'_append_eq_of_add_le]
  exact BitVec.extractLsb'_eq_self

/-- Source: `sys/idt.cpp` `entry`. Kind: L -/
theorem raw_dpl : e.raw.extractLsb' 45 2 = e.dpl := by
  simp (disch := decide) only [raw, BitVec.extractLsb'_append_eq_of_le,
    BitVec.extractLsb'_append_eq_of_add_le]
  exact BitVec.extractLsb'_eq_self

/-- Source: `sys/idt.cpp` `entry`. Kind: L -/
theorem raw_p : e.raw.extractLsb' 47 1 = e.p := by
  simp (disch := decide) only [raw, BitVec.extractLsb'_append_eq_of_le,
    BitVec.extractLsb'_append_eq_of_add_le]
  exact BitVec.extractLsb'_eq_self

/-- The parts of the offset that lie in the other word and next to it.
Source: `sys/idt.cpp` `entry`
Kind: L -/
theorem raw_offset : e.raw.extractLsb' 0 16 = e.offsetLow ∧
    e.raw.extractLsb' 48 16 = e.offsetHigh.extractLsb' 0 16 ∧
    e.raw.extractLsb' 64 32 = e.offsetHigh.extractLsb' 16 32 := by
  refine ⟨?_, ?_, ?_⟩
  · rw [raw, BitVec.extractLsb'_append_eq_of_add_le (by decide), BitVec.extractLsb'_eq_self]
  · simp (disch := decide) only [raw, BitVec.extractLsb'_append_eq_of_le,
      BitVec.extractLsb'_append_eq_of_add_le]
  · simp (disch := decide) only [raw, BitVec.extractLsb'_append_eq_of_le,
      BitVec.extractLsb'_append_eq_of_add_le]

/-- **Gates** are decoded as they were set, whatever was in the entry.
Source: `sys/idt.cpp` `entry::set`
Kind: P -/
theorem decode_set (selector : BitVec 16) (handler type pl ist : BitVec 64) :
    Gate.decode (e.set selector handler type pl ist).raw =
      ⟨handler, selector, ist.setWidth 3, type.setWidth 4, pl.setWidth 2, true⟩ := by
  obtain ⟨hlow, hmiddle, hhigh⟩ := (e.set selector handler type pl ist).raw_offset
  have hoffset : handler.extractLsb' 32 32 ++ handler.extractLsb' 16 16 ++ handler.extractLsb' 0 16 =
      handler := by
    rw [BitVec.extractLsb'_append_extractLsb'_eq_extractLsb' (by decide),
      BitVec.extractLsb'_append_extractLsb'_eq_extractLsb' (by decide)]
    exact BitVec.extractLsb'_eq_self
  rw [Gate.decode, hlow, hmiddle, hhigh, raw_selector, raw_ist, raw_type, raw_dpl,
    getLsbD_eq_of_slice (raw_p _)]
  unfold set
  rw [setWidth_and_ones, extractLsb'_shift handler 16 48 (by decide),
    extractLsb'_shift handler 16 48 (by decide), hoffset]
  simp

end Entry

namespace Tssdesc

variable (d : Tssdesc)

/-- The parts of the base that lie below and above the flags.
Source: `sys/cpu.hpp` `tssdesc`
Kind: L -/
theorem raw_base : d.raw.extractLsb' 16 24 = d.baseLow ∧
    d.raw.extractLsb' 56 8 = d.baseHigh.extractLsb' 0 8 ∧
    d.raw.extractLsb' 64 32 = d.baseHigh.extractLsb' 8 32 := by
  refine ⟨?_, ?_, ?_⟩
  · simp (disch := decide) only [raw, BitVec.extractLsb'_append_eq_of_le,
      BitVec.extractLsb'_append_eq_of_add_le]
    exact BitVec.extractLsb'_eq_self
  · simp (disch := decide) only [raw, BitVec.extractLsb'_append_eq_of_le,
      BitVec.extractLsb'_append_eq_of_add_le]
  · simp (disch := decide) only [raw, BitVec.extractLsb'_append_eq_of_le,
      BitVec.extractLsb'_append_eq_of_add_le]

/-- Source: `sys/cpu.hpp` `tssdesc`. Kind: L -/
theorem raw_limit : d.raw.extractLsb' 0 16 = d.limitLow ∧ d.raw.extractLsb' 48 4 = d.limitHigh := by
  refine ⟨?_, ?_⟩
  · rw [raw, BitVec.extractLsb'_append_eq_of_add_le (by decide), BitVec.extractLsb'_eq_self]
  · simp (disch := decide) only [raw, BitVec.extractLsb'_append_eq_of_le,
      BitVec.extractLsb'_append_eq_of_add_le]
    exact BitVec.extractLsb'_eq_self

/-- Source: `sys/cpu.hpp` `tssdesc`. Kind: L -/
theorem raw_type : d.raw.extractLsb' 40 4 = d.type := by
  simp (disch := decide) only [raw, BitVec.extractLsb'_append_eq_of_le,
    BitVec.extractLsb'_append_eq_of_add_le]
  exact BitVec.extractLsb'_eq_self

/-- Source: `sys/cpu.hpp` `tssdesc`. Kind: L -/
theorem raw_p : d.raw.extractLsb' 47 1 = d.p := by
  simp (disch := decide) only [raw, BitVec.extractLsb'_append_eq_of_le,
    BitVec.extractLsb'_append_eq_of_add_le]
  exact BitVec.extractLsb'_eq_self

/-- **The task state segment** is found where it is, at every address.
Source: `sys/cpu.hpp` `tssdesc::set`
Kind: P -/
theorem decode_set (addr : BitVec 64) (hlimit : d.limitHigh = 0) :
    SystemSegment.decode (d.set addr).raw = ⟨addr, 103, 9, true⟩ := by
  obtain ⟨hlow, hmiddle, hhigh⟩ := (d.set addr).raw_base
  obtain ⟨hlimitLow, hlimitHigh⟩ := (d.set addr).raw_limit
  have hbase : addr.extractLsb' 32 32 ++ addr.extractLsb' 24 8 ++ addr.extractLsb' 0 24 = addr := by
    rw [BitVec.extractLsb'_append_extractLsb'_eq_extractLsb' (by decide),
      BitVec.extractLsb'_append_extractLsb'_eq_extractLsb' (by decide)]
    exact BitVec.extractLsb'_eq_self
  rw [SystemSegment.decode, hlow, hmiddle, hhigh, hlimitLow, hlimitHigh, raw_type,
    getLsbD_eq_of_slice (raw_p _)]
  unfold set
  rw [setWidth_eq_extractLsb', extractLsb'_shift addr 24 40 (by decide),
    extractLsb'_shift addr 24 40 (by decide), hbase, hlimit]
  simp

end Tssdesc

namespace Cpu

variable {m : Memory} {this interruptStack top : BitVec 64} {c : Cpu} {t : AlignedTss}

/-- The last event stack counts. Source: `sys/cpu.cpp` `cpu::set_event_stack`. Kind: L -/
theorem setEventStack_setEventStack (a b : BitVec 64) :
    (c.setEventStack a).setEventStack b = c.setEventStack b := by
  simp [setEventStack, AlignedTss.setIstEntry]

/-- Any number of event stacks, one after another. Source: `sys/cpu.cpp` `cpu::set_event_stack`. Kind: L -/
theorem foldl_setEventStack (tops : List (BitVec 64)) (top : BitVec 64) :
    (tops ++ [top]).foldl (fun c top => c.setEventStack top) c = c.setEventStack top := by
  induction tops generalizing c with
  | nil => rfl
  | cons a tops ih =>
      rw [List.cons_append, List.foldl_cons, ih]
      exact setEventStack_setEventStack a top

/-- The interrupt stack table in memory. Source: `sys/cpu.hpp` `task_state_segment`. Kind: L -/
theorem load_ist (h : m.Holds this c.words) {n : ℕ} (hn : n < 7) :
    m.load (istAddr (tssAddr this) (BitVec.ofNat 3 (n + 1))) = c.atss.ist[n] := by
  have haddr : istAddr (tssAddr this) (BitVec.ofNat 3 (n + 1)) =
      this + BitVec.ofNat 64 (8 * 5) + BitVec.ofNat 64 (8 * n) := by
    rw [istAddr, tssAddr, BitVec.toNat_ofNat, Nat.mod_eq_of_lt (by omega), Nat.add_sub_cancel,
      BitVec.add_assoc this]
    rfl
  have hwords : c.words = (c.atss.head :: c.atss.rsp.toList ++ [c.atss.reserved1]) ++
      (c.atss.ist.toList ++ (c.atss.reserved2 :: c.atss.tail :: c.gdt.words)) := by
    simp [words, AlignedTss.words]
  rw [hwords] at h
  have hist := (Memory.holds_append.mp (Memory.holds_append.mp h).2).1
  have hlen : (c.atss.head :: c.atss.rsp.toList ++ [c.atss.reserved1]).length = 5 := by simp
  rw [hlen] at hist
  rw [haddr, hist.load_eq (i := n) (by simpa using hn)]
  exact Vector.getElem_toList _

/-- The descriptor of the task state segment in memory. Source: `sys/cpu.hpp` `gdt`. Kind: L -/
theorem tssDescriptor_eq (h : m.Holds this c.words) : tssDescriptor this m = c.gdt.tss.raw := by
  have hwords : c.words = (c.atss.words ++ [c.gdt.nulldesc.raw, c.gdt.cs.raw, c.gdt.ds.raw]) ++
      [c.gdt.tss.raw.extractLsb' 0 64, c.gdt.tss.raw.extractLsb' 64 64] := by
    simp [words, Gdt.words]
  have hlen : (c.atss.words ++ [c.gdt.nulldesc.raw, c.gdt.cs.raw, c.gdt.ds.raw]).length = 17 := by
    simp [AlignedTss.words]
  rw [hwords, Memory.holds_append, hlen] at h
  obtain ⟨hlow, hhigh, -⟩ := h.2
  have hlow' : m.load (this + 136) = c.gdt.tss.raw.extractLsb' 0 64 := hlow
  have hhigh' : m.load (this + 144) = c.gdt.tss.raw.extractLsb' 64 64 := by
    rw [← hhigh, BitVec.add_assoc]
    rfl
  rw [tssDescriptor, hlow', hhigh', BitVec.extractLsb'_append_extractLsb'_eq_extractLsb' (by decide)]
  exact BitVec.extractLsb'_eq_self

/-- **Interrupts start on the stacks that were set.** When a core has been initialised and its event
stack was set any number of times, the processor finds the core's task state segment through the
descriptor table, all of the interrupt stack table lies within the segment's limit, and its first two
entries are the interrupt stack and the event stack set last.
Source: `sys/cpu.cpp` `cpu::init`, `cpu::set_event_stack`, `sys/cpu.hpp` `gdt::load`
Kind: C
Hyps: `h`: the structure `Cpu` lies at `this`, as the compiler lays it out -/
theorem interruptStacks (this interruptStack top : BitVec 64) (tops : List (BitVec 64)) (t : AlignedTss)
    (m : Memory)
    (h : m.Holds this ((tops ++ [top]).foldl (fun c top => c.setEventStack top)
      (Cpu.init this interruptStack ⟨t, Gdt.construct⟩)).words) :
    ∃ tss, SystemSegment.decode (tssDescriptor this m) = tss ∧ tss.present = true ∧ tss.type = 9 ∧
      (∀ ist : BitVec 3, ist ≠ 0 →
        (istAddr tss.base ist - tss.base).toNat + 7 ≤ tss.limit.toNat) ∧
      m.load (istAddr tss.base 1) = interruptStack ∧ m.load (istAddr tss.base 2) = top := by
  rw [foldl_setEventStack] at h
  refine ⟨⟨tssAddr this, 103, 9, true⟩, ?_, rfl, rfl, fun ist hist => ?_, ?_, ?_⟩
  · rw [tssDescriptor_eq h]
    exact Tssdesc.decode_set _ _ rfl
  · dsimp only
    rw [istAddr, BitVec.add_assoc, BitVec.add_comm, BitVec.add_sub_cancel, BitVec.toNat_add,
      BitVec.toNat_ofNat]
    have := ist.isLt
    have h1 : (0x24 : BitVec 64).toNat = 36 := rfl
    have h2 : (103 : BitVec 20).toNat = 103 := rfl
    omega
  · rw [show (1 : BitVec 3) = BitVec.ofNat 3 (0 + 1) from rfl, load_ist h (by decide)]
    simp [setEventStack, init, AlignedTss.setIstEntry]
  · rw [show (2 : BitVec 3) = BitVec.ofNat 3 (1 + 1) from rfl, load_ist h (by decide)]
    simp [setEventStack, init, AlignedTss.setIstEntry]

/-- A core's structure at 2 MB. Source: `sys/cpu.cpp` `cpu::init`. Kind: C -/
theorem interruptStacks_one : ∃ m : Memory, ∃ tss,
    SystemSegment.decode (tssDescriptor 0x200000 m) = tss ∧ tss.present = true ∧
      m.load (istAddr tss.base 1) = 0x5000 ∧ m.load (istAddr tss.base 2) = 0x9000 := by
  obtain ⟨m, hm⟩ := Memory.exists_holds 0x200000 (([0x7000] ++ [0x9000]).foldl
    (fun (c : Cpu) top => c.setEventStack top) (Cpu.init 0x200000 0x5000
      ⟨⟨0, Vector.replicate 3 0, 0, Vector.replicate 7 0, 0, 0⟩, Gdt.construct⟩)).words (by decide)
  obtain ⟨tss, htss, hpresent, -, -, hfirst, hsecond⟩ := interruptStacks 0x200000 0x5000 0x9000
    [0x7000] ⟨0, Vector.replicate 3 0, 0, Vector.replicate 7 0, 0, 0⟩ m hm
  exact ⟨m, tss, htss, hpresent, hfirst, hsecond⟩

end Cpu

end EbbRT.Processor
