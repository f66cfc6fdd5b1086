import EbbRT.Mem.Pfn
import EbbRT.Processor.Descriptors

/-!
# Entering and leaving an interrupt

`idt_init` sets a gate for each exception that the kernel handles, on the first interrupt stack, and
for each vector from 32 on, on the second. The entry points of `isr.S` complete what the processor
pushed to an `exception_frame`, call a C function with its address, and go back to what the frame
says. `exception_entered`: for every handled exception the handler finds the interrupted computation
in the fields of the frame, and the stack aligned. `exception_left`: whatever frame it leaves is what
the processor goes on with. `event_entered`: an external interrupt reaches `event_interrupt` with its
own number.
-/

namespace EbbRT.Processor

open EbbRT.Lib EbbRT.Lib.X86

/-! ## The code -/

/-- The entry points.
Source: `sys/isr.S` `interrupt_entry`
Kind: D -/
inductive EntryPoint
  | de | db | nmi | bp | of | br | ud | nm | df | ts | np | ss | gp | pf | mf | ac | mc | xm
  deriving DecidableEq, Repr

namespace EntryPoint

/-- The entry points made by `interrupt_error_entry`; the others are made by `interrupt_noerror_entry`.
Source: `sys/isr.S` `interrupt_error_entry`
Kind: D -/
def hasErrorCode : EntryPoint → Bool
  | de | db | nmi | bp | of | br | ud | nm => false
  | df | ts | np | ss | gp | pf => true
  | mf => false
  | ac => true
  | mc | xm => false

end EntryPoint

/-- The C functions that the entry points call.
Source: `sys/isr.S` `interrupt_entry`
Kind: D -/
inductive Handler
  | divideErrorException | debugException | nmiInterrupt | breakpointException | overflowException
  | boundRangeExceededException | invalidOpcodeException | deviceNotAvailableException
  | doubleFaultException | invalidTssException | segmentNotPresent | stackFaultException
  | generalProtectionException | pageFaultException | x86FpuFloatingPointError
  | alignmentCheckException | machineCheckException | simdFloatingPointException
  deriving DecidableEq, Repr

/-- Source: `sys/isr.S` `interrupt_entry`
Kind: D -/
def EntryPoint.handler : EntryPoint → Handler
  | .de => .divideErrorException
  | .db => .debugException
  | .nmi => .nmiInterrupt
  | .bp => .breakpointException
  | .of => .overflowException
  | .br => .boundRangeExceededException
  | .ud => .invalidOpcodeException
  | .nm => .deviceNotAvailableException
  | .df => .doubleFaultException
  | .ts => .invalidTssException
  | .np => .segmentNotPresent
  | .ss => .stackFaultException
  | .gp => .generalProtectionException
  | .pf => .pageFaultException
  | .mf => .x86FpuFloatingPointError
  | .ac => .alignmentCheckException
  | .mc => .machineCheckException
  | .xm => .simdFloatingPointException

/-- The calls of `set` before the loop: the vector and the entry point.
Source: `sys/idt.cpp` `idt_init`
Kind: D -/
def exceptions : List (ℕ × EntryPoint) :=
  [(0, .de), (1, .db), (2, .nmi), (3, .bp), (4, .of), (5, .br), (6, .ud), (7, .nm), (8, .df),
    (10, .ts), (11, .np), (12, .ss), (13, .gp), (14, .pf), (16, .mf), (17, .ac), (18, .mc), (19, .xm)]

/-- `idt[i].set(cs, handler, entry::TYPE_INTERRUPT, 0, ist)`.
Source: `sys/idt.cpp` `idt_init`
Kind: D -/
def setGate (cs : BitVec 16) (handler ist : BitVec 64) (i : ℕ) (idt : ℕ → Entry) : ℕ → Entry :=
  Function.update idt i ((idt i).set cs handler Entry.typeInterrupt 0 ist)

/-- `event_entry + (i - 32) * 16`.
Source: `sys/idt.cpp` `idt_init`
Kind: D -/
def eventAddr (eventEntry : BitVec 64) (i : ℕ) : BitVec 64 := eventEntry + BitVec.ofNat 64 ((i - 32) * 16)

/-- The calls for the exceptions; `int` has the addresses of the entry points.
Source: `sys/idt.cpp` `idt_init`
Kind: D -/
def exceptionGates (cs : BitVec 16) (int : EntryPoint → BitVec 64) (idt : ℕ → Entry) : ℕ → Entry :=
  exceptions.foldl (fun idt e => setGate cs (int e.2) 1 e.1 idt) idt

/-- The loop, over the given vectors.
Source: `sys/idt.cpp` `idt_init`
Kind: D -/
def eventGates (cs : BitVec 16) (eventEntry : BitVec 64) (vectors : List ℕ) (idt : ℕ → Entry) : ℕ → Entry :=
  vectors.foldl (fun idt i => setGate cs (eventAddr eventEntry i) 2 i idt) idt

/-- Source: `sys/idt.cpp` `idt_init`
Kind: D -/
def idtInit (cs : BitVec 16) (int : EntryPoint → BitVec 64) (eventEntry : BitVec 64) (idt : ℕ → Entry) :
    ℕ → Entry :=
  eventGates cs eventEntry (List.range' 32 224) (exceptionGates cs int idt)

/-- Source: `sys/idt.hpp` `exception_frame`
Kind: D -/
structure ExceptionFrame where
  fpu : Vector (BitVec 64) 64
  empty : BitVec 64
  r15 : BitVec 64
  r14 : BitVec 64
  r13 : BitVec 64
  r12 : BitVec 64
  r11 : BitVec 64
  r10 : BitVec 64
  r9 : BitVec 64
  r8 : BitVec 64
  rbp : BitVec 64
  rdi : BitVec 64
  rsi : BitVec 64
  rdx : BitVec 64
  rcx : BitVec 64
  rbx : BitVec 64
  rax : BitVec 64
  errorCode : BitVec 64
  rip : BitVec 64
  cs : BitVec 64
  rflags : BitVec 64
  rsp : BitVec 64
  ss : BitVec 64

namespace ExceptionFrame

/-- The structure as it lies in memory.
Source: `sys/idt.hpp` `exception_frame`
Kind: D -/
def words (ef : ExceptionFrame) : List (BitVec 64) :=
  ef.fpu.toList ++ [ef.empty, ef.r15, ef.r14, ef.r13, ef.r12, ef.r11, ef.r10, ef.r9, ef.r8, ef.rbp,
    ef.rdi, ef.rsi, ef.rdx, ef.rcx, ef.rbx, ef.rax, ef.errorCode, ef.rip, ef.cs, ef.rflags, ef.rsp, ef.ss]

/-- The field of a general register.
Source: `sys/idt.hpp` `exception_frame`
Kind: D -/
def reg (ef : ExceptionFrame) : Reg → BitVec 64
  | .rax => ef.rax
  | .rbx => ef.rbx
  | .rcx => ef.rcx
  | .rdx => ef.rdx
  | .rsi => ef.rsi
  | .rdi => ef.rdi
  | .rbp => ef.rbp
  | .rsp => ef.rsp
  | .r8 => ef.r8
  | .r9 => ef.r9
  | .r10 => ef.r10
  | .r11 => ef.r11
  | .r12 => ef.r12
  | .r13 => ef.r13
  | .r14 => ef.r14
  | .r15 => ef.r15

/-- What the fields say about an interrupted computation, with the error code or the zero in its place
and what happens to lie at `empty`.
Source: `sys/idt.hpp` `exception_frame`
Kind: D -/
def of (s : Machine) (errorCode : Option (BitVec 64)) (empty : BitVec 64) : ExceptionFrame where
  fpu := s.fpu
  empty := empty
  r15 := s.regs .r15
  r14 := s.regs .r14
  r13 := s.regs .r13
  r12 := s.regs .r12
  r11 := s.regs .r11
  r10 := s.regs .r10
  r9 := s.regs .r9
  r8 := s.regs .r8
  rbp := s.regs .rbp
  rdi := s.regs .rdi
  rsi := s.regs .rsi
  rdx := s.regs .rdx
  rcx := s.regs .rcx
  rbx := s.regs .rbx
  rax := s.regs .rax
  errorCode := errorCode.getD 0
  rip := s.rip
  cs := s.cs
  rflags := s.rflags
  rsp := s.regs .rsp
  ss := s.ss

/-- The machine that the fields describe.
Source: `sys/isr.S` `interrupt_entry`
Kind: D -/
def resume (ef : ExceptionFrame) (mem : Memory) : Machine :=
  ⟨ef.reg, ef.rip, ef.rflags, ef.cs, ef.ss, ef.fpu, mem⟩

/-- The interrupted computation. Source: `sys/idt.hpp` `exception_frame`. Kind: L -/
@[simp]
theorem resume_of (s : Machine) (errorCode : Option (BitVec 64)) (empty : BitVec 64) (mem : Memory) :
    (of s errorCode empty).resume mem = { s with mem := mem } := by
  unfold resume
  congr 1
  funext r
  cases r <;> rfl

end ExceptionFrame

/-- The registers as they are pushed.
Source: `sys/isr.S` `interrupt_entry`
Kind: D -/
def pushedRegs : List Reg :=
  [.rax, .rbx, .rcx, .rdx, .rsi, .rdi, .rbp, .r8, .r9, .r10, .r11, .r12, .r13, .r14, .r15]

/-- The registers as they are popped.
Source: `sys/isr.S` `interrupt_entry`
Kind: D -/
def poppedRegs : List Reg :=
  [.r15, .r14, .r13, .r12, .r11, .r10, .r9, .r8, .rbp, .rdi, .rsi, .rdx, .rcx, .rbx, .rax]

/-- An entry point up to the call.
Source: `sys/isr.S` `interrupt_entry`
Kind: D -/
def interruptEntry (hasErrorCode : Bool) : List Instr :=
  (if hasErrorCode then [] else [.pushImm 0]) ++ (pushedRegs.map .push ++
    [.sub .rsp 520, .fwait, .fxsave .rsp, .mov .rdi .rsp])

/-- An entry point from the return of the call on.
Source: `sys/isr.S` `interrupt_entry`
Kind: D -/
def interruptExit : List Instr :=
  [.fxrstor .rsp, .add .rsp 520] ++ (poppedRegs.map .pop ++ [.add .rsp 8, .iretq])

/-- One of the entries that follow `event_entry`, as far as `event_entry_common`.
Source: `sys/isr.S` `event_entry`
Kind: D -/
def eventEntryCode (num : ℕ) : List Instr := [.movImm .rdi (BitVec.ofNat 64 num)]

/-- Where the `n` entries come to lie, counted from `event_entry`, and the numbers that they load: each is
aligned, a `movq` of seven bytes and a jump, of which the assembler chooses the size.
Source: `sys/isr.S` `event_entry`
Kind: D -/
def eventEntries (jmp : ℕ → ℕ) : (n offset num : ℕ) → List (ℕ × ℕ)
  | 0, _, _ => []
  | n + 1, offset, num =>
      let offset := (offset + 15) / 16 * 16
      (offset, num) :: eventEntries jmp n (offset + 7 + jmp num) (num + 1)

/-- Up to the call of `event_interrupt`.
Source: `sys/isr.S` `event_entry_common`
Kind: D -/
def eventEntryCommon : List Instr :=
  [.push .rsp, .pushMem .rsp 0, .and .rsp (~~~15)]

/-! ## The gates -/

section Gates

variable {cs : BitVec 16} {int : EntryPoint → BitVec 64} {eventEntry handler ist : BitVec 64} {idt : ℕ → Entry}
  {i v : ℕ}

/-- Source: `sys/idt.cpp` `idt_init`. Kind: L -/
theorem setGate_self : Gate.decode (setGate cs handler ist i idt i).raw =
    ⟨handler, cs, ist.setWidth 3, 0xe, 0, true⟩ := by
  rw [setGate, Function.update_self, Entry.decode_set]
  rfl

/-- Source: `sys/idt.cpp` `idt_init`. Kind: L -/
theorem setGate_of_ne (h : v ≠ i) : setGate cs handler ist i idt v = idt v := Function.update_of_ne h ..

/-- A loop that sets gates: a vector has the gate of the last call for it.
Source: `sys/idt.cpp` `idt_init`
Kind: L -/
theorem foldl_setGate {α : Type*} (l : List α) (vector : α → ℕ) (addr : α → BitVec 64)
    (hnodup : (l.map vector).Nodup) (v : ℕ) :
    (∀ a ∈ l, vector a = v →
      Gate.decode (l.foldl (fun idt a => setGate cs (addr a) ist (vector a) idt) idt v).raw =
        ⟨addr a, cs, ist.setWidth 3, 0xe, 0, true⟩) ∧
    ((∀ a ∈ l, vector a ≠ v) →
      l.foldl (fun idt a => setGate cs (addr a) ist (vector a) idt) idt v = idt v) := by
  induction l generalizing idt with
  | nil => exact ⟨fun _ h => absurd h List.not_mem_nil, fun _ => rfl⟩
  | cons b l ih =>
      rw [List.map_cons, List.nodup_cons] at hnodup
      obtain ⟨hhere, hnot⟩ := @ih (setGate cs (addr b) ist (vector b) idt) hnodup.2
      rw [List.foldl_cons]
      refine ⟨fun a ha hav => ?_, fun hne => ?_⟩
      · rcases List.mem_cons.mp ha with rfl | ha
        · rw [hnot fun c hc hcv => hnodup.1 (hav ▸ hcv ▸ List.mem_map_of_mem hc), ← hav]
          exact setGate_self
        · exact hhere a ha hav
      · rw [hnot fun c hc => hne c (List.mem_cons_of_mem _ hc)]
        exact setGate_of_ne (hne b (List.mem_cons_self ..)).symm

/-- Source: `sys/idt.cpp` `idt_init`. Kind: L -/
theorem eventGates_of_mem {vectors : List ℕ} (hnodup : vectors.Nodup) (hv : v ∈ vectors) :
    Gate.decode (eventGates cs eventEntry vectors idt v).raw =
      ⟨eventAddr eventEntry v, cs, 2, 0xe, 0, true⟩ :=
  (foldl_setGate vectors id (eventAddr eventEntry) (by rwa [List.map_id]) v).1 v hv rfl

/-- Source: `sys/idt.cpp` `idt_init`. Kind: L -/
theorem eventGates_of_not_mem {vectors : List ℕ} (hnodup : vectors.Nodup) (hv : v ∉ vectors) :
    eventGates cs eventEntry vectors idt v = idt v :=
  (foldl_setGate vectors id (eventAddr eventEntry) (by rwa [List.map_id]) v).2
    fun i hi hiv => hv (hiv ▸ hi)

/-- The loop starts behind the exceptions. Source: `sys/idt.cpp` `idt_init`. Kind: L -/
theorem idtInit_low (hlow : v < 32) :
    idtInit cs int eventEntry idt v = exceptionGates cs int idt v := by
  apply eventGates_of_not_mem List.nodup_range'
  rw [List.mem_range'_1]
  omega

/-- **The gates of the exceptions.** Source: `sys/idt.cpp` `idt_init`. Kind: P -/
theorem gate_exception {n : EntryPoint} (h : (v, n) ∈ exceptions) :
    Gate.decode (idtInit cs int eventEntry idt v).raw = ⟨int n, cs, 1, 0xe, 0, true⟩ := by
  rw [idtInit_low ((show ∀ e ∈ exceptions, e.1 < 32 by decide) _ h)]
  exact (foldl_setGate exceptions Prod.fst (fun e => int e.2) (by decide) v).1 _ h rfl

/-- **The gates of the external interrupts.** Source: `sys/idt.cpp` `idt_init`. Kind: P -/
theorem gate_event (hlow : 32 ≤ v) (hhigh : v < 256) :
    Gate.decode (idtInit cs int eventEntry idt v).raw =
      ⟨eventAddr eventEntry v, cs, 2, 0xe, 0, true⟩ := by
  apply eventGates_of_mem List.nodup_range'
  rw [List.mem_range'_1]
  omega

end Gates

/-- Each entry point is installed for an exception that comes with an error code exactly when it is made
for one. Source: `sys/isr.S` `interrupt_error_entry`. Kind: L -/
theorem hasErrorCode_eq {v : ℕ} {n : EntryPoint} (h : (v, n) ∈ exceptions) : n.hasErrorCode = pushesErrorCode v :=
  (show ∀ e ∈ exceptions, e.2.hasErrorCode = pushesErrorCode e.1 by decide) _ h

/-! ## The entry points -/

section EntryPoints

variable {flags : Instr → Machine → BitVec 64} {s t u : Machine} {top : BitVec 64}
  {errorCode : Option (BitVec 64)} {ws : List (BitVec 64)}

/-- Source: `sys/isr.S` `interrupt_entry`. Kind: L -/
theorem reverse_pushedRegs : pushedRegs.reverse = poppedRegs := rfl

/-- Every general register but the stack pointer is saved. Source: `sys/isr.S` `interrupt_entry`. Kind: L -/
theorem mem_poppedRegs : ∀ r : Reg, r ∈ poppedRegs ↔ r ≠ .rsp := by
  intro r
  cases r <;> decide

/-- A zero stands where no error code was pushed.
Source: `sys/isr.S` `interrupt_noerror_entry`
Kind: L -/
theorem stacked_errorCode (flags : Instr → Machine → BitVec 64)
    (h : Stacked s t top (errorCode.toList ++ ws)) (hfits : ws.length ≤ 10) :
    Stacked s (run flags (if errorCode.isSome then [] else [.pushImm 0]) t) top
      (errorCode.getD 0 :: ws) := by
  cases errorCode with
  | none => exact h.push (by simp only [Option.toList_none, List.nil_append]; omega) 0
  | some e => exact h

/-- The general registers, and room for the state of the floating point unit.
Source: `sys/isr.S` `interrupt_entry`
Kind: L -/
theorem stacked_pushes (flags : Instr → Machine → BitVec 64) (h : Stacked s t top ws) (hfits : ws.length ≤ 10) :
    Stacked s (run flags (pushedRegs.map .push) t) top (poppedRegs.map s.regs ++ ws) := by
  have hlen : pushedRegs.length = (poppedRegs.map t.regs).length := rfl
  obtain ⟨hbelow, hholds⟩ := run_pushes flags pushedRegs h.holds (by decide)
    (by rw [show pushedRegs.length = 15 from rfl]; omega)
  rw [hlen] at hbelow
  rw [reverse_pushedRegs] at hholds
  have hregs : poppedRegs.map t.regs = poppedRegs.map s.regs :=
    List.map_congr_left fun r hr => h.regs r ((mem_poppedRegs r).mp hr)
  rw [← hregs]
  exact h.below hbelow hholds

/-- **Saving the floating point unit**: what was below the stack pointer is left over at `empty`.
Source: `sys/isr.S` `interrupt_entry`
Kind: L -/
theorem stacked_fxsave (flags : Instr → Machine → BitVec 64) (h : Stacked s t top ws) (hfits : ws.length ≤ 30) :
    ∃ empty, Stacked s (run flags [.sub .rsp 520, .fwait, .fxsave .rsp] t) top
      (s.fpu.toList ++ empty :: ws) := by
  have hrsp : (run flags [.sub .rsp 520, .fwait, .fxsave .rsp] t).rsp = t.rsp - 520 :=
    t.setReg_self .rsp (t.rsp - 520)
  have hmem : (run flags [.sub .rsp 520, .fwait, .fxsave .rsp] t).mem =
      Memory.storeWords t.fpu.toList t.mem (t.rsp - 520) := by
    rw [← hrsp]
    rfl
  have hgap : t.rsp - 520 + BitVec.ofNat 64 (8 * t.fpu.toList.length) = t.rsp - 8 := by
    rw [Vector.length_toList]
    apply BitVec.eq_of_toNat_eq
    rw [BitVec.toNat_add, BitVec.toNat_sub, BitVec.toNat_sub]
    have h1 : (520 : BitVec 64).toNat = 520 := rfl
    have h2 : (BitVec.ofNat 64 (8 * 64)).toNat = 512 := rfl
    have h3 : (8 : BitVec 64).toNat = 8 := rfl
    omega
  -- one word between the saved state and the registers is not written
  have hgrown : t.mem.Holds (t.rsp - 520 + BitVec.ofNat 64 (8 * t.fpu.toList.length))
      (t.mem.load (t.rsp - 8) :: ws) := by
    rw [hgap]
    exact h.holds.grow 1
  refine ⟨t.mem.load (t.rsp - 8), ?_⟩
  rw [← h.fpu, ← List.singleton_append (l := ws), ← List.append_assoc]
  apply h.below
  · refine ⟨?_, fun r hr => t.setReg_of_ne hr _, rfl, rfl, rfl, rfl, fun x hx => ?_⟩
    · rw [hrsp, List.length_append, Vector.length_toList]
      rfl
    · rw [hmem]
      apply Memory.storeWords_apply_of_le
      rw [hrsp, List.length_append] at hx
      omega
  · rw [hrsp, hmem, List.append_assoc, List.singleton_append]
    exact hgrown.storeWords _ (by rw [Vector.length_toList, List.length_cons]; omega)

/-- **Entering.** The C function's argument points to a frame with the interrupted computation; the stack
is that of the gate, aligned as `fxsave` and a call need it; and memory outside the frame is as it was.
Source: `sys/isr.S` `interrupt_entry`
Kind: P -/
theorem exception_entered (flags : Instr → Machine → BitVec 64) (s : Machine) (tss : BitVec 64) (g : Gate) {b : Bool}
    (hcode : errorCode.isSome = b) :
    ∃ empty t, run flags (interruptEntry b) (s.deliver tss g errorCode) = t ∧
      t.regs .rdi = t.rsp ∧ t.rsp = s.interruptStack tss g.ist - 688 ∧
      t.mem.Holds t.rsp (ExceptionFrame.of s errorCode empty).words ∧
      ∀ x, 688 ≤ (x - t.rsp).toNat → t.mem x = s.mem x := by
  have hcpu := stacked_deliver s tss g errorCode
  have hcode' := stacked_errorCode flags hcpu (by simp)
  rw [hcode] at hcode'
  obtain ⟨empty, hfpu⟩ := stacked_fxsave flags
    (stacked_pushes flags hcode' (by simp)) (by simp [poppedRegs])
  have hlen : (s.fpu.toList ++ empty :: (poppedRegs.map s.regs ++ errorCode.getD 0 ::
      [s.rip, s.cs, s.rflags, s.rsp, s.ss])).length = 86 := by
    simp [poppedRegs]
  obtain ⟨hrsp, hholds, -, -, houtside⟩ := hfpu
  rw [hlen] at hrsp houtside
  have hrun : run flags (interruptEntry b) (s.deliver tss g errorCode) =
      run flags [.mov .rdi .rsp] (run flags [.sub .rsp 520, .fwait, .fxsave .rsp]
        (run flags (pushedRegs.map .push)
          (run flags (if b then [] else [.pushImm 0]) (s.deliver tss g errorCode)))) := by
    rw [interruptEntry, run_append, run_append]
    rfl
  refine ⟨empty, _, hrun, ?_⟩
  generalize run flags [.sub .rsp 520, .fwait, .fxsave .rsp] (run flags (pushedRegs.map .push)
    (run flags (if b then [] else [.pushImm 0]) (s.deliver tss g errorCode))) = v at *
  have hmov : (run flags [.mov .rdi .rsp] v).rsp = v.rsp := v.setReg_of_ne (by decide) _
  rw [hmov]
  exact ⟨v.setReg_self .rdi v.rsp, hrsp, hholds, houtside⟩

/-- The words of a frame, as the entry point takes them off. Source: `sys/idt.hpp` `exception_frame`. Kind: L -/
theorem words_eq (ef : ExceptionFrame) : ef.words = ef.fpu.toList ++ ef.empty :: (poppedRegs.map ef.reg ++
    ef.errorCode :: [ef.rip, ef.cs, ef.rflags, ef.rsp, ef.ss]) := rfl

/-- Source: `sys/isr.S` `interrupt_entry`. Kind: L -/
theorem run_fxrstor (flags : Instr → Machine → BitVec 64) {fpu : Vector (BitVec 64) 64} {empty : BitVec 64}
    (h : u.mem.Holds u.rsp (fpu.toList ++ empty :: ws)) :
    (run flags [.fxrstor .rsp, .add .rsp 520] u).fpu = fpu ∧
      (run flags [.fxrstor .rsp, .add .rsp 520] u).mem = u.mem ∧
      u.mem.Holds (run flags [.fxrstor .rsp, .add .rsp 520] u).rsp ws := by
  obtain ⟨hfpu, -, hws⟩ := Memory.holds_append.mp h
  rw [run_cons, run_cons, run_nil, fpu_add, mem_add, rsp_add, rsp_fxrstor, mem_fxrstor]
  refine ⟨fpu_fxrstor hfpu, rfl, ?_⟩
  rw [Vector.length_toList, BitVec.add_assoc] at hws
  exact hws

/-- The error code is left out, and the processor takes the rest.
Source: `sys/isr.S` `interrupt_entry`
Kind: L -/
theorem run_iretq {errorCode rip cs rflags rsp ss : BitVec 64}
    (h : u.mem.Holds u.rsp (errorCode :: [rip, cs, rflags, rsp, ss])) :
    run flags [.add .rsp 8, .iretq] u =
      ⟨Function.update u.regs .rsp rsp, rip, rflags, cs, ss, u.fpu, u.mem⟩ := by
  replace h := (Memory.holds_cons.mp h).2
  have hrsp : (exec flags u (.add .rsp 8)).rsp = u.rsp + 8 := rsp_add u 8
  have hmem : (exec flags u (.add .rsp 8)).mem = u.mem := mem_add u .rsp 8
  rw [← hrsp, ← hmem] at h
  rw [run_cons, run_cons, run_nil, exec_iretq h, mem_add, fpu_add]
  congr 1
  simp [exec, Machine.setReg]

/-- **Leaving.** Whatever the frame says when the C function returns is what the processor goes on with.
Source: `sys/isr.S` `interrupt_entry`
Kind: P -/
theorem exception_left {ef : ExceptionFrame} (h : u.mem.Holds u.rsp ef.words) :
    run flags interruptExit u = ef.resume u.mem := by
  rw [words_eq] at h
  obtain ⟨hvfpu, hvmem, hrest⟩ := run_fxrstor flags h
  rw [interruptExit, run_append, run_append]
  generalize run flags [.fxrstor .rsp, .add .rsp 520] u = v at *
  rw [← hvmem] at hrest
  obtain ⟨hwrsp, hwregs, -, hwfpu, hwmem⟩ := run_pops flags poppedRegs hrest (by decide)
  replace hrest := (Memory.holds_append.mp hrest).2
  rw [List.length_map, ← hwrsp, ← hwmem] at hrest
  generalize run flags (poppedRegs.map .pop) v = w at *
  rw [run_iretq hrest, ExceptionFrame.resume, hwfpu, hvfpu, hwmem, hvmem]
  congr 1
  funext r
  by_cases hr : r = Reg.rsp
  · rw [hr, Function.update_self]
    rfl
  · rw [Function.update_of_ne hr]
    exact hwregs r ((mem_poppedRegs r).mpr hr)

/-- **Exceptions are transparent.** For every exception that the kernel handles, in any state of a core:
the C function finds the interrupted computation in the frame that its argument points to, on the
aligned stack of the gate, with memory outside the frame as it was; when it returns, the processor goes
on with what the frame then says, and so with the interrupted computation if the frame was left alone.
Source: `sys/isr.S` `interrupt_entry`, `sys/idt.cpp` `idt_init`
Kind: C
Hyps: `hcode`: the processor pushes an error code for the exceptions that have one -/
theorem exceptions_transparent (flags : Instr → Machine → BitVec 64) (cs : BitVec 16)
    (int : EntryPoint → BitVec 64) (eventEntry tss : BitVec 64) (idt : ℕ → Entry) (s : Machine) {v : ℕ}
    {n : EntryPoint} (h : (v, n) ∈ exceptions) (errorCode : Option (BitVec 64))
    (hcode : errorCode.isSome = pushesErrorCode v) :
    ∃ g empty t, Gate.decode (idtInit cs int eventEntry idt v).raw = g ∧ g.present = true ∧
      (s.deliver tss g errorCode).rip = int n ∧
      run flags (interruptEntry n.hasErrorCode) (s.deliver tss g errorCode) = t ∧
      t.rsp = s.interruptStack tss 1 - 688 ∧ t.rsp.toNat % 16 = 0 ∧
      t.mem.Holds (t.regs .rdi) (ExceptionFrame.of s errorCode empty).words ∧
      (∀ x, 688 ≤ (x - t.rsp).toNat → t.mem x = s.mem x) ∧
      (∀ u ef, u.rsp = t.rsp → u.mem.Holds (t.regs .rdi) (ExceptionFrame.words ef) →
        run flags interruptExit u = ef.resume u.mem) ∧
      ∀ u, u.rsp = t.rsp →
        (∀ i < 688, u.mem (t.regs .rdi + BitVec.ofNat 64 i) = t.mem (t.regs .rdi + BitVec.ofNat 64 i)) →
        run flags interruptExit u = { s with mem := u.mem } := by
  obtain ⟨empty, t, hrun, hrdi, hrsp, hholds, houtside⟩ := exception_entered flags s tss
    ⟨int n, cs, 1, 0xe, 0, true⟩ (hcode.trans (hasErrorCode_eq h).symm)
  have haligned := interruptStack_aligned s tss 1
  dsimp only at hrsp
  refine ⟨_, empty, t, gate_exception h, rfl, ?_, hrun, hrsp, ?_, ?_, houtside, ?_, ?_⟩
  · unfold Machine.deliver
    rfl
  · have h688 : (688 : BitVec 64).toNat = 688 := rfl
    rw [hrsp, BitVec.toNat_sub]
    omega
  · rwa [hrdi]
  · intro u ef hu hef
    rw [hrdi, ← hu] at hef
    exact exception_left hef
  · intro u hu hsame
    rw [hrdi] at hsame
    have hlen : (ExceptionFrame.of s errorCode empty).words.length = 86 := by
      simp [ExceptionFrame.words]
    have hef : u.mem.Holds u.rsp (ExceptionFrame.of s errorCode empty).words := by
      rw [hu]
      apply hholds.congr
      rw [hlen]
      exact hsame
    rw [exception_left hef, ExceptionFrame.resume_of]

/-- A page fault. Source: `sys/isr.S` `int_pf`. Kind: C -/
theorem exceptions_transparent_pageFault :
    ∃ g empty t, Gate.decode (idtInit 8 (fun _ => 0x100000) 0x200000 (fun _ => {}) 14).raw = g ∧
      g.present = true ∧
      run (fun _ _ => 0) (interruptEntry true)
        (Machine.deliver ⟨fun _ => 7, 1, 2, 8, 0, Vector.replicate 64 5, fun _ => 0⟩ 0x3000 g (some 2)) = t ∧
      t.mem.Holds (t.regs .rdi) (ExceptionFrame.of
        ⟨fun _ => 7, 1, 2, 8, 0, Vector.replicate 64 5, fun _ => 0⟩ (some 2) empty).words := by
  obtain ⟨g, empty, t, hg, hpresent, -, hrun, -, -, hholds, -⟩ :=
    exceptions_transparent (fun _ _ => 0) 8 (fun _ => 0x100000) 0x200000 0x3000 (fun _ => {})
      ⟨fun _ => 7, 1, 2, 8, 0, Vector.replicate 64 5, fun _ => 0⟩ (v := 14) (n := .pf) (by decide) (some 2) rfl
  exact ⟨g, empty, t, hg, hpresent, hrun, hholds⟩

/-- The entries are sixteen bytes apart, and load the numbers in turn. Source: `sys/isr.S` `event_entry`. Kind: L -/
theorem eventEntries_eq {jmp : ℕ → ℕ} (hjmp : ∀ k, jmp k ≤ 9) (n : ℕ) {offset k num : ℕ}
    (hlow : 16 * k < offset + 16) (hhigh : offset ≤ 16 * k) :
    eventEntries jmp n offset num = (List.range' 0 n).map fun i => (16 * (k + i), num + i) := by
  induction n generalizing offset k num with
  | zero => rfl
  | succ n ih =>
      have hoffset : (offset + 15) / 16 * 16 = 16 * k := by omega
      have hnum := hjmp num
      rw [eventEntries, hoffset, List.range'_succ, List.map_cons, ih (k := k + 1) (by omega) (by omega),
        List.range'_eq_map_range (s := 0 + 1), List.range'_eq_map_range (s := 0)]
      simp [Nat.add_comm, Nat.add_left_comm]

/-- Clearing the four lowest bits. Source: `sys/isr.S` `event_entry_common`. Kind: L -/
theorem toNat_and_align (x : BitVec 64) : (x &&& ~~~15).toNat = x.toNat / 16 * 16 := by
  rw [BitVec.toNat_and]
  exact alignDown_two_pow (k := 4) x.isLt (by decide)

/-- **Two copies of the stack pointer** are pushed before it is aligned, so that one of them is found
behind it either way.
Source: `sys/isr.S` `event_entry_common`
Kind: L -/
theorem run_eventEntryCommon (flags : Instr → Machine → BitVec 64) (u : Machine)
    (ws : List (BitVec 64)) (h : u.mem.Holds u.rsp ws) (hfits : ws.length ≤ 10)
    (haligned : u.rsp.toNat % 16 = 8) :
    (run flags eventEntryCommon u).rsp.toNat % 16 = 0 ∧
      (run flags eventEntryCommon u).regs .rdi = u.regs .rdi ∧
      (run flags eventEntryCommon u).mem.load ((run flags eventEntryCommon u).rsp + 8) = u.rsp ∧
      (run flags eventEntryCommon u).mem.Holds u.rsp ws := by
  have hone := holds_push h (by omega) u.rsp
  have htwo := holds_push hone (by rw [List.length_cons]; omega) u.rsp
  have hload : (u.push u.rsp).mem.load ((u.push u.rsp).regs .rsp + 0) = u.rsp := by
    rw [show (u.push u.rsp).regs .rsp + 0 = (u.push u.rsp).rsp from BitVec.add_zero _]
    exact hone.1
  have hpushed : run flags eventEntryCommon u =
      exec flags ((u.push u.rsp).push u.rsp) (.and .rsp (~~~15)) := by
    unfold eventEntryCommon
    rw [run_cons, run_cons, run_cons, run_nil]
    congr 1
    rw [show exec flags u (.push .rsp) = u.push u.rsp from rfl, exec, hload]
  have hrsp : ((u.push u.rsp).push u.rsp).rsp = u.rsp - 8 - 8 := by rw [rsp_push, rsp_push]
  have hrdi : ((u.push u.rsp).push u.rsp).regs .rdi = u.regs .rdi := by
    rw [(below_push _ _).regs _ (by decide), (below_push _ _).regs _ (by decide)]
  rw [hrsp] at htwo
  rw [hpushed]
  generalize (u.push u.rsp).push u.rsp = w at *
  obtain ⟨hcopy, -, hws⟩ := htwo
  rw [rsp_and, mem_and, regs_and_of_ne _ (by decide), hrsp, hrdi]
  rw [BitVec.sub_add_cancel, BitVec.sub_add_cancel] at hws
  have hdown : (u.rsp - 8 - 8 &&& ~~~15).toNat = (u.rsp - 8 - 8 - 8).toNat := by
    simp only [toNat_and_align, BitVec.toNat_sub, Memory.toNat_eight]
    omega
  refine ⟨?_, rfl, ?_, hws⟩
  · rw [toNat_and_align]
    omega
  · rw [BitVec.eq_of_toNat_eq hdown, BitVec.sub_add_cancel]
    exact hcopy

/-- Only what the processor and the entry push is written. Source: `sys/isr.S` `event_entry_common`. Kind: L -/
theorem event_outside (s : Machine) (tss : BitVec 64) (g : Gate) (num : ℕ) {x : BitVec 64}
    (hx : 56 ≤ (x - (s.interruptStack tss g.ist - 56)).toNat) :
    (run flags (eventEntryCode num ++ eventEntryCommon) (s.deliver tss g none)).mem x = s.mem x := by
  have hcpu := stacked_deliver s tss g none
  have hrsp : (s.deliver tss g none).rsp = s.interruptStack tss g.ist - 40 := hcpu.rsp
  have h56 : (56 : BitVec 64).toNat = 56 := rfl
  have h40 : (40 : BitVec 64).toNat = 40 := rfl
  rw [BitVec.toNat_sub, BitVec.toNat_sub, h56] at hx
  have hlast : (s.deliver tss g none).mem x = s.mem x := by
    apply hcpu.outside
    have hlen : ((none : Option (BitVec 64)).toList ++ [s.rip, s.cs, s.rflags, s.rsp, s.ss]).length = 5 := rfl
    rw [hrsp, hlen, BitVec.toNat_sub, BitVec.toNat_sub, h40]
    omega
  rw [← hlast]
  generalize s.deliver tss g none = c at *
  have hmov : (c.setReg .rdi (BitVec.ofNat 64 num)).rsp = c.rsp := c.setReg_of_ne (by decide) _
  have hpushed : (run flags (eventEntryCode num ++ eventEntryCommon) c).mem =
      (((c.setReg .rdi (BitVec.ofNat 64 num)).push c.rsp).push
        (((c.setReg .rdi (BitVec.ofNat 64 num)).push c.rsp).mem.load (c.rsp - 8 + 0))).mem := by
    rw [eventEntryCode, eventEntryCommon, List.singleton_append, run_cons, run_cons, run_cons, run_cons,
      run_nil, mem_and]
    simp only [exec]
    rw [← Machine.rsp, hmov, ← Machine.rsp, rsp_push, hmov]
  rw [hpushed, (below_push _ _).outside, (below_push _ _).outside]
  · rfl
  · rw [rsp_push, hmov, hrsp, BitVec.toNat_sub, BitVec.toNat_sub, BitVec.toNat_sub, h40,
      Memory.toNat_eight]
    omega
  · rw [rsp_push, rsp_push, hmov, hrsp, BitVec.toNat_sub, BitVec.toNat_sub, BitVec.toNat_sub,
      BitVec.toNat_sub, h40, Memory.toNat_eight]
    omega

/-- **External interrupts reach `event_interrupt` with their number.** For every vector from 32 on, in any
state of a core: the gate leads to the entry that loads the vector's number, on the event stack; the
stack is aligned at the call, and what the processor pushed is found behind it.
Source: `sys/isr.S` `event_entry`, `event_entry_common`, `sys/idt.cpp` `idt_init`
Kind: C
Fidelity: jumps have the length `jmp` that the assembler chose for each entry
Hyps: `hjmp`: an entry and its jump fit into the 16 bytes of `.align` -/
theorem events_entered (flags : Instr → Machine → BitVec 64) (cs : BitVec 16)
    (int : EntryPoint → BitVec 64) (eventEntry tss : BitVec 64) (idt : ℕ → Entry) (jmp : ℕ → ℕ)
    (s : Machine) {v : ℕ} (hlow : 32 ≤ v) (hhigh : v < 256) (hjmp : ∀ k, jmp k ≤ 9) :
    ∃ g c offset num t, Gate.decode (idtInit cs int eventEntry idt v).raw = g ∧ g.present = true ∧
      s.deliver tss g none = c ∧ c.rip = eventEntry + BitVec.ofNat 64 offset ∧
      (offset, num) ∈ eventEntries jmp (256 - 32) 0 32 ∧
      run flags (eventEntryCode num ++ eventEntryCommon) c = t ∧
      t.regs .rdi = BitVec.ofNat 64 v ∧ t.rsp.toNat % 16 = 0 ∧
      c.rsp = s.interruptStack tss 2 - 40 ∧ t.mem.load (t.rsp + 8) = c.rsp ∧
      t.mem.Holds c.rsp [s.rip, s.cs, s.rflags, s.rsp, s.ss] := by
  have hcpu := stacked_deliver s tss ⟨eventAddr eventEntry v, cs, 2, 0xe, 0, true⟩ none
  have hrip : (s.deliver tss ⟨eventAddr eventEntry v, cs, 2, 0xe, 0, true⟩ none).rip =
      eventEntry + BitVec.ofNat 64 ((v - 32) * 16) := rfl
  have hstack := interruptStack_aligned s tss 2
  have hrsp : (s.deliver tss ⟨eventAddr eventEntry v, cs, 2, 0xe, 0, true⟩ none).rsp =
      s.interruptStack tss 2 - 40 := hcpu.rsp
  refine ⟨_, _, (v - 32) * 16, v, _, gate_event hlow hhigh, rfl, rfl, hrip, ?_, rfl, ?_⟩
  · rw [eventEntries_eq hjmp (k := 0) _ (by omega) (by omega), List.mem_map]
    exact ⟨v - 32, List.mem_range'_1.mpr (by omega), by rw [Prod.mk.injEq]; omega⟩
  · generalize s.deliver tss ⟨eventAddr eventEntry v, cs, 2, 0xe, 0, true⟩ none = c at *
    have hmov : (c.setReg .rdi (BitVec.ofNat 64 v)).rsp = c.rsp := c.setReg_of_ne (by decide) _
    obtain ⟨haligned, hrdi, hcopy, hholds⟩ := run_eventEntryCommon flags
      (c.setReg .rdi (BitVec.ofNat 64 v)) [s.rip, s.cs, s.rflags, s.rsp, s.ss] (by rw [hmov]; exact hcpu.holds) (by simp) (by
        have h40 : (40 : BitVec 64).toNat = 40 := rfl
        rw [hmov, hrsp, BitVec.toNat_sub]
        omega)
    rw [hmov] at hcopy hholds
    exact ⟨hrdi.trans (c.setReg_self .rdi _), haligned, hrsp, hcopy, hholds⟩

/-- The timer's vector, the first that is allocated, and its entry point with jumps of five bytes.
Source: `sys/isr.S` `event_entry`
Kind: C -/
theorem events_entered_first :
    ∃ g c t, Gate.decode (idtInit 8 (fun _ => 0x100000) 0x200000 (fun _ => {}) 32).raw = g ∧
      Machine.deliver ⟨fun _ => 7, 1, 2, 8, 0, Vector.replicate 64 5, fun _ => 0⟩ 0x3000 g none = c ∧
      c.rip = 0x200000 ∧ run (fun _ _ => 0) (eventEntryCode 32 ++ eventEntryCommon) c = t ∧
      t.regs .rdi = 32 ∧ t.rsp.toNat % 16 = 0 ∧ t.mem.Holds c.rsp [1, 8, 2, 7, 0] := by
  obtain ⟨g, c, offset, num, t, hg, -, hc, hrip, hmem, hrun, hrdi, haligned, -, -, hholds⟩ :=
    events_entered (fun _ _ => 0) 8 (fun _ => 0x100000) 0x200000 0x3000 (fun _ => {}) (fun _ => 5)
      ⟨fun _ => 7, 1, 2, 8, 0, Vector.replicate 64 5, fun _ => 0⟩ (v := 32) (le_refl _) (by decide)
      (fun _ => by decide)
  have hfirst : c.rip = 0x200000 := by
    rw [← hc, ← hg, gate_event (le_refl _) (by decide)]
    rfl
  -- the entry at the gate's address is the first
  have hentries : ∀ e ∈ eventEntries (fun _ => 5) (256 - 32) 0 32,
      0x200000 + BitVec.ofNat 64 e.1 = (0x200000 : BitVec 64) → e.2 = 32 := by decide +kernel
  obtain rfl : num = 32 := hentries _ hmem (hrip.symm.trans hfirst)
  exact ⟨g, c, t, hg, hc, hfirst, hrun, hrdi, haligned, hholds⟩

end EntryPoints

end EbbRT.Processor
