import EbbRT.Ebb.EventManager
import EbbRT.Lib.X86

/-!
# Switching between stacks

`save_context_and_switch` stores the registers that a call preserves, takes a new stack and calls a
function there; `activate_context_and_return` loads them again, and its return leaves the first
function. `context_resumed`: whatever ran in between, the computation goes on as if its call had
returned, as long as the stored words and the return address on its stack were left alone. On the
registers this is what `EventManager` says of the two (`registers_saveAndCall`,
`registers_activateContextAndReturn`).
-/

namespace EbbRT.Processor

open EbbRT.Lib EbbRT.Lib.X86

/-! ## The code -/

/-- Up to the call; `context` is in `rcx`, `stack` in `rsi`.
Source: `sys/stack.S` `save_context_and_switch`
Kind: D -/
def saveContextAndSwitch : List Instr :=
  [.store .rcx 0 .rbx, .store .rcx 8 .rsp, .store .rcx 16 .rbp, .store .rcx 24 .r12,
    .store .rcx 32 .r13, .store .rcx 40 .r14, .store .rcx 48 .r15, .mov .rsp .rsi]

/-- `context` is in `rdi`.
Source: `sys/stack.S` `activate_context_and_return`
Kind: D -/
def activateContextAndReturn : List Instr :=
  [.load .rbx .rdi 0, .load .rsp .rdi 8, .load .rbp .rdi 16, .load .r12 .rdi 24, .load .r13 .rdi 32,
    .load .r14 .rdi 40, .load .r15 .rdi 48, .ret]

/-- The function runs on the new stack; `next` is the address behind the call.
Source: `sys/stack.S` `save_context_and_switch`
Kind: D -/
def saveAndCall (flags : Instr → Machine → BitVec 64) (next : BitVec 64) (s : Machine) : Machine :=
  (run flags saveContextAndSwitch s).call (s.regs .rdx) next

/-- The registers that a call preserves, in the order of `EventContext`.
Source: `sys/event_manager.hpp` `EventManager::EventContext`
Kind: D -/
def preserved : List Reg := [.rbx, .rsp, .rbp, .r12, .r13, .r14, .r15]

/-- The words of a context.
Source: `sys/event_manager.hpp` `EventManager::EventContext`
Kind: D -/
def registers (f : Reg → BitVec 64) : EventManager.Registers where
  rbx := (f .rbx).toNat
  rsp := (f .rsp).toNat
  rbp := (f .rbp).toNat
  r12 := (f .r12).toNat
  r13 := (f .r13).toNat
  r14 := (f .r14).toNat
  r15 := (f .r15).toNat

/-! ## Saving and activating -/

section Switch

variable {flags : Instr → Machine → BitVec 64} {s t u : Machine} {next : BitVec 64} {f : Reg → BitVec 64}

/-- The stores are those of the words one after another. Source: `sys/stack.S` `save_context_and_switch`. Kind: L -/
theorem run_saveContextAndSwitch (s : Machine) : run flags saveContextAndSwitch s =
    { s.setReg .rsp (s.regs .rsi) with
      mem := Memory.storeWords (preserved.map s.regs) s.mem (s.regs .rcx) } := by
  simp only [saveContextAndSwitch, run_cons, run_nil, exec, Machine.setReg, preserved, List.map_cons,
    List.map_nil, Memory.storeWords, BitVec.add_assoc, add_zero]
  rfl

/-- Where the call leaves the stack. Source: `sys/stack.S` `save_context_and_switch`. Kind: L -/
theorem rsp_saveAndCall (s : Machine) : (saveAndCall flags next s).rsp = s.regs .rsi - 8 := by
  rw [saveAndCall, run_saveContextAndSwitch]
  simp [Machine.call, Machine.rsp, Machine.push, Machine.setReg]

/-- The memory that the function finds. Source: `sys/stack.S` `save_context_and_switch`. Kind: L -/
theorem mem_saveAndCall (s : Machine) : (saveAndCall flags next s).mem =
    (Memory.storeWords (preserved.map s.regs) s.mem (s.regs .rcx)).store (s.regs .rsi - 8) next := by
  rw [saveAndCall, run_saveContextAndSwitch]
  simp [Machine.call, Machine.rsp, Machine.push, Machine.setReg]

/-- **Saving** writes the words of the context and the return address of the call, and no other byte.
Source: `sys/stack.S` `save_context_and_switch`
Kind: P -/
theorem mem_saveAndCall_outside (s : Machine) {x : BitVec 64} (hcontext : 56 ≤ (x - s.regs .rcx).toNat)
    (hstack : 8 ≤ (x - (s.regs .rsi - 8)).toNat) : (saveAndCall flags next s).mem x = s.mem x := by
  rw [mem_saveAndCall, Memory.store_apply_of_le hstack]
  exact Memory.storeWords_apply_of_le hcontext

/-- The stored words lie there when the function is called, if the new stack's first word is elsewhere.
Source: `sys/stack.S` `save_context_and_switch`
Kind: L -/
theorem holds_saveAndCall (flags : Instr → Machine → BitVec 64) (next : BitVec 64) (s : Machine)
    (hapart : 8 ≤ (s.regs .rcx - (s.regs .rsi - 8)).toNat)
    (hfits : (s.regs .rcx - (s.regs .rsi - 8)).toNat + 56 ≤ 2 ^ 64) :
    (saveAndCall flags next s).mem.Holds (s.regs .rcx) (preserved.map s.regs) := by
  have hstored := (Memory.holds_nil (m := s.mem)
    (a := s.regs .rcx + BitVec.ofNat 64 (8 * (preserved.map s.regs).length))).storeWords
      (preserved.map s.regs) (by simp [preserved])
  rw [List.append_nil] at hstored
  rw [mem_saveAndCall]
  exact hstored.store_of_apart hapart (by simpa [preserved] using hfits)

/-- **Activating**: the registers are what the words say, and the return takes the address that the
stored stack pointer points to.
Source: `sys/stack.S` `activate_context_and_return`
Kind: P -/
theorem run_activateContextAndReturn (h : u.mem.Holds (u.regs .rdi) (preserved.map f)) :
    run flags activateContextAndReturn u =
      { u with
        regs := fun r => if r = .rsp then f .rsp + 8 else if r ∈ preserved then f r else u.regs r
        rip := u.mem.load (f .rsp) } := by
  have hcode : activateContextAndReturn = loads .rdi preserved 0 ++ [.ret] := rfl
  rw [hcode, run_append, run_loads (by rwa [add_zero]) (by decide), run_cons, run_nil, exec,
    Machine.setReg]
  congr 1
  funext r
  dsimp only
  by_cases hr : r = .rsp
  · rw [if_pos hr, hr, Function.update_self]
    rfl
  · rw [if_neg hr, Function.update_of_ne hr]

/-- `t` is where the computation `s` is after it returned, up to the registers that a call may change.
Source: `sys/stack.S` `activate_context_and_return`
Kind: D -/
structure Returned (flags : Instr → Machine → BitVec 64) (s t : Machine) : Prop where
  rip : t.rip = (exec flags s .ret).rip
  rsp : t.rsp = (exec flags s .ret).rsp
  regs : ∀ r ∈ preserved, r ≠ .rsp → t.regs r = s.regs r

/-- Activating the words that a computation stored, while its return address is there.
Source: `sys/stack.S` `activate_context_and_return`
Kind: L -/
theorem returned_of_holds (flags : Instr → Machine → BitVec 64)
    (h : u.mem.Holds (u.regs .rdi) (preserved.map s.regs))
    (hreturn : u.mem.load s.rsp = s.mem.load s.rsp) :
    Returned flags s (run flags activateContextAndReturn u) ∧
      (run flags activateContextAndReturn u).mem = u.mem := by
  rw [run_activateContextAndReturn h]
  refine ⟨⟨hreturn, ?_, fun r hr hne => ?_⟩, rfl⟩
  · simp [Machine.rsp, exec]
  · simp [hr, hne]

/-- **The suspended call returns.** Whatever ran after a computation saved its context, and wherever the
words of the context were copied to: if they, and the return address on the suspended stack, are as they
were, then activating the context goes on behind the call of `save_context_and_switch`, with the stack
pointer and all registers that a call preserves as a return leaves them.
Source: `sys/stack.S` `save_context_and_switch`, `activate_context_and_return`
Kind: C
Hyps: `hapart`, `hfits`: the context does not lie over the first word of the new stack; `hcopied`,
`hreturn`: what ran in between left the words and the return address alone -/
theorem context_resumed (flags : Instr → Machine → BitVec 64) (next : BitVec 64) (s u : Machine)
    (hapart : 8 ≤ (s.regs .rcx - (s.regs .rsi - 8)).toNat)
    (hfits : (s.regs .rcx - (s.regs .rsi - 8)).toNat + 56 ≤ 2 ^ 64)
    (hcopied : u.mem.loadWords 7 (u.regs .rdi) =
      (saveAndCall flags next s).mem.loadWords 7 (s.regs .rcx))
    (hreturn : u.mem.load s.rsp = s.mem.load s.rsp) :
    Returned flags s (run flags activateContextAndReturn u) ∧
      (run flags activateContextAndReturn u).mem = u.mem := by
  have hwords := (holds_saveAndCall flags next s hapart hfits).loadWords_eq
  rw [show (preserved.map s.regs).length = 7 from rfl, ← hcopied] at hwords
  have hholds := Memory.holds_loadWords u.mem 7 (u.regs .rdi)
  rw [hwords] at hholds
  exact returned_of_holds flags hholds hreturn

/-- A context on its own stack, and the words copied elsewhere.
Source: `sys/stack.S` `activate_context_and_return`
Kind: C -/
theorem context_resumed_copied :
    ∃ s u : Machine, s.mem.load s.rsp = 0x77 ∧ u.regs .rbx = 9 ∧
      (run (fun _ _ => 0) activateContextAndReturn u).rip = 0x77 ∧
      (run (fun _ _ => 0) activateContextAndReturn u).rsp = 0x5008 ∧
      (run (fun _ _ => 0) activateContextAndReturn u).regs .rbx = 3 := by
  let s : Machine := ⟨fun r => match r with
    | .rsp => 0x5000
    | .rcx => 0x5010
    | .rsi => 0x9000
    | _ => 3, 1, 2, 8, 0, Vector.replicate 64 5, Memory.store (fun _ => 0) 0x5000 0x77⟩
  let u : Machine := ⟨fun r => if r = .rdi then 0x7000 else 9, 1, 2, 8, 0, Vector.replicate 64 5,
    Memory.storeWords (preserved.map s.regs) s.mem 0x7000⟩
  obtain ⟨⟨hrip, hrsp, hregs⟩, -⟩ := context_resumed (fun _ _ => 0) 0x99 s u (by decide +kernel)
    (by decide +kernel) (by decide +kernel) (by decide +kernel)
  refine ⟨s, u, by decide +kernel, rfl, hrip.trans ?_, hrsp.trans ?_, hregs .rbx (by decide) (by decide)⟩
  · decide +kernel
  · decide +kernel

/-- On the registers it is what `EventManager` says of saving a context.
Source: `sys/stack.S` `save_context_and_switch`, `sys/event_manager.cpp` `EventManager::SaveContext`
Kind: L -/
theorem registers_saveAndCall {F : Type*} (s : Machine) (m : EventManager.State F) :
    registers (saveAndCall flags next s).regs =
      (EventManager.switchStack (s.regs .rsi).toNat (EventManager.setRegs (registers s.regs) m)).regs := by
  have hkept : ∀ r, r ≠ Reg.rsp → (saveAndCall flags next s).regs r = s.regs r := by
    intro r hr
    rw [saveAndCall, run_saveContextAndSwitch]
    simp [Machine.call, Machine.push, Machine.setReg, hr]
  have hrsp : ((saveAndCall flags next s).regs .rsp).toNat = wsub (s.regs .rsi).toNat 8 := by
    have hsub : (saveAndCall flags next s).regs .rsp = s.regs .rsi - 8 := rsp_saveAndCall s
    have h8 : (8 : BitVec 64).toNat = 8 := rfl
    rw [hsub, wsub, BitVec.toNat_sub, h8, word]
    congr 1
    omega
  unfold registers
  rw [hkept .rbx (by decide), hkept .rbp (by decide), hkept .r12 (by decide), hkept .r13 (by decide),
    hkept .r14 (by decide), hkept .r15 (by decide), hrsp]
  rfl

/-- On the registers it is what `EventManager` says of activating one.
Source: `sys/stack.S` `activate_context_and_return`, `sys/event_manager.cpp` `EventManager::ActivateContext`
Kind: L -/
theorem registers_activateContextAndReturn {F : Type*} (h : u.mem.Holds (u.regs .rdi) (preserved.map f))
    (stack : ℕ) (m : EventManager.State F) :
    registers (run flags activateContextAndReturn u).regs =
      (EventManager.activate ⟨registers f, stack⟩ m).regs := by
  rw [run_activateContextAndReturn h]
  have hrsp : (f .rsp + 8).toNat = ((f .rsp).toNat + 8) % word := BitVec.toNat_add _ _
  unfold registers EventManager.activate EventManager.setRegs
  simp only [preserved]
  rw [← hrsp]
  rfl

end Switch

end EbbRT.Processor
