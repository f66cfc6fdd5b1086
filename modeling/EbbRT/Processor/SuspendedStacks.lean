import EbbRT.Processor.ContextSwitch
import EbbRT.Processor.InterruptEntry

/-!
# Suspended computations and their stacks

One core with its memory: the event manager's calls of `EventManager`, the code that saves and
activates contexts, and the entry of external interrupts, on one machine. What the computations do
themselves is any change of registers and memory that leaves the other stacks, and the entry of the
interrupt stack table that `set_event_stack` writes, alone. `suspended_resumed`: however calls,
computations and interrupts follow one another, the stack of every suspended computation is as
`save_context_and_switch` left it, and a context that is activated returns to its caller.
-/

namespace EbbRT.Processor

open EbbRT.Lib EbbRT.Lib.X86

open EventManager (EventContext stackTop)

/-! ## The core -/

/-- The words of a context.
Source: `sys/event_manager.hpp` `EventManager::EventContext`
Kind: D -/
def contextWords (regs : EventManager.Registers) : List (BitVec 64) :=
  [BitVec.ofNat 64 regs.rbx, BitVec.ofNat 64 regs.rsp, BitVec.ofNat 64 regs.rbp, BitVec.ofNat 64 regs.r12,
    BitVec.ofNat 64 regs.r13, BitVec.ofNat 64 regs.r14, BitVec.ofNat 64 regs.r15]

/-- The addresses in a stack's pages.
Source: `sys/event_manager.cpp` `EventManager::AllocateStack`
Kind: D -/
def stackBytes (stack : ℕ) : Set (BitVec 64) :=
  {x | stack * pageSize ≤ x.toNat ∧ x.toNat < (stack + EventManager.stackNpages) * pageSize}

instance (x : BitVec 64) (a : ℕ) : Decidable (x ∈ stackBytes a) := inferInstanceAs (Decidable (_ ∧ _))

/-- A core's event manager and machine. One field records the past: for each context saved and not
resumed, the machine at the call of `save_context_and_switch`.
Source: `sys/event_manager.hpp` `EventManager`
Kind: D -/
structure Core (F : Type*) where
  manager : EventManager.State F
  machine : Machine
  calls : List (EventContext × Machine)

/-- The steps. A call has the address behind it in `next`; `context` is where `SaveContext` is to put
the context, and `copy` where the closure of `ActivateContext` has its own.
Source: `sys/event_manager.hpp` `EventManager`
Kind: D -/
inductive Event (F : Type*) where
  | compute (t : Machine)
  | startProcessingEvents (next : BitVec 64)
  | spawnLocal (func : F)
  | saveContext (context : BitVec 64) (region : ℕ) (next : BitVec 64)
  | activateContext (context : EventContext)
  | process (copy : BitVec 64)
  | interrupt (num : ℕ)

/-- What the kernel is loaded with: the flags' behaviour, the arguments of `idt_init` and the table it
starts from, the core's task state segment, and the address of `CallProcess`.
Source: `sys/idt.cpp` `idt_init`, `sys/cpu.cpp` `cpu::init`
Kind: D -/
structure Image where
  flags : Instr → Machine → BitVec 64
  cs : BitVec 16
  int : EntryPoint → BitVec 64
  eventEntry : BitVec 64
  idt : ℕ → Entry
  tss : BitVec 64
  callProcess : BitVec 64

variable {F : Type*}

/-- `my_cpu().set_event_stack(stack_top)`.
Source: `sys/cpu.cpp` `cpu::set_event_stack`
Kind: D -/
def storeEventStack (k : Image) (top : ℕ) (s : Machine) : Machine :=
  { s with mem := s.mem.store (istAddr k.tss 2) (BitVec.ofNat 64 top) }

/-- The arguments of a switch to the stack that ends at `top`, for `CallProcess` to run there.
Source: `sys/event_manager.cpp` `EventManager::SaveContext`, `EventManager::StartProcessingEvents`
Kind: D -/
def switchArguments (k : Image) (top : ℕ) (s : Machine) : Machine :=
  (s.setReg .rsi (BitVec.ofNat 64 top)).setReg .rdx k.callProcess

/-- Source: `sys/stack.S` `switch_stack`
Kind: D -/
def switchAndCall (flags : Instr → Machine → BitVec 64) (next : BitVec 64) (s : Machine) : Machine :=
  (run flags [.mov .rsp .rsi] s).call (s.regs .rdx) next

namespace Core

/-- The machine at the call of `save_context_and_switch`.
Source: `sys/event_manager.cpp` `EventManager::SaveContext`
Kind: D -/
def saving (k : Image) (c : Core F) (context : BitVec 64) (region : ℕ) : Machine :=
  let top := stackTop (EventManager.allocateStack region c.manager).1
  (switchArguments k top (storeEventStack k top c.machine)).setReg .rcx context

/-- The machine at the call of `activate_context_and_return`.
Source: `sys/event_manager.cpp` `EventManager::ActivateContext`
Kind: D -/
def activating (k : Image) (c : Core F) (context : EventContext) (copy : BitVec 64) : Machine :=
  (storeEventStack k (stackTop context.stack) c.machine).setReg .rdi copy

/-- What a step is for the event manager.
Source: `sys/event_manager.cpp` `EventManager`
Kind: D -/
def op (k : Image) (c : Core F) : Event F → Option (EventManager.Op F)
  | .compute _ => none
  | .startProcessingEvents _ => some .startProcessingEvents
  | .spawnLocal func => some (.spawnLocal func)
  | .saveContext context region _ => some (.saveContext (registers (c.saving k context region).regs) region)
  | .activateContext context => some (.activateContext context)
  | .process _ => some .process
  | .interrupt _ => some .interrupt

/-- What it is for the machine.
Source: `sys/event_manager.cpp` `EventManager`, `sys/stack.S`, `sys/isr.S` `event_entry`
Kind: D -/
def machineAfter (k : Image) (c : Core F) : Event F → Machine
  | .compute t => t
  | .startProcessingEvents next =>
      let top := stackTop c.manager.stack
      switchAndCall k.flags next (switchArguments k top (storeEventStack k top c.machine))
  | .spawnLocal _ => c.machine
  | .saveContext context region next => saveAndCall k.flags next (c.saving k context region)
  | .activateContext _ => c.machine
  | .process copy =>
      match c.manager.tasks with
      | .activate context :: _ => run k.flags activateContextAndReturn (c.activating k context copy)
      | _ => c.machine
  | .interrupt num =>
      run k.flags (eventEntryCode num ++ eventEntryCommon)
        (c.machine.deliver k.tss (Gate.decode (idtInit k.cs k.int k.eventEntry k.idt num).raw) none)

/-- What it is for the record.
Source: none: infrastructure
Kind: D -/
def callsAfter (k : Image) (c : Core F) : Event F → List (EventContext × Machine)
  | .saveContext context region _ =>
      let s := c.saving k context region
      (⟨registers s.regs, c.manager.stack⟩, s) :: c.calls
  | .process _ =>
      match c.manager.tasks with
      | .activate context :: _ => c.calls.eraseP fun p => p.1 = context
      | _ => c.calls
  | _ => c.calls

/-- Source: `sys/event_manager.cpp` `EventManager`
Kind: D -/
def step (k : Image) (c : Core F) (e : Event F) : Option (Core F) := do
  let manager ← match c.op k e with
    | none => some c.manager
    | some op => EventManager.step c.manager op
  some ⟨manager, c.machineAfter k e, c.callsAfter k e⟩

/-- The caller of `SaveContext` and the compiler put the context outside other stacks, and outside the
word with the return address, which lies on the current one; a new stack is one that
`vmem_allocator->Alloc` returns.
Source: `sys/event_manager.cpp` `EventManager::SaveContext`
Kind: D -/
structure SaveLegal (k : Image) (c : Core F) (context : BitVec 64) (region : ℕ) : Prop where
  fresh : c.manager.freeStacks = [] → EventManager.Fresh c.manager.allocated region
  bottom : c.manager.freeStacks = [] → VMemAllocator.bottom ≤ region
  elsewhere : ∀ i < 56, ∀ a ∈ (EventManager.allocateStack region c.manager).1 :: c.manager.allocated,
    a ≠ c.manager.stack → context + BitVec.ofNat 64 i ∉ stackBytes a
  eventStack : ∀ i < 56, 8 ≤ (context + BitVec.ofNat 64 i - istAddr k.tss 2).toNat
  returnAddress : ∀ i < 8, c.machine.rsp + BitVec.ofNat 64 i ∈ stackBytes c.manager.stack ∧
    56 ≤ (c.machine.rsp + BitVec.ofNat 64 i - context).toNat

instance (k : Image) (c : Core F) (context : BitVec 64) (region : ℕ) :
    Decidable (c.SaveLegal k context region) :=
  decidable_of_iff (_ ∧ _ ∧ _ ∧ _ ∧ _)
    ⟨fun ⟨h1, h2, h3, h4, h5⟩ => ⟨h1, h2, h3, h4, h5⟩, fun ⟨h1, h2, h3, h4, h5⟩ => ⟨h1, h2, h3, h4, h5⟩⟩

/-- Computations keep to the current stack and to memory that is on none; a closure still has its
context when it runs.
Source: `sys/event_manager.hpp` `EventManager`
Kind: D -/
def Legal (k : Image) (c : Core F) : Event F → Prop
  | .compute t =>
      (∀ a ∈ c.manager.allocated, a ≠ c.manager.stack → ∀ x ∈ stackBytes a, t.mem x = c.machine.mem x) ∧
        t.mem.load (istAddr k.tss 2) = c.machine.mem.load (istAddr k.tss 2)
  | .saveContext context region _ => c.SaveLegal k context region
  | .activateContext context => context ∈ c.manager.saved
  | .process copy => ∀ context tasks, c.manager.tasks = .activate context :: tasks →
      (c.activating k context copy).mem.Holds copy (contextWords context.regs)
  | .interrupt num => c.manager.started = true ∧ 32 ≤ num ∧ num < 256
  | _ => True

/-- One core.
Source: `sys/event_manager.hpp` `EventManager`
Kind: D -/
def system (F : Type*) (k : Image) : System (Core F) (Event F) := ⟨Legal k, step k⟩

/-- Before the first call.
Source: `sys/event_manager.cpp` `EventManager::EventManager`
Kind: D -/
def init (F : Type*) (region eventStack : ℕ) (s : Machine) : Core F :=
  ⟨EventManager.State.init F region (registers s.regs) eventStack, s, []⟩

end Core

/-! ## Where the bytes are -/

section Bytes

variable {a b n : ℕ} {x : BitVec 64}

/-- Source: `sys/event_manager.cpp` `EventManager::StartProcessingEvents`. Kind: L -/
theorem stackTop_eq (ha : a + EventManager.stackNpages ≤ VMemAllocator.top) :
    stackTop a = (a + EventManager.stackNpages) * pageSize ∧ stackTop a < word := by
  have htop : VMemAllocator.top * pageSize < word := by decide
  have hlt : (a + EventManager.stackNpages) * pageSize < word := (Nat.mul_le_mul_right _ ha).trans_lt htop
  have heq : stackTop a = (a + EventManager.stackNpages) * pageSize := by
    unfold stackTop pfnToAddr
    rw [Nat.shiftLeft_eq]
    exact Nat.mod_eq_of_lt hlt
  exact ⟨heq, heq ▸ hlt⟩

/-- Different stacks have no byte in common. Source: `sys/event_manager.cpp` `EventManager::AllocateStack`. Kind: L -/
theorem not_mem_stackBytes
    (hapart : a + EventManager.stackNpages ≤ b ∨ b + EventManager.stackNpages ≤ a) (hx : x ∈ stackBytes a) :
    x ∉ stackBytes b := by
  obtain ⟨hlow, hhigh⟩ := hx
  rintro ⟨hlow', hhigh'⟩
  rcases hapart with h | h
  · exact absurd (hhigh.trans_le (Nat.mul_le_mul_right _ h)) hlow'.not_gt
  · exact absurd (hhigh'.trans_le (Nat.mul_le_mul_right _ h)) hlow.not_gt

/-- The bytes next to the top. Source: `sys/event_manager.cpp` `EventManager::StartProcessingEvents`. Kind: L -/
theorem mem_stackBytes_of_lt (ha : a + EventManager.stackNpages ≤ VMemAllocator.top) (hn : n ≤ 4096)
    (hx : (x - (BitVec.ofNat 64 (stackTop a) - BitVec.ofNat 64 n)).toNat < n) : x ∈ stackBytes a := by
  obtain ⟨heq, hlt⟩ := stackTop_eq ha
  have hpages : pageSize = 4096 := rfl
  have hnpages : EventManager.stackNpages = 2048 := rfl
  rw [word] at hlt
  rw [BitVec.toNat_sub, BitVec.toNat_sub, BitVec.toNat_ofNat, BitVec.toNat_ofNat, Nat.mod_eq_of_lt hlt,
    Nat.mod_eq_of_lt (show n < 2 ^ 64 by omega)] at hx
  generalize stackTop a = top at *
  have hxlt := x.isLt
  rw [hnpages, hpages] at heq
  refine ⟨?_, ?_⟩
  · rw [hpages]
    omega
  · rw [hnpages, hpages, ← heq]
    omega

/-- Elsewhere than next to the top. Source: `sys/event_manager.cpp` `EventManager::StartProcessingEvents`. Kind: L -/
theorem le_of_not_mem_stackBytes (ha : a + EventManager.stackNpages ≤ VMemAllocator.top) (hn : n ≤ 4096)
    (hx : x ∉ stackBytes a) :
    n ≤ (x - (BitVec.ofNat 64 (stackTop a) - BitVec.ofNat 64 n)).toNat :=
  Nat.le_of_not_lt fun hlt => hx (mem_stackBytes_of_lt ha hn hlt)

/-- A stack's top is aligned as the processor aligns it.
Source: `sys/event_manager.cpp` `EventManager::StartProcessingEvents`
Kind: L -/
theorem stackTop_and_align (ha : a + EventManager.stackNpages ≤ VMemAllocator.top) :
    BitVec.ofNat 64 (stackTop a) &&& ~~~15 = BitVec.ofNat 64 (stackTop a) := by
  obtain ⟨heq, hlt⟩ := stackTop_eq ha
  have hpages : pageSize = 4096 := rfl
  apply BitVec.eq_of_toNat_eq
  rw [toNat_and_align, BitVec.toNat_ofNat, Nat.mod_eq_of_lt (show stackTop a < 2 ^ 64 from hlt), heq, hpages]
  omega

end Bytes

/-- Source: `sys/event_manager.hpp` `EventManager::EventContext`. Kind: L -/
theorem contextWords_registers (f : Reg → BitVec 64) : contextWords (registers f) = preserved.map f := by
  unfold contextWords registers
  simp [preserved]

/-- No stack that the virtual memory allocator returns has the word that `set_event_stack` writes: the
task state segment is part of the kernel's data.
Source: `sys/cpu.cpp` `cpus`, `sys/vmem_allocator.cpp` `VMemAllocator::VMemAllocator`
Kind: D -/
def Image.Outside (k : Image) : Prop :=
  ∀ i < 8, (istAddr k.tss 2 + BitVec.ofNat 64 i).toNat < VMemAllocator.bottom * pageSize ∨
    VMemAllocator.top * pageSize ≤ (istAddr k.tss 2 + BitVec.ofNat 64 i).toNat

instance (k : Image) : Decidable k.Outside := inferInstanceAs (Decidable (∀ i < 8, _))

section Writes

variable {k : Image} {c : Core F} {s : Machine} {a n : ℕ} {x next context : BitVec 64} {region num : ℕ}

/-- An address and the distance to it. Source: none: infrastructure. Kind: L -/
theorem add_ofNat_toNat_sub (a x : BitVec 64) : a + BitVec.ofNat 64 (x - a).toNat = x := by
  rw [BitVec.ofNat_toNat, BitVec.setWidth_eq, BitVec.add_comm, BitVec.sub_add_cancel]

/-- Source: `sys/cpu.cpp` `cpu::set_event_stack`. Kind: L -/
theorem Image.Outside.apart (hk : k.Outside) (hbottom : VMemAllocator.bottom ≤ a)
    (htop : a + EventManager.stackNpages ≤ VMemAllocator.top) (hx : x ∈ stackBytes a) :
    8 ≤ (x - istAddr k.tss 2).toNat := by
  by_contra hlt
  have hout := hk (x - istAddr k.tss 2).toNat (by omega)
  rw [add_ofNat_toNat_sub] at hout
  rcases hout with hlow | hhigh
  · exact absurd (hlow.trans_le ((Nat.mul_le_mul_right _ hbottom).trans hx.1)) (lt_irrefl _)
  · exact absurd (hx.2.trans_le ((Nat.mul_le_mul_right _ htop).trans hhigh)) (lt_irrefl _)

/-- The word is read as it was if its bytes are. Source: `sys/cpu.cpp` `cpu::set_event_stack`. Kind: L -/
theorem load_istAddr_congr {m m' : Memory}
    (h : ∀ x, (x - istAddr k.tss 2).toNat < 8 → m' x = m x) :
    m'.load (istAddr k.tss 2) = m.load (istAddr k.tss 2) := by
  apply Memory.load_congr
  intro i hi
  apply h
  rw [BitVec.add_comm, BitVec.add_sub_cancel, BitVec.toNat_ofNat]
  omega

/-- The memory behind a switch of stacks. Source: `sys/stack.S` `switch_stack`. Kind: L -/
theorem mem_switchAndCall (s : Machine) :
    (switchAndCall k.flags next s).mem = s.mem.store (s.regs .rsi - 8) next := by
  simp [switchAndCall, exec, Machine.call, Machine.push, Machine.rsp, Machine.setReg]

/-- The memory behind `StartProcessingEvents`. Source: `sys/event_manager.cpp` `EventManager::StartProcessingEvents`. Kind: L -/
theorem mem_startProcessingEvents : (c.machineAfter k (.startProcessingEvents next)).mem =
    (c.machine.mem.store (istAddr k.tss 2) (BitVec.ofNat 64 (stackTop c.manager.stack))).store
      (BitVec.ofNat 64 (stackTop c.manager.stack) - 8) next := by
  unfold Core.machineAfter
  dsimp only
  rw [mem_switchAndCall]
  generalize stackTop c.manager.stack = top
  simp [switchArguments, storeEventStack, Machine.setReg]

/-- Only the interrupt stack table is written before the call. Source: `sys/event_manager.cpp` `EventManager::SaveContext`. Kind: L -/
theorem mem_saving : (c.saving k context region).mem = c.machine.mem.store (istAddr k.tss 2)
    (BitVec.ofNat 64 (stackTop (EventManager.allocateStack region c.manager).1)) := rfl

/-- The stack pointer is the caller's. Source: `sys/event_manager.cpp` `EventManager::SaveContext`. Kind: L -/
theorem rsp_saving : (c.saving k context region).rsp = c.machine.rsp := by
  unfold Core.saving
  dsimp only
  generalize stackTop (EventManager.allocateStack region c.manager).1 = top
  simp [switchArguments, storeEventStack, Machine.setReg, Machine.rsp]

/-- Source: `sys/event_manager.cpp` `EventManager::SaveContext`. Kind: L -/
theorem rcx_saving : (c.saving k context region).regs .rcx = context := by
  unfold Core.saving
  exact Machine.setReg_self _ _ _

/-- Source: `sys/event_manager.cpp` `EventManager::SaveContext`. Kind: L -/
theorem rsi_saving : (c.saving k context region).regs .rsi =
    BitVec.ofNat 64 (stackTop (EventManager.allocateStack region c.manager).1) := by
  unfold Core.saving
  dsimp only
  generalize stackTop (EventManager.allocateStack region c.manager).1 = top
  simp [switchArguments, Machine.setReg]

/-- The memory behind `SaveContext`. Source: `sys/event_manager.cpp` `EventManager::SaveContext`. Kind: L -/
theorem mem_saveContext : (c.machineAfter k (.saveContext context region next)).mem =
    (Memory.storeWords (preserved.map (c.saving k context region).regs) (c.saving k context region).mem
      context).store
      (BitVec.ofNat 64 (stackTop (EventManager.allocateStack region c.manager).1) - 8) next := by
  have hafter : c.machineAfter k (.saveContext context region next) =
      saveAndCall k.flags next (c.saving k context region) := rfl
  rw [hafter, mem_saveAndCall, rcx_saving, rsi_saving]

end Writes

/-! ## What every step keeps -/

/-- A suspended computation: its context has the registers of the call, and its stack is what the call
left, with the words of the context where they may lie on it and the return address untouched.
Source: `sys/event_manager.cpp` `EventManager::SaveContext`
Kind: D -/
structure Intact (m : Memory) (p : EventContext × Machine) : Prop where
  regs : p.1.regs = registers p.2.regs
  bytes : ∀ x ∈ stackBytes p.1.stack,
    m x = Memory.storeWords (preserved.map p.2.regs) p.2.mem (p.2.regs .rcx) x
  returnAddress : ∀ i < 8, p.2.rsp + BitVec.ofNat 64 i ∈ stackBytes p.1.stack ∧
    56 ≤ (p.2.rsp + BitVec.ofNat 64 i - p.2.regs .rcx).toNat

namespace Core

/-- Source: none: infrastructure
Kind: D -/
structure Inv (k : Image) (c : Core F) : Prop where
  manager : EventManager.Inv c.manager
  bottom : ∀ a ∈ c.manager.allocated, VMemAllocator.bottom ≤ a
  calls : (c.calls.map Prod.fst).Perm c.manager.suspended
  eventStack : c.manager.started = true →
    c.machine.mem.load (istAddr k.tss 2) = BitVec.ofNat 64 c.manager.eventStack
  intact : ∀ p ∈ c.calls, Intact c.machine.mem p

variable {k : Image} {c c' : Core F} {x : BitVec 64}

/-- A suspended stack is not the current one. Source: `sys/event_manager.cpp` `EventManager::SaveContext`. Kind: L -/
theorem suspended_stack {m : EventManager.State F} {context : EventContext} (h : EventManager.Inv m)
    (hcontext : context ∈ m.suspended) : context.stack ∈ m.allocated ∧
      (m.stack + EventManager.stackNpages ≤ context.stack ∨
        context.stack + EventManager.stackNpages ≤ m.stack) := by
  have hmem : context.stack ∈ m.freeStacks ++ m.suspended.map EventContext.stack :=
    List.mem_append_right _ (List.mem_map_of_mem hcontext)
  have hall : m.allStacks.Pairwise fun a b =>
      a + EventManager.stackNpages ≤ b ∨ b + EventManager.stackNpages ≤ a :=
    (h.all.pairwise_iff fun hab => hab.symm).mpr h.apart
  refine ⟨h.all.mem_iff.mp (List.mem_cons_of_mem _ hmem), ?_⟩
  exact (List.pairwise_cons.mp hall).1 _ hmem

/-- Source: `sys/event_manager.cpp` `EventManager::SaveContext`. Kind: L -/
theorem suspended_ne {m : EventManager.State F} {context : EventContext} (h : EventManager.Inv m)
    (hcontext : context ∈ m.suspended) : context.stack ≠ m.stack := by
  obtain ⟨-, hapart⟩ := suspended_stack h hcontext
  have hnpages : EventManager.stackNpages = 2048 := rfl
  omega

/-- No byte of it is on the current one. Source: `sys/event_manager.cpp` `EventManager::SaveContext`. Kind: L -/
theorem not_mem_current {m : EventManager.State F} {context : EventContext} (h : EventManager.Inv m)
    (hcontext : context ∈ m.suspended) (hx : x ∈ stackBytes context.stack) : x ∉ stackBytes m.stack :=
  not_mem_stackBytes (suspended_stack h hcontext).2.symm hx

/-- The current stack lies below the allocator's top. Source: `sys/event_manager.cpp` `EventManager::AllocateStack`. Kind: L -/
theorem current_le {m : EventManager.State F} (h : EventManager.Inv m) :
    m.stack + EventManager.stackNpages ≤ VMemAllocator.top :=
  h.bounded _ (h.all.mem_iff.mp (List.mem_cons_self ..))

/-- The record loses the context that is resumed. Source: none: infrastructure. Kind: L -/
theorem map_fst_eraseP {α β : Type*} [DecidableEq α] (l : List (α × β)) (a : α) :
    (l.eraseP fun p => p.1 = a).map Prod.fst = (l.map Prod.fst).erase a := by
  induction l with
  | nil => rfl
  | cons p l ih =>
      by_cases hp : p.1 = a
      · simp [hp]
      · simp [hp, ih]

/-- Unchanged stacks. Source: none: infrastructure. Kind: L -/
theorem intact_congr {m m' : Memory} {p : EventContext × Machine} (h : Intact m p)
    (hsame : ∀ x ∈ stackBytes p.1.stack, m' x = m x) : Intact m' p :=
  ⟨h.regs, fun x hx => (hsame x hx).trans (h.bytes x hx), h.returnAddress⟩

/-- The interrupt stack table is on no suspended stack. Source: `sys/cpu.cpp` `cpu::set_event_stack`. Kind: L -/
theorem Inv.eventStack_apart (h : Inv k c) (hk : k.Outside) {context : EventContext}
    (hcontext : context ∈ c.manager.suspended) (hx : x ∈ stackBytes context.stack) :
    8 ≤ (x - istAddr k.tss 2).toNat := by
  obtain ⟨hmem, -⟩ := suspended_stack h.manager hcontext
  exact hk.apart (h.bottom _ hmem) (h.manager.bounded _ hmem) hx

/-- Nor on a current one. Source: `sys/cpu.cpp` `cpu::set_event_stack`. Kind: L -/
theorem not_mem_of_eventStack (hk : k.Outside) {m : EventManager.State F} (h : EventManager.Inv m)
    (hbottom : ∀ a ∈ m.allocated, VMemAllocator.bottom ≤ a) (hx : (x - istAddr k.tss 2).toNat < 8) :
    x ∉ stackBytes m.stack := by
  have hcurrent : m.stack ∈ m.allocated := h.all.mem_iff.mp (List.mem_cons_self ..)
  intro hmem
  exact absurd hx (hk.apart (hbottom _ hcurrent) (h.bounded _ hcurrent) hmem).not_gt

/-- A step that suspends and resumes nothing. Source: none: infrastructure. Kind: L -/
theorem Inv.keep (h : Inv k c) {m : EventManager.State F} {s : Machine} (hm : EventManager.Inv m)
    (hallocated : m.allocated = c.manager.allocated) (hsuspended : m.suspended.Perm c.manager.suspended)
    (hevent : m.started = true → s.mem.load (istAddr k.tss 2) = BitVec.ofNat 64 m.eventStack)
    (hmem : ∀ context ∈ c.manager.suspended, ∀ x ∈ stackBytes context.stack, s.mem x = c.machine.mem x) :
    Inv k ⟨m, s, c.calls⟩ where
  manager := hm
  bottom := hallocated ▸ h.bottom
  calls := h.calls.trans hsuspended.symm
  eventStack := hevent
  intact p hp := intact_congr (h.intact p hp)
    (hmem _ (h.calls.mem_iff.mp (List.mem_map_of_mem hp)))

/-- Loading registers does not move stacks. Source: `sys/stack.S` `activate_context_and_return`. Kind: L -/
theorem setRegs_fields (regs : EventManager.Registers) (m : EventManager.State F) :
    (EventManager.setRegs regs m).allocated = m.allocated ∧
      (EventManager.setRegs regs m).suspended = m.suspended ∧
      (EventManager.setRegs regs m).eventStack = m.eventStack ∧
      (EventManager.setRegs regs m).stack = m.stack :=
  ⟨rfl, rfl, rfl, rfl⟩

/-- Nor does switching. Source: `sys/stack.S` `switch_stack`. Kind: L -/
theorem switchStack_fields (top : ℕ) (m : EventManager.State F) :
    (EventManager.switchStack top m).allocated = m.allocated ∧
      (EventManager.switchStack top m).suspended = m.suspended ∧
      (EventManager.switchStack top m).eventStack = m.eventStack ∧
      (EventManager.switchStack top m).stack = m.stack := by
  unfold EventManager.switchStack
  exact setRegs_fields _ m

/-- Source: `sys/cpu.cpp` `cpu::set_event_stack`. Kind: L -/
theorem setEventStack_fields (top : ℕ) (m : EventManager.State F) :
    (EventManager.setEventStack top m).allocated = m.allocated ∧
      (EventManager.setEventStack top m).suspended = m.suspended ∧
      (EventManager.setEventStack top m).eventStack = top ∧
      (EventManager.setEventStack top m).stack = m.stack :=
  ⟨rfl, rfl, rfl, rfl⟩

/-- Source: `sys/event_manager.cpp` `EventManager::StartProcessingEvents`. Kind: L -/
theorem startProcessingEvents_fields (m : EventManager.State F) :
    (EventManager.startProcessingEvents m).allocated = m.allocated ∧
      (EventManager.startProcessingEvents m).suspended = m.suspended ∧
      (EventManager.startProcessingEvents m).eventStack = stackTop m.stack := by
  unfold EventManager.startProcessingEvents
  dsimp only
  generalize stackTop m.stack = top
  obtain ⟨h1, h2, h3, -⟩ := switchStack_fields top (EventManager.setEventStack top { m with started := true })
  obtain ⟨h1', h2', h3', -⟩ := setEventStack_fields top { m with started := true }
  rw [h1, h2, h3, h1', h2', h3']
  exact ⟨rfl, rfl, rfl⟩

/-- Source: `sys/event_manager.cpp` `EventManager::StartProcessingEvents`. Kind: L -/
theorem Inv.startProcessingEvents (h : Inv k c) (hk : k.Outside) (next : BitVec 64) :
    Inv k ⟨EventManager.startProcessingEvents c.manager,
      c.machineAfter k (.startProcessingEvents next), c.calls⟩ := by
  have hstep : EventManager.step c.manager .startProcessingEvents =
      some (EventManager.startProcessingEvents c.manager) := rfl
  have hm := h.manager.step (by trivial) hstep
  have htop := current_le h.manager
  obtain ⟨hallocated, hsuspended, hevent⟩ := startProcessingEvents_fields c.manager
  have hout : ∀ x, x ∉ stackBytes c.manager.stack →
      (c.machineAfter k (.startProcessingEvents next)).mem x =
        (c.machine.mem.store (istAddr k.tss 2) (BitVec.ofNat 64 (stackTop c.manager.stack))) x := by
    intro x hx
    rw [mem_startProcessingEvents]
    exact Memory.store_apply_of_le (le_of_not_mem_stackBytes htop (n := 8) (by decide) hx)
  refine h.keep hm hallocated (List.Perm.of_eq hsuspended) (fun _ => ?_) fun context hcontext x hx => ?_
  · rw [load_istAddr_congr fun x hx => hout x (not_mem_of_eventStack hk h.manager h.bottom hx), hevent]
    exact Memory.load_store_self _ _ _
  · rw [hout x (not_mem_current h.manager hcontext hx)]
    exact Memory.store_apply_of_le (h.eventStack_apart hk hcontext hx)

/-- **An interrupt** is delivered on the current stack.
Source: `sys/isr.S` `event_entry`, `sys/event_manager.cpp` `EventManager::ProcessInterrupt`
Kind: L -/
theorem Inv.interrupt (h : Inv k c) (hk : k.Outside) {num : ℕ} (hstarted : c.manager.started = true)
    (hlow : 32 ≤ num) (hhigh : num < 256) :
    Inv k ⟨EventManager.interrupt c.manager, c.machineAfter k (.interrupt num), c.calls⟩ := by
  have hstep : EventManager.step c.manager .interrupt = some (EventManager.interrupt c.manager) := rfl
  have hm := h.manager.step (by trivial) hstep
  have htop := current_le h.manager
  have hstack : c.machine.interruptStack k.tss 2 = BitVec.ofNat 64 (stackTop c.manager.stack) := by
    rw [Machine.interruptStack, if_neg (by decide), h.eventStack hstarted, h.manager.eventStack hstarted]
    exact stackTop_and_align htop
  have hout : ∀ x, x ∉ stackBytes c.manager.stack →
      (c.machineAfter k (.interrupt num)).mem x = c.machine.mem x := by
    intro x hx
    apply event_outside
    rw [gate_event hlow hhigh, hstack]
    exact le_of_not_mem_stackBytes htop (n := 56) (by decide) hx
  refine h.keep hm rfl (List.Perm.refl _) (fun _ => ?_) fun context hcontext x hx => ?_
  · rw [load_istAddr_congr fun x hx => hout x (not_mem_of_eventStack hk h.manager h.bottom hx)]
    exact h.eventStack hstarted
  · exact hout x (not_mem_current h.manager hcontext hx)

/-- Source: `sys/event_manager.cpp` `EventManager::AllocateStack`. Kind: L -/
theorem allocateStack_fields (region : ℕ) (m : EventManager.State F) :
    (EventManager.allocateStack region m).2.suspended = m.suspended ∧
      (∀ a ∈ (EventManager.allocateStack region m).2.allocated,
        a ∈ m.allocated ∨ m.freeStacks = [] ∧ a = region) := by
  unfold EventManager.allocateStack
  cases m.freeStacks with
  | cons ret rest => exact ⟨rfl, fun a ha => Or.inl ha⟩
  | nil =>
      refine ⟨rfl, fun a ha => ?_⟩
      rcases List.mem_cons.mp ha with rfl | ha
      · exact Or.inr ⟨rfl, rfl⟩
      · exact Or.inl ha

/-- Source: `sys/event_manager.cpp` `EventManager::SaveContext`. Kind: L -/
theorem saveContext_fields (regs : EventManager.Registers) (region : ℕ) (m : EventManager.State F) :
    (EventManager.saveContext regs region m).allocated = (EventManager.allocateStack region m).2.allocated ∧
      (EventManager.saveContext regs region m).suspended =
        ⟨regs, m.stack⟩ :: (EventManager.allocateStack region m).2.suspended ∧
      (EventManager.saveContext regs region m).eventStack =
        stackTop (EventManager.allocateStack region m).1 ∧
      (EventManager.saveContext regs region m).stack = (EventManager.allocateStack region m).1 := by
  unfold EventManager.saveContext
  obtain ⟨stack, m'⟩ := EventManager.allocateStack region m
  dsimp only
  generalize stackTop stack = top
  obtain ⟨h1, h2, h3, h4⟩ := switchStack_fields top (EventManager.setRegs regs (EventManager.setEventStack top
    { m' with stack := stack, saved := ⟨regs, m.stack⟩ :: m'.saved }))
  obtain ⟨h1', h2', h3', h4'⟩ := setRegs_fields regs (EventManager.setEventStack top
    { m' with stack := stack, saved := ⟨regs, m.stack⟩ :: m'.saved })
  obtain ⟨h1'', h2'', h3'', h4''⟩ := setEventStack_fields top
    { m' with stack := stack, saved := ⟨regs, m.stack⟩ :: m'.saved }
  rw [h1, h2, h3, h4, h1', h2', h3', h4', h1'', h2'', h3'', h4'']
  exact ⟨rfl, rfl, rfl, rfl⟩

/-- **Saving a context** writes on the stack that is suspended, and on the new one.
Source: `sys/event_manager.cpp` `EventManager::SaveContext`
Kind: L -/
theorem Inv.saveContext (h : Inv k c) (hk : k.Outside) {context : BitVec 64} {region : ℕ}
    (hlegal : c.SaveLegal k context region) (next : BitVec 64) :
    Inv k ⟨EventManager.saveContext (registers (c.saving k context region).regs) region c.manager,
      c.machineAfter k (.saveContext context region next), c.callsAfter k (.saveContext context region next)⟩ := by
  have hcalls : c.callsAfter k (.saveContext context region next) =
      (⟨registers (c.saving k context region).regs, c.manager.stack⟩, c.saving k context region) ::
        c.calls := rfl
  have hm : EventManager.Inv
      (EventManager.saveContext (registers (c.saving k context region).regs) region c.manager) :=
    h.manager.saveContext hlegal.fresh
  obtain ⟨hallocated, hsuspended, hevent, hstack⟩ :=
    saveContext_fields (registers (c.saving k context region).regs) region c.manager
  obtain ⟨hsame, hnew⟩ := allocateStack_fields region c.manager
  rw [hsame] at hsuspended
  have hbottom : ∀ a ∈ (EventManager.saveContext (registers (c.saving k context region).regs) region
      c.manager).allocated, VMemAllocator.bottom ≤ a := by
    intro a ha
    rcases hnew a (hallocated ▸ ha) with hold | ⟨hfree, rfl⟩
    · exact h.bottom a hold
    · exact hlegal.bottom hfree
  -- the call writes next to the top of the new stack, the words of the context before it elsewhere
  have hout : ∀ x, x ∉ stackBytes (EventManager.allocateStack region c.manager).1 →
      (c.machineAfter k (.saveContext context region next)).mem x =
        Memory.storeWords (preserved.map (c.saving k context region).regs) (c.saving k context region).mem
          context x := by
    intro x hx
    rw [mem_saveContext]
    exact Memory.store_apply_of_le (le_of_not_mem_stackBytes (hstack ▸ current_le hm) (n := 8) (by decide) hx)
  have hfar : ∀ x, x ∉ stackBytes (EventManager.allocateStack region c.manager).1 →
      56 ≤ (x - context).toNat →
      (c.machineAfter k (.saveContext context region next)).mem x = (c.saving k context region).mem x := by
    intro x hx hcontext
    have hafter : c.machineAfter k (.saveContext context region next) =
        saveAndCall k.flags next (c.saving k context region) := rfl
    rw [hafter]
    apply mem_saveAndCall_outside
    · rwa [rcx_saving]
    · rw [rsi_saving]
      exact le_of_not_mem_stackBytes (hstack ▸ current_le hm) (n := 8) (by decide) hx
  have hnot : ∀ context' ∈ (EventManager.saveContext (registers (c.saving k context region).regs) region
      c.manager).suspended, ∀ x ∈ stackBytes context'.stack,
      x ∉ stackBytes (EventManager.allocateStack region c.manager).1 :=
    fun context' hcontext' x hx => hstack ▸ not_mem_current hm hcontext' hx
  refine ⟨hm, hbottom, ?_, fun _ => ?_, ?_⟩
  · rw [hcalls, List.map_cons, hsuspended]
    exact h.calls.cons _
  · rw [hevent, load_istAddr_congr (m := (c.saving k context region).mem), mem_saving]
    · exact Memory.load_store_self _ _ _
    · intro x hx
      apply hfar x (hstack ▸ not_mem_of_eventStack hk hm hbottom hx)
      by_contra hlt
      have hapart := hlegal.eventStack (x - context).toNat (by omega)
      rw [add_ofNat_toNat_sub] at hapart
      omega
  · rw [hcalls]
    intro p hp
    rcases List.mem_cons.mp hp with rfl | hp
    · refine ⟨rfl, fun x hx => ?_, fun i hi => ?_⟩
      · rw [rcx_saving]
        exact hout x (hnot _ (hsuspended ▸ List.mem_cons_self ..) x hx)
      · rw [rcx_saving, rsp_saving]
        exact hlegal.returnAddress i hi
    · have hcontext' : p.1 ∈ c.manager.suspended := h.calls.mem_iff.mp (List.mem_map_of_mem hp)
      apply intact_congr (h.intact p hp)
      intro x hx
      rw [hfar x (hnot _ (hsuspended ▸ List.mem_cons_of_mem _ hcontext') x hx), mem_saving]
      · exact Memory.store_apply_of_le (h.eventStack_apart hk hcontext' hx)
      · by_contra hlt
        have helse := hlegal.elsewhere (x - context).toNat (by omega) p.1.stack
          (List.mem_cons_of_mem _ (suspended_stack h.manager hcontext').1)
          (suspended_ne h.manager hcontext')
        rw [add_ofNat_toNat_sub] at helse
        exact helse hx

/-- Source: `sys/event_manager.cpp` `EventManager::ActivateContext`. Kind: L -/
theorem activate_fields (context : EventContext) (m : EventManager.State F) :
    (EventManager.activate context m).allocated = m.allocated ∧
      (EventManager.activate context m).suspended = m.suspended ∧
      (EventManager.activate context m).eventStack = stackTop context.stack := by
  unfold EventManager.activate
  dsimp only
  generalize stackTop context.stack = top
  obtain ⟨h1, h2, h3, -⟩ := setRegs_fields { context.regs with rsp := (context.regs.rsp + 8) % word }
    (EventManager.setEventStack top
      { m with freeStacks := m.stack :: m.freeStacks, stack := context.stack })
  obtain ⟨h1', h2', h3', -⟩ := setEventStack_fields top
    { m with freeStacks := m.stack :: m.freeStacks, stack := context.stack }
  rw [h1, h2, h3, h1', h2', h3']
  exact ⟨rfl, rfl, rfl⟩

/-- The return address on an intact stack. Source: `sys/stack.S` `activate_context_and_return`. Kind: L -/
theorem load_returnAddress {m : Memory} {context : EventContext} {s : Machine} (h : Intact m (context, s)) :
    m.load s.rsp = s.mem.load s.rsp := by
  apply Memory.load_congr
  intro i hi
  obtain ⟨hmem, hapart⟩ := h.returnAddress i hi
  rw [h.bytes _ hmem]
  exact Memory.storeWords_apply_of_le hapart

/-- **Activating a context** goes on behind the call that saved it.
Source: `sys/event_manager.cpp` `EventManager::ActivateContext`, `sys/stack.S` `activate_context_and_return`
Kind: L -/
theorem Inv.activate (h : Inv k c) (hk : k.Outside) {copy : BitVec 64} {context : EventContext}
    {tasks : List (EventManager.Task F)} (htasks : c.manager.tasks = .activate context :: tasks)
    (hcopy : (c.activating k context copy).mem.Holds copy (contextWords context.regs)) :
    Inv k ⟨EventManager.activate context { c.manager with tasks := tasks },
        c.machineAfter k (.process copy), c.callsAfter k (.process copy)⟩ ∧
      ∃ s, (context, s) ∈ c.calls ∧ Returned k.flags s (c.machineAfter k (.process copy)) ∧
        ∀ x ∈ stackBytes context.stack, (c.machineAfter k (.process copy)).mem x =
          Memory.storeWords (preserved.map s.regs) s.mem (s.regs .rcx) x := by
  have hm : EventManager.Inv (EventManager.activate context { c.manager with tasks := tasks }) :=
    h.manager.activate htasks
  obtain ⟨hallocated, hsuspended, hevent⟩ := activate_fields context { c.manager with tasks := tasks }
  have hsplit : c.manager.suspended =
      c.manager.saved ++ context :: tasks.filterMap EventManager.Task.context? := by
    unfold EventManager.State.suspended
    rw [htasks]
    rfl
  have hcontext : context ∈ c.manager.suspended := by simp [hsplit]
  obtain ⟨⟨context', s⟩, hp, rfl⟩ := List.mem_map.mp (h.calls.mem_iff.mpr hcontext)
  have hintact := h.intact _ hp
  have hregs : (c.activating k context' copy).regs .rdi = copy := Machine.setReg_self _ _ _
  have hmem : (c.activating k context' copy).mem =
      c.machine.mem.store (istAddr k.tss 2) (BitVec.ofNat 64 (stackTop context'.stack)) := rfl
  have hafter : c.machineAfter k (.process copy) =
      run k.flags activateContextAndReturn (c.activating k context' copy) := by
    unfold machineAfter
    rw [htasks]
  have hcalls : c.callsAfter k (.process copy) = c.calls.eraseP fun p => p.1 = context' := by
    unfold callsAfter
    rw [htasks]
  have hwords : contextWords context'.regs = preserved.map s.regs := by
    rw [hintact.regs, contextWords_registers]
  rw [hwords] at hcopy
  have hsame : ∀ context ∈ c.manager.suspended, ∀ x ∈ stackBytes context.stack,
      (c.activating k context' copy).mem x = c.machine.mem x := by
    intro context hcontext x hx
    rw [hmem]
    exact Memory.store_apply_of_le (h.eventStack_apart hk hcontext hx)
  have hload := load_returnAddress (intact_congr hintact (hsame _ hcontext))
  have hholds : (c.activating k context' copy).mem.Holds ((c.activating k context' copy).regs .rdi)
      (preserved.map s.regs) := by
    rw [hregs]
    exact hcopy
  obtain ⟨hreturned, hkept⟩ := returned_of_holds k.flags hholds hload
  rw [hafter, hcalls]
  generalize run k.flags activateContextAndReturn (c.activating k context' copy) = t at *
  rw [← hkept] at hsame hmem
  refine ⟨⟨hm, hallocated ▸ h.bottom, ?_, fun _ => ?_, fun p hp' => ?_⟩, s, hp, ?_, fun x hx => ?_⟩
  · rw [map_fst_eraseP, hsuspended]
    have herase := h.calls.erase context'
    rw [hsplit] at herase
    exact herase.trans ((List.perm_middle.erase context').trans (by rw [List.erase_cons_head]; rfl))
  · rw [hevent, hmem]
    exact Memory.load_store_self _ _ _
  · have hold := List.mem_of_mem_eraseP hp'
    exact intact_congr (h.intact p hold) (hsame _ (h.calls.mem_iff.mp (List.mem_map_of_mem hold)))
  · exact hreturned
  · exact (hsame _ hcontext x hx).trans (hintact.bytes x hx)

/-- The event manager's part of a step. Source: `sys/event_manager.cpp` `EventManager`. Kind: L -/
theorem step_eq_some {e : Event F} (h : c.step k e = some c') :
    c'.machine = c.machineAfter k e ∧ c'.calls = c.callsAfter k e ∧
      match c.op k e with
      | none => c'.manager = c.manager
      | some op => EventManager.step c.manager op = some c'.manager := by
  unfold step at h
  cases hop : c.op k e with
  | none =>
      rw [hop] at h
      cases h
      exact ⟨rfl, rfl, rfl⟩
  | some op =>
      rw [hop] at h
      obtain ⟨manager, hmanager, hc⟩ := Option.bind_eq_some_iff.mp h
      cases hc
      exact ⟨rfl, rfl, hmanager⟩

/-- **Every step keeps the suspended stacks.** Source: `sys/event_manager.cpp` `EventManager`. Kind: P -/
theorem Inv.step {e : Event F} (h : Inv k c) (hk : k.Outside) (hlegal : c.Legal k e)
    (hstep : c.step k e = some c') : Inv k c' := by
  obtain ⟨manager', machine', calls'⟩ := c'
  obtain ⟨hmachine, hcalls, hmanager⟩ := step_eq_some hstep
  obtain rfl : machine' = c.machineAfter k e := hmachine
  obtain rfl : calls' = c.callsAfter k e := hcalls
  cases e with
  | compute t =>
      obtain rfl : manager' = c.manager := hmanager
      refine h.keep h.manager rfl (List.Perm.refl _) (fun hstarted => ?_) fun context hcontext => ?_
      · exact hlegal.2.trans (h.eventStack hstarted)
      · exact hlegal.1 _ (suspended_stack h.manager hcontext).1 (suspended_ne h.manager hcontext)
  | startProcessingEvents next =>
      obtain rfl := Option.some.inj hmanager
      exact h.startProcessingEvents hk next
  | spawnLocal func =>
      have hm := h.manager.step (by trivial) hmanager
      obtain rfl := Option.some.inj hmanager
      exact h.keep hm rfl (List.Perm.refl _) h.eventStack fun _ _ _ _ => rfl
  | saveContext context region next =>
      obtain rfl := Option.some.inj hmanager
      exact h.saveContext hk hlegal next
  | activateContext context =>
      obtain rfl := Option.some.inj hmanager
      refine h.keep (h.manager.activateContext hlegal) rfl ?_ h.eventStack fun _ _ _ _ => rfl
      exact List.perm_middle.trans ((List.perm_cons_erase hlegal).symm.append_right _)
  | process copy =>
      have hprocess' : EventManager.step c.manager .process = some manager' := hmanager
      have hprocess : EventManager.process c.manager = some manager' := hmanager
      unfold EventManager.process at hprocess
      cases htasks : c.manager.tasks with
      | nil =>
          rw [htasks] at hprocess
          cases hprocess
      | cons task tasks =>
          rw [htasks] at hprocess
          cases task with
          | call f =>
              obtain rfl := Option.some.inj hprocess
              have hm := h.manager.step (by trivial) hprocess'
              have hmachine : c.machineAfter k (.process copy) = c.machine := by
                unfold machineAfter
                rw [htasks]
              have hcalls : c.callsAfter k (.process copy) = c.calls := by
                unfold callsAfter
                rw [htasks]
              rw [hmachine, hcalls]
              refine h.keep hm rfl (List.Perm.of_eq ?_) h.eventStack fun _ _ _ _ => rfl
              unfold EventManager.State.suspended
              rw [htasks]
              rfl
          | activate context =>
              obtain rfl := Option.some.inj hprocess
              exact (h.activate hk htasks (hlegal _ _ htasks)).1
  | interrupt num =>
      obtain rfl := Option.some.inj hmanager
      obtain ⟨hstarted, hlow, hhigh⟩ := hlegal
      exact h.interrupt hk hstarted hlow hhigh

/-- Source: `sys/event_manager.cpp` `EventManager::EventManager`. Kind: L -/
theorem inv_init {region eventStack : ℕ} {s : Machine} (hregion : EventManager.Fresh [] region)
    (hbottom : VMemAllocator.bottom ≤ region) : Inv k (init F region eventStack s) where
  manager := EventManager.inv_init hregion
  bottom a ha := by
    rw [List.mem_singleton.mp ha]
    exact hbottom
  calls := List.Perm.refl _
  eventStack hstarted := by cases hstarted
  intact p hp := absurd hp List.not_mem_nil

/-- Source: none: infrastructure. Kind: L -/
theorem inv_run {region eventStack : ℕ} {s : Machine} (hk : k.Outside)
    (hregion : EventManager.Fresh [] region) (hbottom : VMemAllocator.bottom ≤ region)
    {es : List (Event F)} (hrun : (system F k).Run (init F region eventStack s) es c) : Inv k c :=
  hrun.invariant (inv_init hregion hbottom) fun _ _ _ h hlegal hstep => h.step hk hlegal hstep

/-- **Suspended computations go on where they were.** However a core's event manager calls, its
computations and external interrupts follow one another: there is one record for each suspended context;
the stack of each is as `save_context_and_switch` left it; and when a context is resumed, the machine is
where the recorded call returns, with that stack.
Source: `sys/event_manager.cpp` `EventManager::SaveContext`, `EventManager::ActivateContext`, `sys/stack.S`
Kind: C
Fidelity: what a computation does is any change of the machine that leaves the other stacks and the word
that `set_event_stack` writes alone
Hyps: `hk`: that word lies outside the region for stacks; `hregion`, `hbottom`: what `VMemAllocator::Alloc`
returns -/
theorem suspended_resumed (F : Type*) (k : Image) (hk : k.Outside) (region eventStack : ℕ)
    (hregion : EventManager.Fresh [] region) (hbottom : VMemAllocator.bottom ≤ region) (s₀ : Machine)
    (es : List (Event F)) (c : Core F)
    (hrun : (system F k).Run (init F region eventStack s₀) es c) :
    (c.calls.map Prod.fst).Perm c.manager.suspended ∧ (∀ p ∈ c.calls, Intact c.machine.mem p) ∧
      ∀ copy context tasks c', c.manager.tasks = .activate context :: tasks →
        (system F k).legal c (.process copy) → (system F k).step c (.process copy) = some c' →
        ∃ s, (context, s) ∈ c.calls ∧ Returned k.flags s c'.machine ∧
          ∀ x ∈ stackBytes context.stack,
            c'.machine.mem x = Memory.storeWords (preserved.map s.regs) s.mem (s.regs .rcx) x := by
  have hinv := inv_run hk hregion hbottom hrun
  refine ⟨hinv.calls, hinv.intact, fun copy context tasks c' htasks hlegal hstep => ?_⟩
  have hstep' : c.step k (.process copy) = some c' := hstep
  obtain ⟨hmachine, -⟩ := step_eq_some hstep'
  rw [hmachine]
  exact (hinv.activate hk htasks (hlegal _ _ htasks)).2

/-- Source: none: infrastructure. Kind: L -/
theorem step_of_op {e : Event F} {op : EventManager.Op F} {m : EventManager.State F} (hop : c.op k e = some op)
    (hm : EventManager.step c.manager op = some m) :
    c.step k e = some ⟨m, c.machineAfter k e, c.callsAfter k e⟩ := by
  unfold step
  rw [hop]
  dsimp only
  rw [hm]
  rfl

/-- One computation saves its context and is resumed: it returns to the address on its stack.
Source: `sys/event_manager.cpp` `EventManager::SaveContext`, `EventManager::ActivateContext`
Kind: C -/
theorem suspended_resumed_once :
    ∃ (k : Image) (s₀ : Machine) (es : List (Event ℕ)) (c c' : Core ℕ), s₀.mem.load s₀.rsp = 0x77 ∧
      (system ℕ k).Run (init ℕ (VMemAllocator.top - 2048) 0 s₀) es c ∧
      c.step k (.process 0x400000) = some c' ∧ c'.machine.rip = 0x77 := by
  let k : Image := ⟨fun _ _ => 0, 8, fun _ => 0x100000, 0x180000, fun _ => {}, 0x200000, 0x190000⟩
  let rsp : BitVec 64 := BitVec.ofNat 64 ((VMemAllocator.top - 2048) * pageSize + 4096)
  let s₀ : Machine := ⟨fun r => if r = .rsp then rsp else 3, 1, 2, 8, 0, Vector.replicate 64 5,
    Memory.store (fun _ => 0) rsp 0x77⟩
  let c₀ : Core ℕ := init ℕ (VMemAllocator.top - 2048) 0 s₀
  let save : Event ℕ := .saveContext 0x400000 (VMemAllocator.top - 4096) 0x99
  let s : Machine := c₀.saving k 0x400000 (VMemAllocator.top - 4096)
  let context : EventContext := ⟨registers s.regs, VMemAllocator.top - 2048⟩
  let c₁ : Core ℕ := ⟨EventManager.saveContext (registers s.regs) (VMemAllocator.top - 4096) c₀.manager,
    c₀.machineAfter k save, c₀.callsAfter k save⟩
  let c₂ : Core ℕ := ⟨EventManager.activateContext context c₁.manager, c₁.machine, c₁.calls⟩
  let c₃ : Core ℕ := ⟨EventManager.activate context { c₂.manager with tasks := [] },
    c₂.machineAfter k (.process 0x400000), c₂.callsAfter k (.process 0x400000)⟩
  have h₁ : c₀.step k save = some c₁ := step_of_op rfl rfl
  have h₂ : c₁.step k (.activateContext context) = some c₂ := step_of_op rfl rfl
  have h₃ : c₂.step k (.process 0x400000) = some c₃ := step_of_op rfl rfl
  have hsave : c₀.SaveLegal k 0x400000 (VMemAllocator.top - 4096) := by decide +kernel
  have hsaved : context ∈ c₁.manager.saved := by decide +kernel
  have hcopy : (c₂.activating k context 0x400000).mem.loadWords 7 0x400000 = contextWords context.regs := by
    decide +kernel
  have htasks : c₂.manager.tasks = [.activate context] := rfl
  have hrun : (system ℕ k).Run c₀ [save, .activateContext context] c₂ :=
    (System.Run.single hsave h₁).append (System.Run.single hsaved h₂)
  have hlegal : (system ℕ k).legal c₂ (.process 0x400000) := by
    intro context' tasks htasks'
    rw [htasks] at htasks'
    obtain rfl := EventManager.Task.activate.inj (List.cons.inj htasks').1
    rw [← hcopy]
    exact Memory.holds_loadWords _ _ _
  obtain ⟨-, -, hresumed⟩ := suspended_resumed ℕ k (by decide +kernel) (VMemAllocator.top - 2048) 0
    (by decide) (by decide) s₀ _ c₂ hrun
  obtain ⟨s', hs', hreturned, -⟩ := hresumed _ _ _ c₃ htasks hlegal h₃
  rw [show c₂.calls = [(context, s)] from rfl, List.mem_singleton] at hs'
  obtain ⟨-, rfl⟩ := Prod.mk.inj hs'
  refine ⟨k, s₀, _, c₂, c₃, by decide +kernel, hrun, h₃, hreturned.rip.trans ?_⟩
  decide +kernel

end Core

end EbbRT.Processor
