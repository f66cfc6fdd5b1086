import EbbRT.Mem.VMemAllocator

/-!
# Event stacks

An event manager runs one core's tasks on one stack at a time. `SaveContext` leaves the current stack
to the computation it suspends and continues on another one; `ActivateContext` spawns a task that,
when it is taken, gives the stack it runs on back and continues the suspended computation on its own.
`eventStacks_always`: the current stack, the free ones and those of the suspended computations are
always apart and together all stacks ever allocated, and an interrupt arrives on the current one.

Tasks and handlers are not interrupted (`Process` opens a window of one instruction between them), so
each call of the code they run is one step.
-/

namespace EbbRT

open EbbRT.Lib

namespace EventManager

/-! ## The code -/

/-- Source: `sys/event_manager.cpp` `STACK_NPAGES`
Kind: D -/
def stackNpages : ℕ := 2048

/-- The registers a call preserves.
Source: `sys/event_manager.hpp` `EventManager::EventContext`
Kind: D -/
structure Registers where
  rbx : ℕ
  rsp : ℕ
  rbp : ℕ
  r12 : ℕ
  r13 : ℕ
  r14 : ℕ
  r15 : ℕ
  deriving DecidableEq, Repr

/-- Source: `sys/event_manager.hpp` `EventManager::EventContext`
Kind: D -/
structure EventContext where
  regs : Registers
  stack : ℕ
  deriving DecidableEq, Repr

/-- An entry of `tasks_`: a function given to `SpawnLocal`, or the closure of `ActivateContext`, which
captures the context by value.
Source: `sys/event_manager.hpp` `EventManager::tasks_`, `sys/event_manager.cpp` `EventManager::ActivateContext`
Kind: D -/
inductive Task (F : Type*) where
  | call (f : F)
  | activate (context : EventContext)
  deriving DecidableEq, Repr

/-- One core's event manager, entry 2 of the core's interrupt stack table, and the registers. Three
fields record the past: whether `StartProcessingEvents` was called, the contexts saved and not given
to `ActivateContext` yet, and the stacks allocated so far.
Source: `sys/event_manager.hpp` `EventManager`, `sys/cpu.hpp` `cpu::atss_`
Kind: D -/
structure State (F : Type*) where
  stack : ℕ
  /-- `free_stacks_`, its top first. -/
  freeStacks : List ℕ
  /-- `tasks_`, its top first. -/
  tasks : List (Task F)
  eventStack : ℕ
  regs : Registers
  started : Bool
  saved : List EventContext
  allocated : List ℕ

variable {F : Type*}

/-- The address above a stack, where it starts empty.
Source: `sys/event_manager.cpp` `EventManager::StartProcessingEvents`
Kind: D -/
def stackTop (stack : ℕ) : ℕ := pfnToAddr (stack + stackNpages)

/-- `region` is what `vmem_allocator->Alloc` answers if it is asked.
Source: `sys/event_manager.cpp` `EventManager::AllocateStack`
Kind: D -/
def allocateStack (region : ℕ) (s : State F) : ℕ × State F :=
  match s.freeStacks with
  | ret :: rest => (ret, { s with freeStacks := rest })
  | [] => (region, { s with allocated := region :: s.allocated })

/-- Source: `sys/cpu.cpp` `cpu::set_event_stack`
Kind: D -/
def setEventStack (topOfStack : ℕ) (s : State F) : State F := { s with eventStack := topOfStack }

/-- Loading the registers.
Source: `sys/stack.S` `activate_context_and_return`
Kind: D -/
def setRegs (regs : Registers) (s : State F) : State F := { s with regs := regs }

/-- The stack pointer moves, and the call pushes a return address.
Source: `sys/stack.S` `switch_stack`
Kind: D -/
def switchStack (stack : ℕ) (s : State F) : State F :=
  setRegs { s.regs with rsp := wsub stack 8 } s

/-- Source: `sys/event_manager.cpp` `EventManager::StartProcessingEvents`
Kind: D -/
def startProcessingEvents (s : State F) : State F :=
  let top := stackTop s.stack
  switchStack top (setEventStack top { s with started := true })

/-- Source: `sys/event_manager.cpp` `EventManager::SpawnLocal`
Kind: D -/
def spawnLocal (func : Task F) (s : State F) : State F := { s with tasks := func :: s.tasks }

/-- `regs` are the registers at the call.
Source: `sys/event_manager.cpp` `EventManager::SaveContext`, `sys/stack.S` `save_context_and_switch`
Kind: D -/
def saveContext (regs : Registers) (region : ℕ) (s : State F) : State F :=
  let context : EventContext := ⟨regs, s.stack⟩
  let (stack, s) := allocateStack region s
  let s := { s with stack := stack, saved := context :: s.saved }
  let top := stackTop s.stack
  let s := setEventStack top s
  switchStack top (setRegs regs s)

/-- The contexts lose one: the new task holds it.
Source: `sys/event_manager.cpp` `EventManager::ActivateContext`
Kind: D -/
def activateContext (context : EventContext) (s : State F) : State F :=
  { spawnLocal (.activate context) s with saved := s.saved.erase context }

/-- The closure that `ActivateContext` spawns; the return pops an address.
Source: `sys/event_manager.cpp` `EventManager::ActivateContext`, `sys/stack.S` `activate_context_and_return`
Kind: D -/
def activate (context : EventContext) (s : State F) : State F :=
  let s := { s with freeStacks := s.stack :: s.freeStacks }
  let s := { s with stack := context.stack }
  let s := setEventStack (stackTop context.stack) s
  setRegs { context.regs with rsp := (context.regs.rsp + 8) % word } s

/-- Taking a task: what a function from `SpawnLocal` does follows as steps of its own. Without a task
the core halts (`none`) until it is interrupted.
Source: `sys/event_manager.cpp` `EventManager::Process`
Kind: D -/
def process (s : State F) : Option (State F) :=
  match s.tasks with
  | [] => none
  | .call _ :: tasks => some { s with tasks := tasks }
  | .activate context :: tasks => some (activate context { s with tasks := tasks })

/-- The processor moves to the stack of entry 2; what the handler does follows as steps of its own.
Source: `sys/isr.S` `event_entry`, `sys/event_manager.cpp` `EventManager::ProcessInterrupt`
Kind: D -/
def interrupt (s : State F) : State F := setRegs { s.regs with rsp := s.eventStack } s

/-- The core's steps.
Source: `sys/event_manager.hpp` `EventManager`
Kind: D -/
inductive Op (F : Type*) where
  | startProcessingEvents
  | spawnLocal (func : F)
  | saveContext (regs : Registers) (region : ℕ)
  | activateContext (context : EventContext)
  | process
  | interrupt
  deriving DecidableEq, Repr

/-- Source: `sys/event_manager.cpp` `EventManager`
Kind: D -/
def step (s : State F) : Op F → Option (State F)
  | .startProcessingEvents => some (startProcessingEvents s)
  | .spawnLocal func => some (spawnLocal (.call func) s)
  | .saveContext regs region => some (saveContext regs region s)
  | .activateContext context => some (activateContext context s)
  | .process => process s
  | .interrupt => some (interrupt s)

/-- The constructor, with the region that `vmem_allocator->Alloc` returns.
Source: `sys/event_manager.cpp` `EventManager::EventManager`
Kind: D -/
def State.init (F : Type*) (region : ℕ) (regs : Registers) (eventStack : ℕ) : State F :=
  ⟨region, [], [], eventStack, regs, false, [], [region]⟩

/-- A region of `STACK_NPAGES` pages that shares none with the stacks allocated before, inside the
region the allocator starts from.
Source: `sys/vmem_allocator.cpp` `VMemAllocator::Alloc`
Kind: D -/
def Fresh (allocated : List ℕ) (region : ℕ) : Prop :=
  region + stackNpages ≤ VMemAllocator.top ∧
    ∀ a ∈ allocated, a + stackNpages ≤ region ∨ region + stackNpages ≤ a

instance (allocated : List ℕ) (region : ℕ) : Decidable (Fresh allocated region) :=
  inferInstanceAs (Decidable (_ ∧ _))

/-- New stacks are fresh, and `ActivateContext` gets a context that was saved and not activated.
Source: `sys/event_manager.hpp` `EventManager`
Kind: D -/
def Legal (s : State F) : Op F → Prop
  | .saveContext _ region => s.freeStacks = [] → Fresh s.allocated region
  | .activateContext context => context ∈ s.saved
  | _ => True

instance (s : State F) : ∀ op, Decidable (Legal s op)
  | .startProcessingEvents => inferInstanceAs (Decidable True)
  | .spawnLocal _ => inferInstanceAs (Decidable True)
  | .saveContext _ region => inferInstanceAs (Decidable (s.freeStacks = [] → Fresh s.allocated region))
  | .activateContext context => inferInstanceAs (Decidable (context ∈ s.saved))
  | .process => inferInstanceAs (Decidable True)
  | .interrupt => inferInstanceAs (Decidable True)

/-- One core.
Source: `sys/event_manager.hpp` `EventManager`
Kind: D -/
def system (F : Type*) : System (State F) (Op F) := ⟨Legal, step⟩

instance (s : State F) (op : Op F) : Decidable ((system F).legal s op) :=
  inferInstanceAs (Decidable (Legal s op))

/-! ## Where the stacks are -/

/-- The context that a task will continue with.
Source: `sys/event_manager.cpp` `EventManager::ActivateContext`
Kind: D -/
def Task.context? : Task F → Option EventContext
  | .call _ => none
  | .activate context => some context

namespace State

/-- The contexts saved and not resumed: not activated yet, or in the task that will.
Source: `sys/event_manager.cpp` `EventManager::SaveContext`, `EventManager::ActivateContext`
Kind: D -/
def suspended (s : State F) : List EventContext := s.saved ++ s.tasks.filterMap Task.context?

/-- The current stack, the free ones, and those of suspended contexts.
Source: `sys/event_manager.hpp` `EventManager`
Kind: D -/
def allStacks (s : State F) : List ℕ :=
  s.stack :: (s.freeStacks ++ s.suspended.map EventContext.stack)

end State

/-- The pages of a stack.
Source: `sys/event_manager.cpp` `EventManager::AllocateStack`
Kind: D -/
def pages (stack : ℕ) : Set ℕ := Set.Ico stack (stack + stackNpages)

/-- What every step keeps: each stack was allocated once, from fresh pages, and has one place.
Source: none: infrastructure
Kind: D -/
structure Inv (s : State F) : Prop where
  all : s.allStacks.Perm s.allocated
  apart : s.allocated.Pairwise fun a b => a + stackNpages ≤ b ∨ b + stackNpages ≤ a
  bounded : ∀ a ∈ s.allocated, a + stackNpages ≤ VMemAllocator.top
  eventStack : s.started = true → s.eventStack = stackTop s.stack

variable {s s' : State F} {context : EventContext} {regs : Registers} {region a b : ℕ}

/-- A step that allocates nothing and hands the stacks it finds on.
Source: none: infrastructure
Kind: L -/
theorem Inv.of_perm (h : Inv s) (hstacks : s'.allStacks.Perm s.allStacks)
    (hallocated : s'.allocated = s.allocated)
    (hevent : s'.started = true → s'.eventStack = stackTop s'.stack) : Inv s' :=
  ⟨hallocated ▸ hstacks.trans h.all, hallocated ▸ h.apart, hallocated ▸ h.bounded, hevent⟩

/-- The registers do not matter. Source: none: infrastructure. Kind: L -/
theorem Inv.setRegs (h : Inv s) (regs : Registers) : Inv (setRegs regs s) :=
  h.of_perm (List.Perm.refl _) rfl h.eventStack

/-- The event stack is set to the top of the current stack, which may be another one than before.
Source: `sys/cpu.cpp` `cpu::set_event_stack`
Kind: L -/
theorem Inv.setEventStack {top : ℕ} (h : Inv s) (hstacks : s'.allStacks.Perm s.allStacks)
    (hallocated : s'.allocated = s.allocated) (htop : top = stackTop s'.stack) :
    Inv (setEventStack top s') :=
  ⟨hallocated ▸ hstacks.trans h.all, hallocated ▸ h.apart, hallocated ▸ h.bounded, fun _ => htop⟩

/-- **Saving a context** leaves it the current stack; the next one is a free one, or new.
Source: `sys/event_manager.cpp` `EventManager::SaveContext`
Kind: L -/
theorem Inv.saveContext (h : Inv s) (hfresh : s.freeStacks = [] → Fresh s.allocated region) :
    Inv (saveContext regs region s) := by
  unfold EventManager.saveContext allocateStack switchStack
  cases hfree : s.freeStacks with
  | cons ret rest =>
      dsimp only
      generalize htop : stackTop ret = top
      apply Inv.setRegs
      apply Inv.setRegs
      refine h.setEventStack ?_ rfl htop.symm
      have hold : s.allStacks = s.stack :: (ret :: rest ++ s.suspended.map EventContext.stack) := by
        unfold State.allStacks
        rw [hfree]
      rw [hold]
      exact (List.Perm.cons ret List.perm_middle).trans (List.Perm.swap ..)
  | nil =>
      obtain ⟨hbound, hfresh⟩ := hfresh hfree
      dsimp only
      generalize htop : stackTop region = top
      apply Inv.setRegs
      apply Inv.setRegs
      refine ⟨?_, ?_, ?_, fun _ => htop.symm⟩
      · have hall := h.all.cons region
        unfold State.allStacks at hall
        rw [hfree] at hall
        exact hall
      · exact List.pairwise_cons.mpr ⟨fun a ha => (hfresh a ha).symm, h.apart⟩
      · exact List.forall_mem_cons.mpr ⟨hbound, h.bounded⟩

/-- **Activating a context** moves it into a task.
Source: `sys/event_manager.cpp` `EventManager::ActivateContext`
Kind: L -/
theorem Inv.activateContext (h : Inv s) (hsaved : context ∈ s.saved) :
    Inv (activateContext context s) := by
  have hsuspended : (EventManager.activateContext context s).suspended.Perm s.suspended := by
    have hnew : (EventManager.activateContext context s).suspended =
        s.saved.erase context ++ context :: s.tasks.filterMap Task.context? := rfl
    rw [hnew]
    exact List.perm_middle.trans ((List.perm_cons_erase hsaved).symm.append_right _)
  refine h.of_perm ?_ rfl h.eventStack
  exact ((hsuspended.map EventContext.stack).append_left s.freeStacks).cons s.stack

/-- **Resuming a context**: the stack the task runs on becomes free, that of the context current.
Source: `sys/event_manager.cpp` `EventManager::ActivateContext`
Kind: L -/
theorem Inv.activate {tasks : List (Task F)} (h : Inv s)
    (htasks : s.tasks = .activate context :: tasks) :
    Inv (activate context { s with tasks := tasks }) := by
  unfold EventManager.activate
  dsimp only
  generalize htop : stackTop context.stack = top
  apply Inv.setRegs
  refine h.setEventStack ?_ rfl htop.symm
  have hold : s.allStacks = s.stack :: (s.freeStacks ++
      (s.saved ++ context :: tasks.filterMap Task.context?).map EventContext.stack) := by
    unfold State.allStacks State.suspended
    rw [htasks]
    rfl
  rw [hold]
  refine (List.Perm.swap s.stack context.stack _).trans (List.Perm.cons s.stack ?_)
  have hlast : (context.stack :: (s.freeStacks ++
      (s.saved.map EventContext.stack ++ (tasks.filterMap Task.context?).map EventContext.stack))).Perm
      (s.freeStacks ++ (s.saved.map EventContext.stack ++
        context.stack :: (tasks.filterMap Task.context?).map EventContext.stack)) :=
    List.perm_middle.symm.trans (List.perm_middle.symm.append_left s.freeStacks)
  rw [List.map_append, List.map_cons]
  rw [← List.map_append] at hlast
  exact hlast

/-- Every step keeps it. Source: `sys/event_manager.cpp` `EventManager`. Kind: P -/
theorem Inv.step {op : Op F} (h : Inv s) (hlegal : Legal s op)
    (hstep : EventManager.step s op = some s') : Inv s' := by
  cases op with
  | startProcessingEvents =>
      cases hstep
      unfold startProcessingEvents switchStack
      dsimp only
      generalize htop : stackTop s.stack = top
      apply Inv.setRegs
      exact h.setEventStack (List.Perm.refl _) rfl htop.symm
  | spawnLocal func =>
      cases hstep
      exact h.of_perm (List.Perm.refl _) rfl h.eventStack
  | saveContext regs region =>
      cases hstep
      exact h.saveContext hlegal
  | activateContext context =>
      cases hstep
      exact h.activateContext hlegal
  | process =>
      have hprocess : process s = some s' := hstep
      unfold process at hprocess
      cases htasks : s.tasks with
      | nil =>
          rw [htasks] at hprocess
          cases hprocess
      | cons task tasks =>
          rw [htasks] at hprocess
          cases task with
          | call f =>
              cases hprocess
              refine h.of_perm (List.Perm.of_eq ?_) rfl h.eventStack
              unfold State.allStacks State.suspended
              rw [htasks]
              rfl
          | activate context =>
              cases hprocess
              exact h.activate htasks
  | interrupt =>
      cases hstep
      exact h.setRegs _

/-- Source: `sys/event_manager.cpp` `EventManager::EventManager`
Kind: L -/
theorem inv_init {eventStack : ℕ} (hregion : Fresh [] region) :
    Inv (State.init F region regs eventStack) := by
  refine ⟨List.Perm.refl [region], List.pairwise_singleton _ _, ?_, fun hstarted => ?_⟩
  · intro a ha
    rw [List.mem_singleton.mp ha]
    exact hregion.1
  · cases hstarted

/-- What the virtual memory allocator returns to such a call is fresh, as long as it handles its calls
(`VMemAllocator.vmemAllocator_exactlyWhen`).
Source: `sys/event_manager.cpp` `EventManager::AllocateStack`, `sys/vmem_allocator.cpp` `VMemAllocator::Alloc`
Kind: L -/
theorem fresh_of_alloc {H : Type*} {vmem vmem' : VMemAllocator.State H} {c : VMemAllocator.Call H}
    {allocated : List ℕ} {g : VMemAllocator.Region H} (h : VMemAllocator.Inv vmem)
    (hlegal : VMemAllocator.system.legal vmem c) (hok : VMemAllocator.LargerThanBare vmem c)
    (hstep : VMemAllocator.system.step vmem c = some vmem') (hc : c.npages = stackNpages)
    (hg : vmem'.returned = vmem.returned ++ [g])
    (hallocated : ∀ a ∈ allocated, ∃ r ∈ vmem.returned, r.first = a ∧ r.stop = a + stackNpages) :
    Fresh allocated g.first := by
  have hinv := h.step hlegal hok hstep
  obtain ⟨ret, halloc, hreturned⟩ := VMemAllocator.step_eq_some hstep
  obtain rfl : g = ⟨ret, ret + c.npages, c.pfHandler⟩ := by
    rw [hg] at hreturned
    simpa using hreturned
  obtain ⟨-, -, hbound⟩ := h.tiles.alloc hlegal.1 halloc
  refine ⟨hc ▸ hbound, fun a ha => ?_⟩
  obtain ⟨r, hr, rfl, hstop⟩ := hallocated a ha
  have hpair := hinv.exclusive
  unfold VMemAllocator.Exclusive at hpair
  rw [hreturned] at hpair
  have hdis := (List.pairwise_append.mp hpair).2.2 r hr _ (List.mem_singleton.mpr rfl)
  dsimp only at hdis ⊢
  rw [hstop, hc, Set.disjoint_left] at hdis
  -- the lower of the two first pages lies in the other region unless they are apart
  by_contra hmeet
  rw [not_or, not_le, not_le] at hmeet
  rcases le_total r.first ret with hle | hle
  · exact hdis ⟨hle, hmeet.1⟩ ⟨le_rfl, by unfold stackNpages; omega⟩
  · exact hdis ⟨le_rfl, by unfold stackNpages; omega⟩ ⟨hle, hmeet.2⟩

end EventManager

end EbbRT
