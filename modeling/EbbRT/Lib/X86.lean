import EbbRT.Lib.Memory

/-!
# Straight pieces of 64-bit code

The general registers, the flags, the floating point state as `fxsave` stores it, and memory; the
instructions that entry points and context switches are made of; and what the processor does itself
when an interrupt is delivered and returned from. The instruction pointer is followed where control
leaves a straight piece. What arithmetic does to the flags is a parameter: nothing here depends on it.

`deliver` is what the processor does when an interrupt arrives in the kernel: it takes the stack of the
gate's interrupt stack table entry, or stays on its own, aligns it, and pushes where it was.

`Below s t n`: from `s` to `t` the stack pointer has gone down by `n` words, and nothing but those
words and the flags is new. Pushes compose by it (`Below.trans`), and `run_pops` undoes them.
-/

namespace EbbRT.Lib.X86

/-- The general registers.
Source: none: infrastructure
Kind: D -/
inductive Reg
  | rax | rbx | rcx | rdx | rsi | rdi | rbp | rsp
  | r8 | r9 | r10 | r11 | r12 | r13 | r14 | r15
  deriving DecidableEq, Repr

/-- A core, with the memory that it sees.
Source: none: infrastructure
Kind: D
Fidelity: no paging, no privilege levels and no faults; of the floating point unit there is what `fxsave`
stores, as 64 words -/
structure Machine where
  regs : Reg → BitVec 64
  rip : BitVec 64
  rflags : BitVec 64
  cs : BitVec 64
  ss : BitVec 64
  /-- The 512 bytes that `fxsave` stores. -/
  fpu : Vector (BitVec 64) 64
  mem : Memory

/-- Instructions; memory operands are a base register and a displacement.
Source: none: infrastructure
Kind: D -/
inductive Instr
  | push (r : Reg)
  | pushImm (v : BitVec 64)
  | pushMem (base : Reg) (disp : BitVec 64)
  | pop (r : Reg)
  | mov (dst src : Reg)
  | movImm (dst : Reg) (v : BitVec 64)
  | load (dst base : Reg) (disp : BitVec 64)
  | store (base : Reg) (disp : BitVec 64) (src : Reg)
  | add (r : Reg) (v : BitVec 64)
  | sub (r : Reg) (v : BitVec 64)
  | and (r : Reg) (v : BitVec 64)
  | fwait
  | fxsave (base : Reg)
  | fxrstor (base : Reg)
  | ret
  | iretq

namespace Machine

/-- The stack pointer.
Source: none: infrastructure
Kind: D -/
def rsp (s : Machine) : BitVec 64 := s.regs .rsp

/-- Source: none: infrastructure
Kind: D -/
def setReg (s : Machine) (r : Reg) (v : BitVec 64) : Machine :=
  { s with regs := Function.update s.regs r v }

/-- Source: none: infrastructure. Kind: L -/
@[simp]
theorem setReg_self (s : Machine) (r : Reg) (v : BitVec 64) : (s.setReg r v).regs r = v := by
  simp [setReg]

/-- Source: none: infrastructure. Kind: L -/
theorem setReg_of_ne (s : Machine) {r r' : Reg} (h : r' ≠ r) (v : BitVec 64) :
    (s.setReg r v).regs r' = s.regs r' := by
  simp [setReg, h]

/-- Source: none: infrastructure
Kind: D -/
def push (s : Machine) (v : BitVec 64) : Machine :=
  { s.setReg .rsp (s.rsp - 8) with mem := s.mem.store (s.rsp - 8) v }

end Machine

namespace Machine

/-- A call: the address behind it is pushed.
Source: none: infrastructure
Kind: D -/
def call (s : Machine) (target next : BitVec 64) : Machine := { s.push next with rip := target }

end Machine

variable (flags : Instr → Machine → BitVec 64)

/-- One instruction.
Source: none: infrastructure
Kind: D -/
def exec (s : Machine) : Instr → Machine
  | .push r => s.push (s.regs r)
  | .pushImm v => s.push v
  | .pushMem base disp => s.push (s.mem.load (s.regs base + disp))
  | .pop r => (s.setReg .rsp (s.rsp + 8)).setReg r (s.mem.load s.rsp)
  | .mov dst src => s.setReg dst (s.regs src)
  | .movImm dst v => s.setReg dst v
  | .load dst base disp => s.setReg dst (s.mem.load (s.regs base + disp))
  | .store base disp src => { s with mem := s.mem.store (s.regs base + disp) (s.regs src) }
  | .add r v => { s.setReg r (s.regs r + v) with rflags := flags (.add r v) s }
  | .sub r v => { s.setReg r (s.regs r - v) with rflags := flags (.sub r v) s }
  | .and r v => { s.setReg r (s.regs r &&& v) with rflags := flags (.and r v) s }
  | .fwait => s
  | .fxsave base => { s with mem := Memory.storeWords s.fpu.toList s.mem (s.regs base) }
  | .fxrstor base =>
      { s with fpu := Vector.ofFn fun i : Fin 64 => s.mem.load (s.regs base + BitVec.ofNat 64 (8 * i)) }
  | .ret => { s.setReg .rsp (s.rsp + 8) with rip := s.mem.load s.rsp }
  | .iretq =>
      { s.setReg .rsp (s.mem.load (s.rsp + 24)) with
        rip := s.mem.load s.rsp
        cs := s.mem.load (s.rsp + 8)
        rflags := s.mem.load (s.rsp + 16)
        ss := s.mem.load (s.rsp + 32) }

/-- A straight piece of code.
Source: none: infrastructure
Kind: D -/
def run : List Instr → Machine → Machine
  | [], s => s
  | i :: code, s => run code (exec flags s i)

/-! ## Interrupts -/

/-- What the processor finds in the 16 bytes of a gate.
Source: none: infrastructure
Kind: D -/
structure Gate where
  offset : BitVec 64
  selector : BitVec 16
  ist : BitVec 3
  type : BitVec 4
  dpl : BitVec 2
  present : Bool
  deriving DecidableEq

/-- The processor's reading of a gate of the interrupt descriptor table.
Source: none: infrastructure
Kind: D -/
def Gate.decode (raw : BitVec 128) : Gate where
  offset := raw.extractLsb' 64 32 ++ raw.extractLsb' 48 16 ++ raw.extractLsb' 0 16
  selector := raw.extractLsb' 16 16
  ist := raw.extractLsb' 32 3
  type := raw.extractLsb' 40 4
  dpl := raw.extractLsb' 45 2
  present := raw.getLsbD 47

/-- What the processor finds in the 16 bytes of a system segment's descriptor.
Source: none: infrastructure
Kind: D -/
structure SystemSegment where
  base : BitVec 64
  limit : BitVec 20
  type : BitVec 4
  present : Bool
  deriving DecidableEq

/-- Source: none: infrastructure
Kind: D -/
def SystemSegment.decode (raw : BitVec 128) : SystemSegment where
  base := raw.extractLsb' 64 32 ++ raw.extractLsb' 56 8 ++ raw.extractLsb' 16 24
  limit := raw.extractLsb' 48 4 ++ raw.extractLsb' 0 16
  type := raw.extractLsb' 40 4
  present := raw.getLsbD 47

/-- Where an interrupt stack table entry, 1 to 7, is in the task state segment at `tss`.
Source: none: infrastructure
Kind: D -/
def istAddr (tss : BitVec 64) (ist : BitVec 3) : BitVec 64 :=
  tss + 0x24 + BitVec.ofNat 64 (8 * (ist.toNat - 1))

/-- The exceptions that come with an error code, of those before 21.
Source: none: infrastructure
Kind: D -/
def pushesErrorCode (vector : ℕ) : Bool := vector ∈ [8, 10, 11, 12, 13, 14, 17]

namespace Machine

/-- The stack that an interrupt through a gate starts on.
Source: none: infrastructure
Kind: D -/
def interruptStack (s : Machine) (tss : BitVec 64) (ist : BitVec 3) : BitVec 64 :=
  (if ist = 0 then s.rsp else s.mem.load (istAddr tss ist)) &&& ~~~15

/-- Delivery through an interrupt gate: the flags `TF`, `IF`, `NT`, `RF` and `VM` are cleared.
Source: none: infrastructure
Kind: D -/
def deliver (s : Machine) (tss : BitVec 64) (g : Gate) (errorCode : Option (BitVec 64)) : Machine :=
  let t := s.setReg .rsp (s.interruptStack tss g.ist)
  let t := ((((t.push s.ss).push s.rsp).push s.rflags).push s.cs).push s.rip
  let t := match errorCode with
    | none => t
    | some e => t.push e
  { t with
    rip := g.offset
    cs := g.selector.setWidth 64
    rflags := s.rflags &&& ~~~0x34300 }

end Machine

variable {flags} {s t u : Machine} {code code' : List Instr} {rs : List Reg} {n k : ℕ}
  {ws : List (BitVec 64)}

/-- Source: none: infrastructure. Kind: L -/
@[simp]
theorem run_nil : run flags [] s = s := rfl

/-- Source: none: infrastructure. Kind: L -/
@[simp]
theorem run_cons (i : Instr) : run flags (i :: code) s = run flags code (exec flags s i) := rfl

/-- Source: none: infrastructure. Kind: L -/
theorem run_append : run flags (code ++ code') s = run flags code' (run flags code s) := by
  induction code generalizing s with
  | nil => rfl
  | cons i code ih => exact ih

/-- Source: none: infrastructure. Kind: L -/
@[simp]
theorem rsp_add (s : Machine) (v : BitVec 64) : (exec flags s (.add .rsp v)).rsp = s.rsp + v := by
  simp [exec, Machine.rsp]

/-- Source: none: infrastructure. Kind: L -/
@[simp]
theorem mem_add (s : Machine) (r : Reg) (v : BitVec 64) : (exec flags s (.add r v)).mem = s.mem := by
  simp [exec, Machine.setReg]

/-- Source: none: infrastructure. Kind: L -/
@[simp]
theorem rsp_and (s : Machine) (v : BitVec 64) : (exec flags s (.and .rsp v)).rsp = s.rsp &&& v := by
  simp [exec, Machine.rsp]

/-- Source: none: infrastructure. Kind: L -/
@[simp]
theorem mem_and (s : Machine) (r : Reg) (v : BitVec 64) : (exec flags s (.and r v)).mem = s.mem := by
  simp [exec, Machine.setReg]

/-- Source: none: infrastructure. Kind: L -/
theorem regs_and_of_ne (s : Machine) {r r' : Reg} (h : r' ≠ r) (v : BitVec 64) :
    (exec flags s (.and r v)).regs r' = s.regs r' := by
  simp [exec, Machine.setReg, h]

/-- Source: none: infrastructure. Kind: L -/
@[simp]
theorem fpu_add (s : Machine) (r : Reg) (v : BitVec 64) : (exec flags s (.add r v)).fpu = s.fpu := by
  simp [exec, Machine.setReg]

/-- Source: none: infrastructure. Kind: L -/
@[simp]
theorem rsp_fxrstor (s : Machine) (base : Reg) : (exec flags s (.fxrstor base)).rsp = s.rsp := by
  simp [exec, Machine.rsp]

/-- Source: none: infrastructure. Kind: L -/
@[simp]
theorem mem_fxrstor (s : Machine) (base : Reg) : (exec flags s (.fxrstor base)).mem = s.mem := by
  simp [exec]

/-- Restoring the words that lie at the base. Source: none: infrastructure. Kind: L -/
theorem fpu_fxrstor {base : Reg} {fpu : Vector (BitVec 64) 64}
    (h : s.mem.Holds (s.regs base) fpu.toList) : (exec flags s (.fxrstor base)).fpu = fpu := by
  apply Vector.ext
  intro i hi
  have hload := h.load_eq (i := i) (by rw [Vector.length_toList]; exact hi)
  rw [Vector.getElem_toList] at hload
  simp [exec, ← hload]

/-- **Returning from an interrupt** to what the stack says. Source: none: infrastructure. Kind: L -/
theorem exec_iretq {rip cs rflags rsp ss : BitVec 64}
    (h : s.mem.Holds s.rsp [rip, cs, rflags, rsp, ss]) :
    exec flags s .iretq =
      ⟨Function.update s.regs .rsp rsp, rip, rflags, cs, ss, s.fpu, s.mem⟩ := by
  have h1 := h.load_eq (i := 1) (by simp)
  have h2 := h.load_eq (i := 2) (by simp)
  have h3 := h.load_eq (i := 3) (by simp)
  have h4 := h.load_eq (i := 4) (by simp)
  simp only [Nat.reduceMul, List.getElem_cons_succ, List.getElem_cons_zero] at h1 h2 h3 h4
  rw [exec, h.1, Machine.setReg]
  simp only [← h1, ← h2, ← h3, ← h4]
  rfl

/-- Loading registers from words one after another.
Source: none: infrastructure
Kind: D -/
def loads (base : Reg) : List Reg → BitVec 64 → List Instr
  | [], _ => []
  | r :: rs, disp => .load r base disp :: loads base rs (disp + 8)

/-- **Loading registers** from the words that lie there. Source: none: infrastructure. Kind: P -/
theorem run_loads {base : Reg} {disp : BitVec 64} {f : Reg → BitVec 64}
    (h : s.mem.Holds (s.regs base + disp) (rs.map f)) (hbase : base ∉ rs) :
    run flags (loads base rs disp) s = { s with regs := fun r => if r ∈ rs then f r else s.regs r } := by
  induction rs generalizing s disp with
  | nil => simp [loads]
  | cons r rs ih =>
      obtain ⟨hload, hholds⟩ := Memory.holds_cons.mp h
      have hne : base ≠ r := fun heq => hbase (heq ▸ List.mem_cons_self ..)
      have hexec : exec flags s (.load r base disp) = s.setReg r (f r) := by rw [exec, hload]
      rw [loads, run_cons, hexec, ih (s := s.setReg r (f r))
        (by rwa [Machine.setReg_of_ne _ hne, ← BitVec.add_assoc])
        fun hmem => hbase (List.mem_cons_of_mem _ hmem)]
      unfold Machine.setReg
      congr 1
      funext r'
      dsimp only
      by_cases hmem : r' ∈ rs
      · rw [if_pos hmem, if_pos (List.mem_cons_of_mem _ hmem)]
      · by_cases hr : r' = r
        · rw [if_neg hmem, hr, Function.update_self, if_pos (List.mem_cons_self ..)]
        · rw [if_neg hmem, Function.update_of_ne hr, if_neg (by simp [hr, hmem])]

/-! ## Going down the stack -/

/-- From `s` to `t` the stack pointer has gone down by `n` words, and nothing else is new but the words
below and the flags.
Source: none: infrastructure
Kind: D -/
structure Below (s t : Machine) (n : ℕ) : Prop where
  rsp : t.rsp = s.rsp - BitVec.ofNat 64 (8 * n)
  regs : ∀ r ≠ Reg.rsp, t.regs r = s.regs r
  fpu : t.fpu = s.fpu
  rip : t.rip = s.rip
  cs : t.cs = s.cs
  ss : t.ss = s.ss
  outside : ∀ x, 8 * n ≤ (x - t.rsp).toNat → t.mem x = s.mem x

/-- Source: none: infrastructure. Kind: L -/
theorem Below.refl (s : Machine) : Below s s 0 :=
  ⟨by simp, fun _ _ => rfl, rfl, rfl, rfl, rfl, fun _ _ => rfl⟩

/-- **Going down twice.** Source: none: infrastructure. Kind: L -/
theorem Below.trans (h : Below s t n) (h' : Below t u k) (hfits : 8 * (n + k) ≤ 2 ^ 64) :
    Below s u (n + k) where
  rsp := by
    rw [h'.rsp, h.rsp, BitVec.sub_sub, ← BitVec.ofNat_add, Nat.mul_add]
  regs r hr := by rw [h'.regs r hr, h.regs r hr]
  fpu := by rw [h'.fpu, h.fpu]
  rip := by rw [h'.rip, h.rip]
  cs := by rw [h'.cs, h.cs]
  ss := by rw [h'.ss, h.ss]
  outside x hx := by
    rw [h'.outside x (by omega)]
    apply h.outside
    have hu := h'.rsp
    rw [hu, BitVec.toNat_sub, BitVec.toNat_sub, BitVec.toNat_ofNat] at hx
    rw [BitVec.toNat_sub]
    omega

/-- Source: none: infrastructure. Kind: L -/
theorem below_push (s : Machine) (v : BitVec 64) : Below s (s.push v) 1 where
  rsp := s.setReg_self .rsp (s.rsp - 8)
  regs r hr := s.setReg_of_ne hr _
  fpu := rfl
  rip := rfl
  cs := rfl
  ss := rfl
  outside x hx := by
    have hrsp : (s.push v).rsp = s.rsp - 8 := s.setReg_self .rsp (s.rsp - 8)
    rw [hrsp] at hx
    exact Memory.store_apply_of_le hx

/-- Source: none: infrastructure. Kind: L -/
@[simp]
theorem rsp_push (s : Machine) (v : BitVec 64) : (s.push v).rsp = s.rsp - 8 := s.setReg_self .rsp (s.rsp - 8)

/-- Source: none: infrastructure. Kind: L -/
theorem holds_push (h : s.mem.Holds s.rsp ws) (hfits : 8 * (ws.length + 1) ≤ 2 ^ 64) (v : BitVec 64) :
    (s.push v).mem.Holds (s.push v).rsp (v :: ws) := by
  rw [rsp_push]
  exact h.push hfits v

/-- **Pushing registers** puts them on the stack, the last in front.
Source: none: infrastructure
Kind: P -/
theorem run_pushes (flags : Instr → Machine → BitVec 64) (rs : List Reg)
    (h : s.mem.Holds s.rsp ws) (hrs : Reg.rsp ∉ rs)
    (hfits : 8 * (ws.length + rs.length) ≤ 2 ^ 64) :
    Below s (run flags (rs.map .push) s) rs.length ∧
      (run flags (rs.map .push) s).mem.Holds (run flags (rs.map .push) s).rsp
        (rs.reverse.map s.regs ++ ws) := by
  induction rs generalizing s ws with
  | nil => exact ⟨Below.refl s, h⟩
  | cons r rs ih =>
      rw [List.length_cons] at hfits
      have hne : ∀ r' ∈ rs, r' ≠ Reg.rsp := fun r' hr' heq => hrs (heq ▸ List.mem_cons_of_mem _ hr')
      have hrest : Reg.rsp ∉ rs := fun hmem => hrs (List.mem_cons_of_mem _ hmem)
      obtain ⟨hbelow, hholds⟩ := ih (holds_push h (by omega) (s.regs r)) hrest
        (by rw [List.length_cons]; omega)
      have hregs : rs.reverse.map (s.push (s.regs r)).regs = rs.reverse.map s.regs :=
        List.map_congr_left fun r' hr' => s.setReg_of_ne (hne r' (List.mem_reverse.mp hr')) _
      rw [hregs] at hholds
      refine ⟨?_, ?_⟩
      · rw [List.length_cons, Nat.add_comm]
        exact (below_push s (s.regs r)).trans hbelow (by omega)
      · rw [List.reverse_cons, List.map_append, List.append_assoc]
        exact hholds

/-- **Popping registers** takes their contents off the stack, each register's wherever it comes.
Source: none: infrastructure
Kind: P -/
theorem run_pops (flags : Instr → Machine → BitVec 64) (rs : List Reg)
    {f : Reg → BitVec 64} (h : s.mem.Holds s.rsp (rs.map f ++ ws)) (hrs : Reg.rsp ∉ rs) :
    (run flags (rs.map .pop) s).rsp = s.rsp + BitVec.ofNat 64 (8 * rs.length) ∧
      (∀ r ∈ rs, (run flags (rs.map .pop) s).regs r = f r) ∧
      (∀ r, r ∉ rs → r ≠ Reg.rsp → (run flags (rs.map .pop) s).regs r = s.regs r) ∧
      (run flags (rs.map .pop) s).fpu = s.fpu ∧
      (run flags (rs.map .pop) s).mem = s.mem := by
  induction rs generalizing s with
  | nil => exact ⟨by simp, fun _ h => absurd h List.not_mem_nil, fun _ _ _ => rfl, rfl, rfl⟩
  | cons r rs ih =>
      have hr : Reg.rsp ≠ r := fun heq => hrs (heq ▸ List.mem_cons_self ..)
      have hrest : Reg.rsp ∉ rs := fun hmem => hrs (List.mem_cons_of_mem _ hmem)
      obtain ⟨hload, hholds⟩ := Memory.holds_cons.mp h
      have hrsp : (exec flags s (.pop r)).rsp = s.rsp + 8 := by
        rw [Machine.rsp, exec, Machine.setReg_of_ne _ hr, Machine.setReg_self]
      have hat : (exec flags s (.pop r)).regs r = f r := by
        rw [exec, Machine.setReg_self, hload]
      have hother : ∀ r', r' ≠ r → r' ≠ Reg.rsp → (exec flags s (.pop r)).regs r' = s.regs r' := by
        intro r' hne hne'
        rw [exec, Machine.setReg_of_ne _ hne, Machine.setReg_of_ne _ hne']
      obtain ⟨h1, h2, h3, h4, h5⟩ := ih (s := exec flags s (.pop r)) (by rw [hrsp]; exact hholds) hrest
      rw [List.map_cons, run_cons]
      refine ⟨?_, ?_, ?_, h4, h5⟩
      · rw [h1, hrsp, List.length_cons, Memory.add_words]
      · intro r' hr'
        by_cases hmem : r' ∈ rs
        · exact h2 r' hmem
        · rcases List.mem_cons.mp hr' with rfl | hmem'
          · rw [h3 r' hmem (Ne.symm hr), hat]
          · exact absurd hmem' hmem
      · intro r' hr' hne
        have hne' : r' ≠ r := fun heq => hr' (heq ▸ List.mem_cons_self ..)
        rw [h3 r' (fun hmem => hr' (List.mem_cons_of_mem _ hmem)) hne, hother r' hne' hne]

/-- Coming from `s`, the words `ws` have been put on the stack below `top`, the first of them last, and
the other registers and the memory outside are as they were.
Source: none: infrastructure
Kind: D -/
structure Stacked (s t : Machine) (top : BitVec 64) (ws : List (BitVec 64)) : Prop where
  rsp : t.rsp = top - BitVec.ofNat 64 (8 * ws.length)
  holds : t.mem.Holds t.rsp ws
  regs : ∀ r ≠ Reg.rsp, t.regs r = s.regs r
  fpu : t.fpu = s.fpu
  outside : ∀ x, 8 * ws.length ≤ (x - t.rsp).toNat → t.mem x = s.mem x

/-- **Going further down.** Source: none: infrastructure. Kind: P -/
theorem Stacked.below {top : BitVec 64} {l : List (BitVec 64)} (h : Stacked s t top ws)
    (hbelow : Below t u l.length) (hholds : u.mem.Holds u.rsp (l ++ ws)) : Stacked s u top (l ++ ws) where
  rsp := by
    rw [hbelow.rsp, h.rsp, BitVec.sub_sub, ← BitVec.ofNat_add, ← Nat.mul_add, List.length_append,
      Nat.add_comm]
  holds := hholds
  regs r hr := by rw [hbelow.regs r hr, h.regs r hr]
  fpu := by rw [hbelow.fpu, h.fpu]
  outside x hx := by
    rw [List.length_append] at hx
    rw [hbelow.outside x (by omega)]
    apply h.outside
    rw [hbelow.rsp, BitVec.toNat_sub, BitVec.toNat_sub, BitVec.toNat_ofNat] at hx
    rw [BitVec.toNat_sub]
    omega

/-- Source: none: infrastructure. Kind: L -/
theorem Stacked.push {top : BitVec 64} (h : Stacked s t top ws) (hfits : 8 * (ws.length + 1) ≤ 2 ^ 64)
    (v : BitVec 64) : Stacked s (t.push v) top (v :: ws) :=
  h.below (l := [v]) (below_push t v) (holds_push h.holds hfits v)

/-- Source: none: infrastructure. Kind: L -/
theorem stacked_nil (s : Machine) (top : BitVec 64) : Stacked s (s.setReg .rsp top) top [] where
  rsp := by rw [Machine.rsp, Machine.setReg_self]; simp
  holds := Memory.holds_nil
  regs r hr := s.setReg_of_ne hr top
  fpu := rfl
  outside _ _ := rfl

/-- **What the processor pushes**, on the stack of the gate.
Source: none: infrastructure
Kind: P -/
theorem stacked_deliver (s : Machine) (tss : BitVec 64) (g : Gate) (errorCode : Option (BitVec 64)) :
    Stacked s (s.deliver tss g errorCode) (s.interruptStack tss g.ist)
      (errorCode.toList ++ [s.rip, s.cs, s.rflags, s.rsp, s.ss]) := by
  have h := (((((stacked_nil s (s.interruptStack tss g.ist)).push (by simp) s.ss).push (by simp)
    s.rsp).push (by simp) s.rflags).push (by simp) s.cs).push (by simp) s.rip
  cases errorCode with
  | none => exact ⟨h.rsp, h.holds, h.regs, h.fpu, h.outside⟩
  | some e =>
      have h' := h.push (by simp) e
      exact ⟨h'.rsp, h'.holds, h'.regs, h'.fpu, h'.outside⟩

/-- The stack starts aligned. Source: none: infrastructure. Kind: L -/
theorem interruptStack_aligned (s : Machine) (tss : BitVec 64) (ist : BitVec 3) :
    (s.interruptStack tss ist).toNat % 16 = 0 := by
  unfold Machine.interruptStack
  generalize (if ist = 0 then s.rsp else s.mem.load (istAddr tss ist)) = v
  have hzero : (v &&& ~~~15).extractLsb' 0 4 = 0 := by
    rw [BitVec.extractLsb'_and, show (~~~15 : BitVec 64).extractLsb' 0 4 = 0 from rfl]
    simp
  have hnat := congrArg BitVec.toNat hzero
  rw [BitVec.extractLsb'_toNat] at hnat
  simpa using hnat

end EbbRT.Lib.X86
