import EbbRT.Lib.System
import EbbRT.Mem.Pfn

/-!
# Heap ownership through `mutable_buffer`

A `mutable_buffer` is a raw pointer, a size and an offset; its destructor gives the block back to
the heap unless the pointer is null. The move operations are defaulted, so they copy the three
fields and leave the source as it is. A program over buffers is a sequence of the operations below
on named variables, with the heap's choices (`malloc` may return any address that is not in use,
also one that was freed before) in the labels.

What a buffer *owns* is what its destructor would free. `mutableBuffer_exactlyWhen`: the heap is
handled as it should be as long as nothing is moved out of a buffer that owns a block or into one,
and `operator+=` does not change what a buffer owns.
-/

namespace EbbRT

open EbbRT.Lib

/-! ## The code -/

/-- Source: `sys/buffer.hpp` `mutable_buffer`
Kind: D -/
structure MutableBuffer where
  /-- `ptr_`; 0 is the null pointer. -/
  ptr : ℕ
  /-- `size_`. -/
  size : ℕ
  /-- `offset_`. -/
  offset : ℕ
  deriving DecidableEq, Repr

namespace MutableBuffer

/-- `ptr_ - offset_`: what the destructor frees and `release` returns.
Source: `sys/buffer.hpp` `mutable_buffer::~mutable_buffer`, `mutable_buffer::release`
Kind: D -/
def base (b : MutableBuffer) : ℕ := wsub b.ptr b.offset

/-- Source: `sys/buffer.hpp` `mutable_buffer::operator+=`
Kind: D -/
def advance (b : MutableBuffer) (sz : ℕ) : MutableBuffer :=
  ⟨(b.ptr + sz) % word, wsub b.size sz, (b.offset + sz) % word⟩

/-- The buffer afterwards, with the pointer and the size returned; the `kassert` fails on a null
pointer.
Source: `sys/buffer.hpp` `mutable_buffer::release`
Kind: D -/
def release (b : MutableBuffer) : Option (MutableBuffer × ℕ × ℕ) :=
  if b.ptr = 0 then none else some ({ b with ptr := 0 }, b.base, (b.size + b.offset) % word)

/-- The address that the destructor passes to `free`, if it calls it and not with a null pointer,
which `free` ignores.
Source: `sys/buffer.hpp` `mutable_buffer::~mutable_buffer`
Kind: D -/
def owns (b : MutableBuffer) : Option ℕ :=
  if b.ptr = 0 then none else if b.base = 0 then none else some b.base

end MutableBuffer

/-- Who answers for the block at an address.
Source: none: infrastructure
Kind: D -/
inductive BlockState where
  /-- No block: never allocated, or freed. -/
  | unallocated
  /-- A raw pointer outside any buffer: not adopted yet, or released. -/
  | client
  /-- Constructed or adopted by a buffer, and neither released nor freed. -/
  | buffer
  deriving DecidableEq, Repr

namespace BufferProgram

/-- The variables that are alive, their values, and the heap.
Source: none: infrastructure
Kind: D -/
structure State where
  live : List ℕ
  buf : ℕ → MutableBuffer
  heap : ℕ → BlockState

/-- Before the program. Source: none: infrastructure. Kind: D -/
def State.init : State := ⟨[], fun _ => ⟨0, 0, 0⟩, fun _ => .unallocated⟩

/-- The operations of a program on the variables `x` and `y`.
Source: `sys/buffer.hpp` `mutable_buffer`
Kind: D -/
inductive Op where
  /-- `mutable_buffer x(size)`, where `malloc` returns `mem`. -/
  | construct (x size mem : ℕ)
  /-- The program gets a block from elsewhere (a descriptor, its own `malloc`). -/
  | obtain (mem : ℕ)
  /-- The program frees a block that no buffer holds. -/
  | discard (mem : ℕ)
  /-- `mutable_buffer x(ptr, size)`. -/
  | adopt (x ptr size : ℕ)
  /-- `mutable_buffer x(std::move(y))`. -/
  | moveConstruct (x y : ℕ)
  /-- `x = std::move(y)`. -/
  | moveAssign (x y : ℕ)
  /-- `x += sz`. -/
  | advance (x sz : ℕ)
  /-- `x.release()`. -/
  | release (x : ℕ)
  /-- `x.~mutable_buffer()`. -/
  | destroy (x : ℕ)
  deriving DecidableEq, Repr

/-- A variable is constructed when it is not alive and used when it is; `malloc` returns null or an
address that is not in use; a raw pointer is adopted or freed by who holds it.
Source: `sys/buffer.hpp` `mutable_buffer`
Kind: D -/
def Legal (s : State) : Op → Prop
  | .construct x _ mem => x ∉ s.live ∧ (mem = 0 ∨ mem < word ∧ s.heap mem = .unallocated)
  | .obtain mem => mem ≠ 0 ∧ mem < word ∧ s.heap mem = .unallocated
  | .discard mem => s.heap mem = .client
  | .adopt x ptr _ => x ∉ s.live ∧ ptr ≠ 0 ∧ ptr < word ∧ s.heap ptr = .client
  | .moveConstruct x y => x ∉ s.live ∧ y ∈ s.live
  | .moveAssign x y => x ∈ s.live ∧ y ∈ s.live
  | .advance x _ => x ∈ s.live
  | .release x => x ∈ s.live
  | .destroy x => x ∈ s.live

instance : ∀ (s : State) (op : Op), Decidable (Legal s op)
  | _, .construct _ _ _ => inferInstanceAs (Decidable (_ ∧ (_ ∨ _ ∧ _)))
  | _, .obtain _ => inferInstanceAs (Decidable (_ ∧ _ ∧ _))
  | _, .discard _ => inferInstanceAs (Decidable (_ = _))
  | _, .adopt _ _ _ => inferInstanceAs (Decidable (_ ∧ _ ∧ _ ∧ _))
  | _, .moveConstruct _ _ => inferInstanceAs (Decidable (_ ∧ _))
  | _, .moveAssign _ _ => inferInstanceAs (Decidable (_ ∧ _))
  | _, .advance _ _ => inferInstanceAs (Decidable (_ ∈ _))
  | _, .release _ => inferInstanceAs (Decidable (_ ∈ _))
  | _, .destroy _ => inferInstanceAs (Decidable (_ ∈ _))

/-- A new variable. Source: none: infrastructure. Kind: D -/
def State.declare (s : State) (x : ℕ) (b : MutableBuffer) : State :=
  { s with live := x :: s.live, buf := Function.update s.buf x b }

/-- A new value of a variable. Source: none: infrastructure. Kind: D -/
def State.assign (s : State) (x : ℕ) (b : MutableBuffer) : State :=
  { s with buf := Function.update s.buf x b }

/-- A new state of a block. Source: none: infrastructure. Kind: D -/
def State.mark (s : State) (a : ℕ) (st : BlockState) : State :=
  { s with heap := Function.update s.heap a st }

/-- What a destructor leaves. `free` marks its address free, whatever is there.
Source: `sys/buffer.hpp` `mutable_buffer::~mutable_buffer`
Kind: D -/
def State.drop (s : State) (x : ℕ) : State :=
  match (s.buf x).owns with
  | none => { s with live := s.live.erase x }
  | some p => { s with live := s.live.erase x }.mark p .unallocated

/-- The operations; `none` is the failed `kassert` of `release`. A `malloc` that returns null makes
the constructor throw: no variable comes alive. `release` hands out the block only if there is one
to hand out.
Source: `sys/buffer.hpp` `mutable_buffer`
Kind: D -/
def step (s : State) : Op → Option State
  | .construct x size mem =>
      some (if mem = 0 then s else (s.declare x ⟨mem, size, 0⟩).mark mem .buffer)
  | .obtain mem => some (s.mark mem .client)
  | .discard mem => some (s.mark mem .unallocated)
  | .adopt x ptr size => some ((s.declare x ⟨ptr, size, 0⟩).mark ptr .buffer)
  | .moveConstruct x y => some (s.declare x (s.buf y))
  | .moveAssign x y => some (s.assign x (s.buf y))
  | .advance x sz => some (s.assign x ((s.buf x).advance sz))
  | .release x =>
      (s.buf x).release.map fun r =>
        let s := s.assign x r.1
        if s.heap r.2.1 = .buffer then s.mark r.2.1 .client else s
  | .destroy x => some (s.drop x)

/-- Programs over buffers.
Source: `sys/buffer.hpp` `mutable_buffer`
Kind: D -/
def system : System State Op := ⟨Legal, step⟩

instance (s : State) (op : Op) : Decidable (system.legal s op) :=
  inferInstanceAs (Decidable (Legal s op))

/-! ## What should hold -/

/-- A destructor frees only a block that a buffer answers for: not one that was freed or released.
Source: none: infrastructure
Kind: D -/
def FreesOwn (s : State) : Op → Prop
  | .destroy x => ∀ p, (s.buf x).owns = some p → s.heap p = .buffer
  | _ => True

/-- What every operation should do: free only a block that a buffer answers for, and leave none
behind when no buffer is alive.
Source: none: infrastructure
Kind: D -/
def StepOwned (s : State) (op : Op) (s' : State) : Prop :=
  FreesOwn s op ∧ (s'.live = [] → ∀ a, s'.heap a ≠ .buffer)

/-- The operation is a destructor. Source: none: infrastructure. Kind: D -/
def Destroys (_ : State) : Op → Prop
  | .destroy _ => True
  | _ => False

/-- The operation does as it should, and so does destroying buffers from there on.
Source: none: infrastructure
Kind: D -/
def Sound (s : State) (op : Op) (s' : State) : Prop :=
  StepOwned s op s' ∧ (system.guard Destroys).Always s' StepOwned

/-- The operations that the code handles: nothing is moved out of a buffer that owns a block, or
into one, and advancing does not change what the buffer owns.
Source: `sys/buffer.hpp` `mutable_buffer`
Kind: D -/
def Handled (s : State) : Op → Prop
  | .moveConstruct _ y => (s.buf y).owns = none
  | .moveAssign x y => x = y ∨ (s.buf x).owns = none ∧ (s.buf y).owns = none
  | .advance x sz => ((s.buf x).advance sz).owns = (s.buf x).owns
  | _ => True

instance : ∀ (s : State) (op : Op), Decidable (Handled s op)
  | _, .construct _ _ _ => inferInstanceAs (Decidable True)
  | _, .obtain _ => inferInstanceAs (Decidable True)
  | _, .discard _ => inferInstanceAs (Decidable True)
  | _, .adopt _ _ _ => inferInstanceAs (Decidable True)
  | _, .moveConstruct _ _ => inferInstanceAs (Decidable (_ = _))
  | _, .moveAssign _ _ => inferInstanceAs (Decidable (_ ∨ _ ∧ _))
  | _, .advance _ _ => inferInstanceAs (Decidable (_ = _))
  | _, .release _ => inferInstanceAs (Decidable True)
  | _, .destroy _ => inferInstanceAs (Decidable True)

/-- Every block that buffers answer for is owned by exactly one live buffer.
Source: none: infrastructure
Kind: D -/
structure Inv (s : State) : Prop where
  nodup : s.live.Nodup
  owned : ∀ a, s.heap a = .buffer ↔ ∃ x ∈ s.live, (s.buf x).owns = some a
  unique : ∀ x ∈ s.live, ∀ y ∈ s.live, ∀ a, (s.buf x).owns = some a → (s.buf y).owns = some a → x = y

/-! ## What each operation keeps -/

variable {s s' : State} {op : Op} {x y a p : ℕ} {b : MutableBuffer} {st : BlockState}

/-- A buffer around a block owns it. Source: `sys/buffer.hpp` `mutable_buffer`. Kind: L -/
theorem owns_fresh {mem size : ℕ} (h0 : mem ≠ 0) (hw : mem < word) :
    (⟨mem, size, 0⟩ : MutableBuffer).owns = some mem := by
  have hbase : (⟨mem, size, 0⟩ : MutableBuffer).base = mem := wsub_eq (Nat.zero_le _) hw
  simp [MutableBuffer.owns, hbase, h0]

/-- A variable comes alive with a block of its own.
Source: `sys/buffer.hpp` `mutable_buffer::mutable_buffer`
Kind: L -/
theorem Inv.declare_mark (h : Inv s) (hx : x ∉ s.live) (hp : s.heap p ≠ .buffer)
    (hb : b.owns = some p) : Inv ((s.declare x b).mark p .buffer) := by
  have hne : ∀ y ∈ s.live, y ≠ x := fun y hy he => hx (he ▸ hy)
  have hold : ∀ y ∈ s.live, Function.update s.buf x b y = s.buf y := fun y hy =>
    Function.update_of_ne (hne y hy) ..
  have hnot : ∀ y ∈ s.live, (s.buf y).owns ≠ some p := fun y hy he =>
    hp ((h.owned p).mpr ⟨y, hy, he⟩)
  refine ⟨List.nodup_cons.mpr ⟨hx, h.nodup⟩, fun a => ?_, fun y hy z hz a hya hza => ?_⟩
  · simp only [State.mark, State.declare, List.mem_cons, exists_eq_or_imp, Function.update_self, hb,
      Option.some.injEq]
    by_cases ha : a = p
    · simp [ha]
    · rw [Function.update_of_ne ha, h.owned a]
      constructor
      · rintro ⟨y, hy, hya⟩
        exact Or.inr ⟨y, hy, by rwa [hold y hy]⟩
      · rintro (he | ⟨y, hy, hya⟩)
        · exact absurd he.symm ha
        · exact ⟨y, hy, by rwa [hold y hy] at hya⟩
  · simp only [State.mark, State.declare] at hy hz hya hza
    rcases List.mem_cons.mp hy with rfl | hy' <;> rcases List.mem_cons.mp hz with rfl | hz'
    · rfl
    · rw [Function.update_self, hb] at hya
      rw [hold z hz', ← hya] at hza
      exact absurd hza (hnot z hz')
    · rw [Function.update_self, hb] at hza
      rw [hold y hy', ← hza] at hya
      exact absurd hya (hnot y hy')
    · rw [hold y hy'] at hya
      rw [hold z hz'] at hza
      exact h.unique y hy' z hz' a hya hza

/-- A variable comes alive that owns nothing.
Source: `sys/buffer.hpp` `mutable_buffer::mutable_buffer`
Kind: L -/
theorem Inv.declare (h : Inv s) (hx : x ∉ s.live) (hb : b.owns = none) : Inv (s.declare x b) := by
  have hold : ∀ y ∈ s.live, Function.update s.buf x b y = s.buf y := fun y hy =>
    Function.update_of_ne (fun he : y = x => hx (he ▸ hy)) ..
  refine ⟨List.nodup_cons.mpr ⟨hx, h.nodup⟩, fun a => ?_, fun y hy z hz a hya hza => ?_⟩
  · simp only [State.declare, List.mem_cons, exists_eq_or_imp, Function.update_self, hb]
    rw [h.owned a]
    constructor
    · rintro ⟨y, hy, hya⟩
      exact Or.inr ⟨y, hy, by rwa [hold y hy]⟩
    · rintro (he | ⟨y, hy, hya⟩)
      · cases he
      · exact ⟨y, hy, by rwa [hold y hy] at hya⟩
  · simp only [State.declare] at hy hz hya hza
    rcases List.mem_cons.mp hy with rfl | hy
    · rw [Function.update_self, hb] at hya
      cases hya
    rcases List.mem_cons.mp hz with rfl | hz
    · rw [Function.update_self, hb] at hza
      cases hza
    rw [hold y hy] at hya
    rw [hold z hz] at hza
    exact h.unique y hy z hz a hya hza

/-- A block changes hands outside the buffers. Source: none: infrastructure. Kind: L -/
theorem Inv.mark (h : Inv s) (hp : s.heap p ≠ .buffer) (hst : st ≠ .buffer) : Inv (s.mark p st) := by
  refine ⟨h.nodup, fun a => ?_, h.unique⟩
  simp only [State.mark]
  by_cases ha : a = p
  · subst ha
    rw [Function.update_self]
    exact ⟨fun he => absurd he hst, fun he => absurd ((h.owned a).mpr he) hp⟩
  · rw [Function.update_of_ne ha]
    exact h.owned a

/-- A new value of a live variable that owns what the old one did.
Source: none: infrastructure
Kind: L -/
theorem Inv.assign (h : Inv s) (hb : b.owns = (s.buf x).owns) : Inv (s.assign x b) := by
  have hown : ∀ y, (Function.update s.buf x b y).owns = (s.buf y).owns := by
    intro y
    by_cases hy : y = x
    · subst hy
      rw [Function.update_self, hb]
    · rw [Function.update_of_ne hy]
  refine ⟨h.nodup, fun a => ?_, fun y hy z hz a hya hza => ?_⟩
  · simp only [State.assign, hown]
    exact h.owned a
  · simp only [State.assign, hown] at hya hza
    exact h.unique y hy z hz a hya hza

/-- Only such a value keeps the invariant. Source: none: infrastructure. Kind: L -/
theorem Inv.of_assign (h : Inv s) (h' : Inv (s.assign x b)) (hx : x ∈ s.live) :
    b.owns = (s.buf x).owns := by
  have hnew : ((s.assign x b).buf x) = b := Function.update_self ..
  have hold : ∀ z, z ≠ x → (s.assign x b).buf z = s.buf z := fun z hz => Function.update_of_ne hz ..
  ext a
  constructor
  · intro hba
    obtain ⟨z, hz, hza⟩ := (h.owned a).mp ((h'.owned a).mpr ⟨x, hx, by rwa [hnew]⟩)
    by_cases hzx : z = x
    · exact hzx ▸ hza
    · exact absurd (h'.unique z hz x hx a (by rwa [hold z hzx]) (by rwa [hnew])) hzx
  · intro hxa
    obtain ⟨z, hz, hza⟩ := (h'.owned a).mp ((h.owned a).mpr ⟨x, hx, hxa⟩)
    by_cases hzx : z = x
    · rwa [hzx, hnew] at hza
    · rw [hold z hzx] at hza
      exact absurd (h.unique z hz x hx a hza hxa) hzx

/-- A buffer gives its block away. Source: `sys/buffer.hpp` `mutable_buffer::release`. Kind: L -/
theorem Inv.assign_mark (h : Inv s) (hx : x ∈ s.live) (hp : (s.buf x).owns = some p)
    (hb : b.owns = none) (hst : st ≠ .buffer) : Inv ((s.assign x b).mark p st) := by
  have hold : ∀ z, z ≠ x → Function.update s.buf x b z = s.buf z := fun z hz =>
    Function.update_of_ne hz ..
  have hne : ∀ z a, (Function.update s.buf x b z).owns = some a → z ≠ x := by
    rintro z a hza rfl
    rw [Function.update_self, hb] at hza
    cases hza
  refine ⟨h.nodup, fun a => ?_, fun y hy z hz a hya hza => ?_⟩
  · simp only [State.mark, State.assign]
    by_cases ha : a = p
    · subst ha
      rw [Function.update_self]
      refine ⟨fun he => absurd he hst, ?_⟩
      rintro ⟨z, hz, hza⟩
      have hzx := hne z a hza
      rw [hold z hzx] at hza
      exact absurd (h.unique z hz x hx a hza hp) hzx
    · rw [Function.update_of_ne ha, h.owned a]
      constructor
      · rintro ⟨z, hz, hza⟩
        have hzx : z ≠ x := by
          rintro rfl
          exact ha (Option.some.inj (hza.symm.trans hp))
        exact ⟨z, hz, by rwa [hold z hzx]⟩
      · rintro ⟨z, hz, hza⟩
        exact ⟨z, hz, by rwa [hold z (hne z a hza)] at hza⟩
  · simp only [State.mark, State.assign] at hya hza
    have hyx := hne y a hya
    have hzx := hne z a hza
    rw [hold y hyx] at hya
    rw [hold z hzx] at hza
    exact h.unique y hy z hz a hya hza

/-- **Destroying one buffer.** The state before is in order if and only if the buffer's own block,
if any, is one that buffers answer for, and the state after is in order.
Source: `sys/buffer.hpp` `mutable_buffer::~mutable_buffer`
Kind: P -/
theorem inv_iff_drop (hnd : s.live.Nodup) (hx : x ∈ s.live) :
    Inv s ↔ (∀ p, (s.buf x).owns = some p → s.heap p = .buffer) ∧ Inv (s.drop x) := by
  have hmem : ∀ y, y ∈ s.live ↔ y = x ∨ y ∈ s.live.erase x := fun y => by
    rw [hnd.mem_erase_iff]
    constructor
    · intro hy
      by_cases hyx : y = x
      · exact Or.inl hyx
      · exact Or.inr ⟨hyx, hy⟩
    · rintro (rfl | ⟨-, hy⟩)
      · exact hx
      · exact hy
  have hnot : ∀ y ∈ s.live.erase x, y ≠ x := fun y hy => (hnd.mem_erase_iff.mp hy).1
  cases howns : (s.buf x).owns with
  | none =>
      have hdrop : s.drop x = { s with live := s.live.erase x } := by
        rw [State.drop, howns]
      rw [hdrop]
      constructor
      · intro h
        refine ⟨fun p hp => (nomatch hp), hnd.erase x, fun a => ?_, fun y hy z hz a hya hza => ?_⟩
        · rw [h.owned a]
          simp only [hmem, or_and_right, exists_or, exists_eq_left, howns, reduceCtorEq, false_or]
        · exact h.unique y ((hmem y).mpr (Or.inr hy)) z ((hmem z).mpr (Or.inr hz)) a hya hza
      · rintro ⟨-, h⟩
        refine ⟨hnd, fun a => ?_, fun y hy z hz a hya hza => ?_⟩
        · have := h.owned a
          simp only at this
          rw [this]
          simp only [hmem, or_and_right, exists_or, exists_eq_left, howns, reduceCtorEq, false_or]
        · rcases (hmem y).mp hy with rfl | hy
          · rw [howns] at hya
            cases hya
          rcases (hmem z).mp hz with rfl | hz
          · rw [howns] at hza
            cases hza
          exact h.unique y hy z hz a hya hza
  | some p =>
      have hdrop : s.drop x = { s with live := s.live.erase x }.mark p .unallocated := by
        rw [State.drop, howns]
      rw [hdrop]
      constructor
      · intro h
        have hhere : s.heap p = .buffer := (h.owned p).mpr ⟨x, hx, howns⟩
        refine ⟨fun q hq => Option.some.inj hq ▸ hhere, hnd.erase x, fun a => ?_,
          fun y hy z hz a hya hza => ?_⟩
        · simp only [State.mark]
          by_cases ha : a = p
          · subst ha
            rw [Function.update_self]
            refine ⟨fun he => (nomatch he), ?_⟩
            rintro ⟨y, hy, hya⟩
            exact absurd (h.unique y ((hmem y).mpr (Or.inr hy)) x hx a hya howns) (hnot y hy)
          · rw [Function.update_of_ne ha, h.owned a]
            simp only [hmem, or_and_right, exists_or, exists_eq_left, howns, Option.some.injEq,
              Ne.symm ha, false_or]
        · exact h.unique y ((hmem y).mpr (Or.inr hy)) z ((hmem z).mpr (Or.inr hz)) a hya hza
      · rintro ⟨hhere, h⟩
        have hp := hhere p rfl
        have howned : ∀ a, a ≠ p →
            (s.heap a = .buffer ↔ ∃ y ∈ s.live.erase x, (s.buf y).owns = some a) := by
          intro a ha
          have := h.owned a
          simpa only [State.mark, Function.update_of_ne ha] using this
        have hfree : ∀ y ∈ s.live.erase x, (s.buf y).owns ≠ some p := by
          intro y hy hyp
          have := (h.owned p).mpr ⟨y, hy, hyp⟩
          simp only [State.mark, Function.update_self] at this
          cases this
        refine ⟨hnd, fun a => ?_, fun y hy z hz a hya hza => ?_⟩
        · by_cases ha : a = p
          · subst ha
            exact ⟨fun _ => ⟨x, hx, howns⟩, fun _ => hp⟩
          · rw [howned a ha]
            simp only [hmem, or_and_right, exists_or, exists_eq_left, howns, Option.some.injEq,
              Ne.symm ha, false_or]
        · rcases (hmem y).mp hy with rfl | hy <;> rcases (hmem z).mp hz with rfl | hz
          · rfl
          · exact absurd (hza.trans (hya.symm.trans howns)) (hfree z hz)
          · exact absurd (hya.trans (hza.symm.trans howns)) (hfree y hy)
          · exact h.unique y hy z hz a hya hza

/-! ## Programs -/

/-- The variables that are alive are distinct. Source: none: infrastructure. Kind: L -/
theorem nodup_step (hnd : s.live.Nodup) (hlegal : Legal s op) (hstep : step s op = some s') :
    s'.live.Nodup := by
  cases op with
  | construct x size mem =>
      obtain rfl := Option.some.inj hstep
      split
      · exact hnd
      · exact List.nodup_cons.mpr ⟨hlegal.1, hnd⟩
  | obtain mem =>
      obtain rfl := Option.some.inj hstep
      exact hnd
  | discard mem =>
      obtain rfl := Option.some.inj hstep
      exact hnd
  | adopt x ptr size =>
      obtain rfl := Option.some.inj hstep
      exact List.nodup_cons.mpr ⟨hlegal.1, hnd⟩
  | moveConstruct x y =>
      obtain rfl := Option.some.inj hstep
      exact List.nodup_cons.mpr ⟨hlegal.1, hnd⟩
  | moveAssign x y =>
      obtain rfl := Option.some.inj hstep
      exact hnd
  | advance x sz =>
      obtain rfl := Option.some.inj hstep
      exact hnd
  | release x =>
      obtain ⟨r, -, rfl⟩ := Option.map_eq_some_iff.mp hstep
      simp only
      split <;> exact hnd
  | destroy x =>
      obtain rfl := Option.some.inj hstep
      unfold State.drop
      split <;> exact hnd.erase x

/-- When the state is in order and no buffer is alive, no block is left behind.
Source: none: infrastructure
Kind: L -/
theorem Inv.none_left (h : Inv s) (hl : s.live = []) (a : ℕ) : s.heap a ≠ .buffer := by
  intro ha
  obtain ⟨x, hx, -⟩ := (h.owned a).mp ha
  rw [hl] at hx
  cases hx

/-- **A handled operation** frees only what a buffer answers for and keeps the invariant.
Source: `sys/buffer.hpp` `mutable_buffer`
Kind: P -/
theorem Inv.step (h : Inv s) (hlegal : Legal s op) (hok : Handled s op)
    (hstep : BufferProgram.step s op = some s') : StepOwned s op s' ∧ Inv s' := by
  suffices hs : FreesOwn s op ∧ Inv s' from ⟨⟨hs.1, hs.2.none_left⟩, hs.2⟩
  cases op with
  | construct x size mem =>
      obtain rfl := Option.some.inj hstep
      refine ⟨trivial, ?_⟩
      split
      · exact h
      · rename_i h0
        obtain ⟨hx, hmem⟩ := hlegal
        obtain ⟨hw, hfree⟩ := hmem.resolve_left h0
        exact h.declare_mark hx (by simp [hfree]) (owns_fresh h0 hw)
  | obtain mem =>
      obtain rfl := Option.some.inj hstep
      obtain ⟨-, -, hfree⟩ := hlegal
      exact ⟨trivial, h.mark (by simp [hfree]) (by simp)⟩
  | discard mem =>
      obtain rfl := Option.some.inj hstep
      have hfree : s.heap mem = .client := hlegal
      exact ⟨trivial, h.mark (by simp [hfree]) (by simp)⟩
  | adopt x ptr size =>
      obtain rfl := Option.some.inj hstep
      obtain ⟨hx, h0, hw, hclient⟩ := hlegal
      exact ⟨trivial, h.declare_mark hx (by simp [hclient]) (owns_fresh h0 hw)⟩
  | moveConstruct x y =>
      obtain rfl := Option.some.inj hstep
      exact ⟨trivial, h.declare hlegal.1 hok⟩
  | moveAssign x y =>
      obtain rfl := Option.some.inj hstep
      refine ⟨trivial, h.assign ?_⟩
      rcases hok with rfl | ⟨hx, hy⟩
      · rfl
      · rw [hx, hy]
  | advance x sz =>
      obtain rfl := Option.some.inj hstep
      exact ⟨trivial, h.assign hok⟩
  | release x =>
      obtain ⟨r, hr, rfl⟩ := Option.map_eq_some_iff.mp hstep
      refine ⟨trivial, ?_⟩
      unfold MutableBuffer.release at hr
      split at hr
      · cases hr
      rename_i h0
      obtain rfl := Option.some.inj hr
      have hnone : ({ s.buf x with ptr := 0 } : MutableBuffer).owns = none := by
        simp [MutableBuffer.owns]
      by_cases hbase : (s.buf x).base = 0
      · have howns : (s.buf x).owns = none := by simp [MutableBuffer.owns, hbase]
        have hnull : s.heap 0 ≠ .buffer := by
          intro he
          obtain ⟨y, -, hy⟩ := (h.owned 0).mp he
          simp only [MutableBuffer.owns] at hy
          split at hy
          · cases hy
          · split at hy
            · cases hy
            · rename_i hne
              exact hne (Option.some.inj hy)
        have := h.assign (hnone.trans howns.symm)
        simpa [hbase, State.assign, hnull] using this
      · have howns : (s.buf x).owns = some (s.buf x).base := by
          simp [MutableBuffer.owns, h0, hbase]
        have hhere : s.heap (s.buf x).base = .buffer := (h.owned _).mpr ⟨x, hlegal, howns⟩
        have := h.assign_mark hlegal howns hnone (show BlockState.client ≠ .buffer by simp)
        simpa [State.assign, hhere] using this
  | destroy x =>
      obtain rfl := Option.some.inj hstep
      exact (inv_iff_drop h.nodup hlegal).mp h

/-- When destroying the live buffers does as it should, the state is in order.
Source: `sys/buffer.hpp` `mutable_buffer::~mutable_buffer`
Kind: P -/
theorem inv_of_destroys (hnd : s.live.Nodup) (hend : s.live = [] → ∀ a, s.heap a ≠ .buffer)
    (h : (system.guard Destroys).Always s StepOwned) : Inv s := by
  induction hl : s.live generalizing s with
  | nil =>
      have hempty : ∀ y, y ∉ s.live := fun y hy => by
        rw [hl] at hy
        cases hy
      exact ⟨hnd, fun a => ⟨fun he => absurd he (hend hl a), fun ⟨y, hy, _⟩ => absurd hy (hempty y)⟩,
        fun y hy => absurd hy (hempty y)⟩
  | cons x rest ih =>
      have hx : x ∈ s.live := by rw [hl]; exact List.mem_cons_self
      have hlegal : (system.guard Destroys).legal s (.destroy x) := ⟨hx, trivial⟩
      have hstep : (system.guard Destroys).step s (.destroy x) = some (s.drop x) := rfl
      obtain ⟨hfree, hlast⟩ := h [] s (.destroy x) (s.drop x) System.Run.nil hlegal hstep
      have hlive : (s.drop x).live = rest := by
        have : (s.drop x).live = s.live.erase x := by
          unfold State.drop
          split <;> rfl
        rw [this, hl, List.erase_cons_head]
      have hnd' : (s.drop x).live.Nodup := by
        rw [hlive]
        rw [hl] at hnd
        exact (List.nodup_cons.mp hnd).2
      exact (inv_iff_drop hnd hx).mpr ⟨hfree, ih hnd' hlast (h.of_step hlegal hstep) hlive⟩

/-- An operation that keeps the invariant is a handled one.
Source: `sys/buffer.hpp` `mutable_buffer`
Kind: P -/
theorem Inv.handled (h : Inv s) (hlegal : Legal s op) (hstep : BufferProgram.step s op = some s')
    (h' : Inv s') : Handled s op := by
  cases op with
  | moveConstruct x y =>
      obtain rfl := Option.some.inj hstep
      obtain ⟨hx, hy⟩ := hlegal
      have hyx : y ≠ x := fun he => hx (he ▸ hy)
      have hbx : ((s.declare x (s.buf y)).buf x) = s.buf y := Function.update_self ..
      have hby : ((s.declare x (s.buf y)).buf y) = s.buf y := Function.update_of_ne hyx ..
      cases howns : (s.buf y).owns with
      | none => exact howns
      | some a =>
          exact absurd (h'.unique y (List.mem_cons_of_mem _ hy) x List.mem_cons_self a
            (by rw [hby, howns]) (by rw [hbx, howns])) hyx
  | moveAssign x y =>
      obtain rfl := Option.some.inj hstep
      obtain ⟨hx, hy⟩ := hlegal
      have heq := h.of_assign h' hx
      by_cases hxy : x = y
      · exact Or.inl hxy
      · cases howns : (s.buf y).owns with
        | none => exact Or.inr ⟨heq.symm.trans howns, howns⟩
        | some a => exact absurd (h.unique x hx y hy a (heq.symm.trans howns) howns) hxy
  | advance x sz =>
      obtain rfl := Option.some.inj hstep
      exact h.of_assign h' hlegal
  | construct => trivial
  | obtain => trivial
  | discard => trivial
  | adopt => trivial
  | release => trivial
  | destroy => trivial

/-- **Heap ownership through `mutable_buffer`.** As long as every operation is handled, a
destructor frees only blocks that a buffer answers for, so that none is freed twice or after a
release, and when no buffer is alive every block was released or freed. The first operation that
is not handled breaks this: at once, or when the buffers are destroyed from there.
Source: `sys/buffer.hpp` `mutable_buffer`
Kind: P
Fidelity: weaker than the code promises: up to the first operation that `Handled` leaves out -/
theorem mutableBuffer_exactlyWhen (as : List Op) (s : State) (op : Op) (s' : State)
    (hrun : (system.guard Handled).Run State.init as s) (hlegal : Legal s op)
    (hstep : step s op = some s') : Sound s op s' ↔ Handled s op := by
  have hinit : Inv State.init := ⟨List.nodup_nil, by simp [State.init], by simp [State.init]⟩
  have hinv : Inv s := hrun.invariant hinit fun _ _ _ h hlegal hstep =>
    (h.step hlegal.1 hlegal.2 hstep).2
  constructor
  · rintro ⟨⟨-, hend⟩, hdes⟩
    exact hinv.handled hlegal hstep (inv_of_destroys (nodup_step hinv.nodup hlegal hstep) hend hdes)
  · intro hok
    obtain ⟨hsafe, hinv'⟩ := hinv.step hlegal hok hstep
    refine ⟨hsafe, fun bs t o t' hrun' hlegal' hstep' => ?_⟩
    have hdestroy : ∀ t o, Destroys t o → Handled t o := by
      intro t o ho
      cases o <;> first | exact ho.elim | trivial
    have hinvt : Inv t := hrun'.invariant hinv' fun _ _ _ h hlegal hstep =>
      (h.step hlegal.1 (hdestroy _ _ hlegal.2) hstep).2
    exact (hinvt.step hlegal'.1 (hdestroy _ _ hlegal'.2) hstep').1

/-- A buffer is filled into the ring and a later one moved into a variable that gave its block
away.
Source: `sys/virtio.hpp` `vring::add_writable_buffers`
Kind: C -/
theorem mutableBuffer_exactlyWhen_released :
    ∃ s s', system.Run State.init [.construct 0 2048 4096, .advance 0 12, .release 0] s ∧
      step s (.moveConstruct 1 0) = some s' ∧ Sound s (.moveConstruct 1 0) s' ∧
      s'.heap 4096 = .client := by
  have h : (system.guard Handled).Admits State.init
      (([.construct 0 2048 4096, .advance 0 12, .release 0] : List Op) ++ [.moveConstruct 1 0]) := by
    decide
  obtain ⟨s, s', hexec, hrun, hlegal, hstep⟩ := h.last
  refine ⟨s, s', hrun.of_guard, hstep,
    (mutableBuffer_exactlyWhen _ s (.moveConstruct 1 0) s' hrun hlegal.1 hstep).mpr hlegal.2, ?_⟩
  obtain rfl := Option.some.inj hexec
  obtain rfl := Option.some.inj hstep
  decide

/-- The receive path: a block adopted from a descriptor is advanced past the header and moved into
the parameter of `ReceivePacket`; the parameter's destructor frees it, and so does that of the
list.
Source: `sys/virtio_net.cpp` `virtio_net_driver`, `sys/net.cpp` `NetworkManager::Interface::ReceivePacket`
Kind: P -/
theorem mutableBuffer_not_always : ¬ system.Always State.init StepOwned := by
  have hadmits : system.Admits State.init
      (([.obtain 4096, .adopt 0 4096 2048, .advance 0 12, .moveConstruct 1 0, .destroy 1] :
        List Op) ++ [.destroy 0]) := by decide
  refine System.not_always_of_admits hadmits ?_
  intro s s' hs hs' hsafe
  have hheap : (s.buf 0).owns = some 4096 ∧ s.heap 4096 = .unallocated := by
    obtain rfl := Option.some.inj hs
    exact ⟨by decide, by decide⟩
  have := hsafe.1 4096 hheap.1
  rw [hheap.2] at this
  cases this

end BufferProgram

end EbbRT
