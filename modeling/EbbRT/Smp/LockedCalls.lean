import EbbRT.Ebb.EbbAllocator
import EbbRT.Lib.Lock

/-!
# Calls under a spinlock

Two users of `spinlock` whose calls come from all cores at any time. `EbbAllocator::AllocateLocal` hands
out the ids in order, in the order in which the calls give the lock back (`ids_inOrder`).
`console_write` puts whole strings on the line, one after another, and writes no byte before the
transmitter has taken the one before it (`console_contiguous`).
-/

namespace EbbRT

open EbbRT.Lib

namespace EbbAllocator

/-! ## Ebb ids -/

/-- What is left of a call.
Source: `sys/ebb_allocator.cpp` `EbbAllocator::AllocateLocal`
Kind: D -/
inductive Work where
  | check
  | first
  | erase (ret : ℕ)
  | ret (ret : ℕ)
  deriving DecidableEq, Repr

/-- One access to `free_ids_`.
Source: `sys/ebb_allocator.cpp` `EbbAllocator::AllocateLocal`
Kind: D -/
def next (s : State) : Work → Turn State Work ℕ
  | .check => if s.freeIds.first.isNone then .abort else .more s .first
  | .first =>
      match s.freeIds.first with
      | none => .abort
      | some ret => .more s (.erase ret)
  | .erase ret => .more ⟨s.freeIds.erase ret, s.returned ++ [ret]⟩ (.ret ret)
  | .ret ret => .done ret

/-- Source: `sys/ebb_allocator.cpp` `EbbAllocator::AllocateLocal`
Kind: D -/
def body : Body State Unit Work ℕ := ⟨fun _ => .check, next⟩

/-- What comes of the work that is left.
Source: `sys/ebb_allocator.cpp` `EbbAllocator::AllocateLocal`
Kind: D -/
def finish (s : State) : Work → Option (State × ℕ)
  | .check => (allocateLocal s.freeIds).map fun r => (⟨r.2, s.returned ++ [r.1]⟩, r.1)
  | .first => (allocateLocal s.freeIds).map fun r => (⟨r.2, s.returned ++ [r.1]⟩, r.1)
  | .erase ret => some (⟨s.freeIds.erase ret, s.returned ++ [ret]⟩, ret)
  | .ret ret => some (s, ret)

/-- Source: `sys/ebb_allocator.cpp` `EbbAllocator::AllocateLocal`. Kind: L -/
theorem body_computes : body.Computes finish where
  more s l s' l' hmore := by
    have hmore' : next s l = .more s' l' := hmore
    cases l with
    | check =>
        unfold next at hmore'
        dsimp only at hmore'
        cases hfirst : s.freeIds.first.isNone with
        | true => simp [hfirst] at hmore'
        | false =>
            simp only [hfirst, Bool.false_eq_true, if_false, Turn.more.injEq] at hmore'
            obtain ⟨rfl, rfl⟩ := hmore'
            rfl
    | first =>
        unfold next at hmore'
        rw [finish, allocateLocal]
        cases hfirst : s.freeIds.first with
        | none => simp [hfirst] at hmore'
        | some ret =>
            simp only [hfirst, Turn.more.injEq] at hmore'
            obtain ⟨rfl, rfl⟩ := hmore'
            rfl
    | erase ret =>
        cases hmore'
        rfl
    | ret ret => cases hmore'
  done s l r hdone := by
    have hdone' : next s l = .done r := hdone
    cases l with
    | check =>
        unfold next at hdone'
        dsimp only at hdone'
        split at hdone' <;> cases hdone'
    | first =>
        unfold next at hdone'
        cases hfirst : s.freeIds.first <;> simp [hfirst] at hdone'
    | erase ret => cases hdone'
    | ret ret =>
        cases hdone'
        rfl
  abort s l habort := by
    have habort' : next s l = .abort := habort
    cases l with
    | check =>
        unfold next at habort'
        dsimp only at habort'
        rw [finish, allocateLocal]
        cases hfirst : s.freeIds.first with
        | none => rfl
        | some ret => simp [hfirst] at habort'
    | first =>
        unfold next at habort'
        rw [finish, allocateLocal]
        cases hfirst : s.freeIds.first with
        | none => rfl
        | some ret => simp [hfirst] at habort'
    | erase ret => cases habort'
    | ret ret => cases habort'

variable {s s' t : State} {ret : ℕ}

/-- **A whole call.** Source: `sys/ebb_allocator.cpp` `EbbAllocator::AllocateLocal`. Kind: L -/
theorem step_of_executes (h : body.Executes s () s' ret) :
    system.step s 0 = some s' ∧ s'.returned = s.returned ++ [ret] := by
  obtain ⟨r, hr, heq⟩ := Option.map_eq_some_iff.mp (body_computes.executes h)
  simp only [Prod.mk.injEq] at heq
  obtain ⟨rfl, rfl⟩ := heq
  refine ⟨?_, rfl⟩
  unfold system
  dsimp only
  rw [hr]
  rfl

/-- The calls one after another. Source: `sys/ebb_allocator.cpp` `EbbAllocator::AllocateLocal`. Kind: L -/
theorem inv_of_sequential {ι : Type*} {calls : List (ι × Unit × ℕ)} (h : body.Sequential (fun _ _ => True)
    State.init calls s) : Inv s ∧ s.returned = calls.map fun call => call.2.2 := by
  induction h with
  | nil => exact ⟨inv_init, rfl⟩
  | snoc _ _ call ih =>
      obtain ⟨hstep, hreturned⟩ := step_of_executes call
      refine ⟨(ih.1.step hstep).1, ?_⟩
      rw [hreturned, ih.2, List.map_append]
      rfl

/-- **Ids are handed out in order.** However the accesses of calls from different cores follow one another,
the completed calls returned the ids from `FIRST_FREE_ID` on, without a gap and none twice; and a call
aborts only when all of them are given out.
Source: `sys/ebb_allocator.cpp` `EbbAllocator::AllocateLocal`, `sys/spinlock.hpp` `spinlock`
Kind: C -/
theorem ids_inOrder {ι : Type*} [DecidableEq ι] (es : List (LockEvent ι Unit))
    (c : Locked ι State Unit Work ℕ)
    (hrun : (Locked.system ι (fun _ _ => True) body).Run (Locked.init State.init) es c) :
    (c.history.map fun call => call.2.2) = List.range' firstFreeId c.history.length ∧
      ∀ i l, c.threads i = .inside () l → body.next c.shared l = .abort →
        firstFreeId + c.history.length = endIds := by
  obtain ⟨s, hs⟩ := Locked.locked_sequential hrun
  obtain ⟨hinv, hreturned⟩ := inv_of_sequential hs.sequential
  have hlength : s.returned.length = c.history.length := by rw [hreturned, List.length_map]
  refine ⟨?_, fun i l hi habort => ?_⟩
  · rw [← hreturned, ← hlength]
    exact hinv.returned
  · obtain ⟨-, hholder⟩ := hs.holder hi
    have hnone := body_computes.abort _ _ habort
    rw [← body_computes.goes hholder.goes] at hnone
    have hfirst : s.freeIds.first = none := by
      simpa [body, finish, allocateLocal] using hnone
    -- were there an id left, it would be free
    by_contra hne
    have hbound := hinv.bound
    rw [hlength] at hbound
    refine IntervalSet.first_eq_none hfirst (firstFreeId + c.history.length)
      ((hinv.free _).mpr ⟨le_of_eq (by rw [hlength]), by omega⟩)

/-- Two cores, one of them spinning. Source: `sys/ebb_allocator.cpp` `EbbAllocator::AllocateLocal`. Kind: C -/
theorem ids_inOrder_two :
    ∃ c : Locked (Fin 2) State Unit Work ℕ, c.history = [(1, (), firstFreeId)] ∧
      (c.history.map fun call => call.2.2) = List.range' firstFreeId c.history.length := by
  obtain ⟨c, hc, hrun⟩ := System.Run.of_admits (show (Locked.system (Fin 2) (fun _ _ => True) body).Admits
    (Locked.init State.init)
    [.call 0 (), .call 1 (), .testAndSet 1, .testAndSet 0, .work 1, .work 1, .work 1, .testAndSet 0, .unlock 1,
      .testAndSet 0, .work 0] by decide +kernel)
  refine ⟨c, ?_, (ids_inOrder _ c hrun).1⟩
  obtain rfl := Option.some.inj hc
  rfl

end EbbAllocator

namespace Console

/-! ## The console -/

/-- The transmitter: whether it has taken the last byte when the status is read for the `n`th time, how
often it was read, whether the holding register has a byte, the bytes that went through it, and those
that were overwritten in it.
Source: `sys/UART_8250.cpp` `LINE_STATUS_REG_THR_EMPTY`
Kind: D -/
structure Uart where
  taken : ℕ → Bool
  reads : ℕ
  full : Bool
  wire : List UInt8
  lost : List UInt8

/-- Before the first write.
Source: `sys/UART_8250.cpp` `console_init`
Kind: D -/
def Uart.init (taken : ℕ → Bool) : Uart := ⟨taken, 0, false, [], []⟩

/-- `in8(PORT + LINE_STATUS_REG)`.
Source: `sys/UART_8250.cpp` `write_locked`
Kind: D -/
def readStatus (u : Uart) : Uart := { u with reads := u.reads + 1, full := u.full && !u.taken u.reads }

/-- `out8(PORT + DATA_REG, c)`.
Source: `sys/UART_8250.cpp` `write_locked`
Kind: D -/
def writeData (c : UInt8) (u : Uart) : Uart :=
  if u.full then { u with lost := u.lost ++ u.wire.getLast?.toList, wire := u.wire.dropLast ++ [c] }
  else { u with full := true, wire := u.wire ++ [c] }

/-- What is left of a call: at the loop of `console_write`, at the loop of `write_locked`, behind it.
Source: `sys/UART_8250.cpp` `console_write`
Kind: D -/
inductive Work where
  | loop (str : List UInt8)
  | poll (c : UInt8) (str : List UInt8)
  | put (c : UInt8) (str : List UInt8)
  deriving DecidableEq

/-- One access to the device, or one test of the loop; `str` is what lies in memory from the pointer on.
Source: `sys/UART_8250.cpp` `console_write`, `write_locked`
Kind: D -/
def next (u : Uart) : Work → Turn Uart Work Unit
  | .loop [] => .done ()
  | .loop (c :: str) => if c = 0 then .done () else .more u (.poll c str)
  | .poll c str => if (readStatus u).full then .more (readStatus u) (.poll c str) else .more (readStatus u) (.put c str)
  | .put c str => .more (writeData c u) (.loop str)

/-- Source: `sys/UART_8250.cpp` `console_write`
Kind: D -/
def body : Body Uart (List UInt8) Work Unit := ⟨.loop, next⟩

/-- The characters of a string.
Source: `sys/UART_8250.cpp` `console_write`
Kind: D -/
def text (str : List UInt8) : List UInt8 := str.takeWhile (· ≠ 0)

/-- What a call has not written yet.
Source: `sys/UART_8250.cpp` `console_write`
Kind: D -/
def left : Work → List UInt8
  | .loop str => text str
  | .poll c str => c :: text str
  | .put c str => c :: text str

/-- On the way of a call that is to leave `all` on the line.
Source: none: infrastructure
Kind: D -/
structure Writes (all : List UInt8) (u : Uart) (l : Work) : Prop where
  wire : u.wire ++ left l = all
  lost : u.lost = []
  free : ∀ c str, l = .put c str → u.full = false

variable {all : List UInt8} {u u' : Uart} {l l' : Work}

/-- **Each access** keeps to it. Source: `sys/UART_8250.cpp` `console_write`. Kind: L -/
theorem Writes.next (h : Writes all u l) (hmore : next u l = .more u' l') : Writes all u' l' := by
  cases l with
  | loop str =>
      cases str with
      | nil => cases hmore
      | cons c str =>
          unfold Console.next at hmore
          dsimp only at hmore
          by_cases hc : c = 0
          · rw [if_pos hc] at hmore
            cases hmore
          · rw [if_neg hc, Turn.more.injEq] at hmore
            obtain ⟨rfl, rfl⟩ := hmore
            have hwire := h.wire
            have htext : text (c :: str) = c :: text str := by simp [text, hc]
            rw [left, htext] at hwire
            exact ⟨hwire, h.lost, by simp⟩
  | poll c str =>
      unfold Console.next at hmore
      dsimp only at hmore
      by_cases hfull : (readStatus u).full = true
      · rw [if_pos hfull, Turn.more.injEq] at hmore
        obtain ⟨rfl, rfl⟩ := hmore
        exact ⟨h.wire, h.lost, by simp⟩
      · rw [if_neg hfull, Turn.more.injEq] at hmore
        obtain ⟨rfl, rfl⟩ := hmore
        exact ⟨h.wire, h.lost, fun _ _ _ => Bool.eq_false_iff.mpr hfull⟩
  | put c str =>
      have hfull := h.free c str rfl
      have hwrite : writeData c u = { u with full := true, wire := u.wire ++ [c] } := by
        unfold writeData
        rw [if_neg (by simp [hfull])]
      unfold Console.next at hmore
      dsimp only at hmore
      rw [Turn.more.injEq] at hmore
      obtain ⟨rfl, rfl⟩ := hmore
      rw [hwrite]
      refine ⟨?_, h.lost, by simp⟩
      have hwire := h.wire
      simp only [left] at hwire ⊢
      rw [List.append_assoc]
      exact hwire

/-- From the beginning of a call. Source: `sys/UART_8250.cpp` `console_write`. Kind: L -/
theorem writes_of_goes {str : List UInt8} (hlost : u.lost = [])
    (h : Relation.ReflTransGen body.Goes (u, body.start str) (u', l')) :
    Writes (u.wire ++ text str) u' l' := by
  suffices hpair : ∀ p, Relation.ReflTransGen body.Goes (u, body.start str) p →
      Writes (u.wire ++ text str) p.1 p.2 from hpair _ h
  intro p hp
  induction hp with
  | refl => exact ⟨rfl, hlost, fun c str' heq => by cases heq⟩
  | tail _ hstep ih => exact ih.next hstep

/-- At the end nothing is left. Source: `sys/UART_8250.cpp` `console_write`. Kind: L -/
theorem left_of_done {r : Unit} (h : next u l = .done r) : left l = [] := by
  cases l with
  | loop str =>
      cases str with
      | nil => rfl
      | cons c str =>
          unfold next at h
          dsimp only at h
          by_cases hc : c = 0
          · simp [left, text, hc]
          · rw [if_neg hc] at h
            cases h
  | poll c str =>
      unfold next at h
      dsimp only at h
      split at h <;> cases h
  | put c str => cases h

/-- The strings of the completed calls are on the line. Source: `sys/UART_8250.cpp` `console_write`. Kind: L -/
theorem wire_of_sequential {ι : Type*} {taken : ℕ → Bool} {calls : List (ι × List UInt8 × Unit)}
    (h : body.Sequential (fun _ _ => True) (Uart.init taken) calls u) :
    u.wire = (calls.map fun call => text call.2.1).flatten ∧ u.lost = [] := by
  induction h with
  | nil => exact ⟨rfl, rfl⟩
  | snoc _ _ call ih =>
      obtain ⟨l, hgoes, hdone⟩ := call
      have hwrites := writes_of_goes ih.2 hgoes
      refine ⟨?_, hwrites.lost⟩
      have hwire := hwrites.wire
      rw [left_of_done hdone, List.append_nil, ih.1] at hwire
      rw [hwire]
      simp

/-- **Strings are not torn apart.** However the accesses of writes from different cores follow one another,
and however long the transmitter takes for each byte: what went out is the strings of the completed
writes, whole and in the order in which they completed, with the beginning of the one that is under way,
and no byte was overwritten before it was taken.
Source: `sys/UART_8250.cpp` `console_write`, `write_locked`
Kind: C
Fidelity: the transmitter takes bytes at any times, which `taken` says -/
theorem console_contiguous {ι : Type*} [DecidableEq ι] (taken : ℕ → Bool)
    (es : List (LockEvent ι (List UInt8))) (c : Locked ι Uart (List UInt8) Work Unit)
    (hrun : (Locked.system ι (fun _ _ => True) body).Run (Locked.init (Uart.init taken)) es c) :
    c.shared.lost = [] ∧
      (c.flag = false → c.shared.wire = (c.history.map fun call => text call.2.1).flatten) ∧
      ∀ i str l, c.threads i = .inside str l →
        c.shared.wire ++ left l = (c.history.map fun call => text call.2.1).flatten ++ text str := by
  obtain ⟨s, hs⟩ := Locked.locked_sequential hrun
  obtain ⟨hwire, hlost⟩ := wire_of_sequential hs.sequential
  have hinside : ∀ i str l, c.threads i = .inside str l → Writes (s.wire ++ text str) c.shared l := by
    intro i str l hi
    obtain ⟨-, hholder⟩ := hs.holder hi
    exact writes_of_goes hlost hholder.goes
  refine ⟨?_, fun hflag => ?_, fun i str l hi => ?_⟩
  · cases hflag : c.flag with
    | false => rw [(hs.free hflag).1, hlost]
    | true =>
        obtain ⟨i, str, l, hi⟩ := hs.held hflag
        exact (hinside i str l hi.inside).lost
  · rw [(hs.free hflag).1, hwire]
  · rw [(hinside i str l hi).wire, hwire]

/-- Two cores write, and the transmitter is slow: the second core is in the middle of its string.
Source: `sys/UART_8250.cpp` `console_write`
Kind: C -/
theorem console_contiguous_two :
    ∃ c : Locked (Fin 2) Uart (List UInt8) Work Unit, c.threads 0 = .inside [3, 4, 0] (.poll 4 [0]) ∧
      c.shared.lost = [] ∧ c.shared.wire ++ [4] = [1, 2] ++ [3, 4] := by
  obtain ⟨c, hc, hrun⟩ := System.Run.of_admits (show (Locked.system (Fin 2) (fun _ _ => True) body).Admits
    (Locked.init (Uart.init fun n => n % 2 == 0))
    [.call 0 [3, 4, 0], .call 1 [1, 2, 0, 9], .testAndSet 1, .testAndSet 0, .work 1, .work 1, .work 1, .work 1,
      .testAndSet 0, .work 1, .work 1, .work 1, .unlock 1, .testAndSet 0, .work 0, .work 0, .work 0, .work 0,
      .work 0] by decide +kernel)
  have hthread : c.threads 0 = .inside [3, 4, 0] (.poll 4 [0]) ∧
      c.history = [(1, [1, 2, 0, 9], ())] := by
    obtain rfl := Option.some.inj hc
    exact ⟨rfl, rfl⟩
  obtain ⟨hlost, -, hinside⟩ := console_contiguous _ _ c hrun
  have hwire := hinside 0 _ _ hthread.1
  rw [hthread.2] at hwire
  exact ⟨c, hthread.1, hlost, hwire⟩

end Console

end EbbRT
