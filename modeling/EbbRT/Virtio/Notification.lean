import EbbRT.Lib.Window
import EbbRT.Virtio.UsedRing

/-!
# Notifications of a virtqueue

Each side publishes an index and then looks whether the other one asked to be told: the driver
stores the avail index, loads `avail_event` and kicks; the device stores the used index, loads
`used_event` and interrupts. Each side stores its own event index and looks at the other's index
once more before it rests. Here every atomic load and store of the driver is a step of its own, and
so are the device's: it takes chains, stores `avail_event` before it sleeps and looks again,
publishes used elements and then decides on the interrupt.

The counters of the state are the unbounded indices; what is stored is their remainder modulo
`2 ^ 16`. `notification_always`: no notification is lost, in any run. The elements that the driver
processes are those that the device published as long as fewer than `qsize_` were processed before,
since the used ring is not indexed modulo `qsize_`.
-/

namespace EbbRT

open EbbRT.Lib

namespace Vring

/-! ## The code -/

/-- Where an add function is: outside, about to store the avail index, or about to load
`avail_event`. `orig` and `new` are `orig_idx` and `avail_idx`, `added` the number of chains between
them, `refs` what `add_readable_buffer` puts into `buf_references_` at its end.
Source: `sys/virtio.hpp` `vring::add_writable_buffers`, `vring::add_readable_buffer`
Kind: D -/
inductive AddPc where
  | idle
  | store (orig new added : ℕ) (refs : Option (ℕ × List Buf))
  | event (orig new added : ℕ) (refs : Option (ℕ × List Buf))
  deriving DecidableEq, Repr

/-- What the device does about the avail ring: it looks for chains, it has stored `avail_event` and
will look again, or it sleeps.
Source: none: infrastructure
Kind: D -/
inductive Device where
  | awake
  | armed
  | asleep
  deriving DecidableEq, Repr

/-- The queue, the places of the two sides and the unbounded counters.
Source: `sys/virtio.hpp` `vring`
Kind: D -/
structure NotifyState where
  ring : Vring
  addPc : AddPc
  usedPc : Pc
  device : Device
  /-- How many chains were published. -/
  published : ℕ
  /-- How many chains the device has taken; it stores this modulo `2 ^ 16`. -/
  seen : ℕ
  /-- The used index before the device's last publication, until it has looked at `used_event`. -/
  announcing : Option ℕ
  /-- The used elements that the device published, oldest first. -/
  completions : List UsedElem
  /-- The used elements that the driver processed, oldest first. -/
  delivered : List UsedElem
  /-- An interrupt was raised and not taken. -/
  interrupt : Bool
  /-- A kick was issued and the device has not noticed it. -/
  kicked : Bool

/-- After the constructor. Source: `sys/virtio.hpp` `vring::vring`. Kind: D -/
def NotifyState.init (qsize : ℕ) (beyond : ℕ → UsedElem) : NotifyState where
  ring := Vring.init qsize beyond
  addPc := .idle
  usedPc := .idle
  device := .awake
  published := 0
  seen := 0
  announcing := none
  completions := []
  delivered := []
  interrupt := false
  kicked := false

/-- The steps. Of the driver: an add function is called and goes on, one of the functions for the
used ring is called (also by an interrupt that is taken) and goes on. Of the device: it looks at the
avail ring and takes a chain, stores `avail_event`, looks again, notices a kick or wakes up by
itself, publishes used elements, and looks at `used_event`.
Source: `sys/virtio.hpp` `vring`
Kind: D -/
inductive NotifyOp where
  | addWritableBuffers (lists : List (List Buf))
  | addReadableBuffer (bufs : List Buf)
  | runAdd
  | call (clean : Bool)
  | takeInterrupt (clean : Bool)
  | runUsed
  | take
  | arm
  | lookAgain
  | wake
  | complete (elems : List UsedElem)
  | notify
  deriving DecidableEq, Repr

/-- `add_writable_buffers` up to the store of the index; it does not come to that when a list does
not fit.
Source: `sys/virtio.hpp` `vring::add_writable_buffers`
Kind: D -/
def beginWritable (lists : List (List Buf)) (s : NotifyState) : NotifyState :=
  if lists = [] then s
  else
    let l := addLists lists s.ring s.ring.availIdx
    if l.2.2.2 = [] then
      { s with ring := l.1, addPc := .store s.ring.availIdx l.2.1 l.2.2.1.length none }
    else { s with ring := l.1 }

/-- `add_readable_buffer` up to the store of the index; `none` is the `kbugon`.
Source: `sys/virtio.hpp` `vring::add_readable_buffer`
Kind: D -/
def beginReadable (bufs : List Buf) (s : NotifyState) : Option NotifyState :=
  if s.ring.freeCount < bufs.length then none
  else
    let c := addChain false bufs s.ring
    some { s with
      ring := c.1.setAvail s.ring.availIdx c.2
      addPc := .store s.ring.availIdx ((s.ring.availIdx + 1) % half) 1 (some (c.2, bufs)) }

/-- `buf_references_.emplace`, for the function that has it.
Source: `sys/virtio.hpp` `vring::add_readable_buffer`
Kind: D -/
def emplaceRefs (r : Vring) : Option (ℕ × List Buf) → Vring
  | none => r
  | some (head, bufs) =>
      { r with bufReferences :=
        Function.update r.bufReferences head ((r.bufReferences head).or (some bufs)) }

/-- The next step of the add function.
Source: `sys/virtio.hpp` `vring::add_writable_buffers`, `vring::add_readable_buffer`
Kind: D -/
def runAddStep (s : NotifyState) : Option NotifyState :=
  match s.addPc with
  | .idle => none
  | .store orig new added refs =>
      some { s with
        ring := { s.ring with availIdx := new }
        published := s.published + added
        addPc := .event orig new added refs }
  | .event orig new _ refs =>
      if Crossed half s.ring.availEvent new orig then
        some { s with
          ring := emplaceRefs { s.ring with kicks := s.ring.kicks + 1 } refs
          kicked := true
          addPc := .idle }
      else some { s with ring := emplaceRefs s.ring refs, addPc := .idle }

/-- The next step of the function for the used ring: `used_->ring[used_index]` is read with the
index as it is.
Source: `sys/virtio.hpp` `vring::process_used_buffers`, `vring::clean_used_buffers`
Kind: D -/
def runUsedStep (s : NotifyState) : Option NotifyState :=
  match s.usedPc with
  | .idle => none
  | .check clean i =>
      if i = s.ring.usedIdx then
        some { s with ring := { s.ring with usedEvent := i }, usedPc := .recheck clean i }
      else some { s with usedPc := .fetch clean i }
  | .recheck clean i =>
      if i = s.ring.usedIdx then some { s with usedPc := .idle }
      else some { s with usedPc := .fetch clean i }
  | .fetch clean i => some { s with usedPc := .recycle clean i (s.ring.usedRing i) }
  | .recycle clean i elem =>
      (if clean then s.ring.cleanUsed elem.id else (s.ring.processUsed elem.id).map Prod.fst).map
        fun r =>
          { s with
            ring := r
            usedPc := .check clean ((i + 1) % half)
            delivered := s.delivered ++ [elem] }

/-- The device writes used elements and then stores the index.
Source: `sys/virtio.hpp` `vring::used`
Kind: D -/
def completeAll (elems : List UsedElem) (s : NotifyState) : NotifyState :=
  { s with
    ring := elems.foldl Vring.complete s.ring
    announcing := some s.ring.usedIdx
    completions := s.completions ++ elems }

/-- The device looks at `used_event` and interrupts when it lies in the window of the indices it
just published.
Source: none: infrastructure
Kind: D -/
def notifyStep (s : NotifyState) : NotifyState :=
  match s.announcing with
  | none => s
  | some old =>
      { s with
        announcing := none
        interrupt := s.interrupt || decide (Crossed half s.ring.usedEvent s.ring.usedIdx old) }

/-- Source: `sys/virtio.hpp` `vring`
Kind: D -/
def notificationStep (s : NotifyState) : NotifyOp → Option NotifyState
  | .addWritableBuffers lists => some (beginWritable lists s)
  | .addReadableBuffer bufs => beginReadable bufs s
  | .runAdd => runAddStep s
  | .call clean => some { s with usedPc := .check clean s.ring.usedEvent }
  | .takeInterrupt clean =>
      some { s with usedPc := .check clean s.ring.usedEvent, interrupt := false }
  | .runUsed => runUsedStep s
  | .take => some (if s.ring.availIdx = s.seen % half then s else { s with seen := s.seen + 1 })
  | .arm =>
      some { s with ring := { s.ring with availEvent := s.seen % half }, device := .armed }
  | .lookAgain =>
      some { s with device := if s.ring.availIdx = s.seen % half then .asleep else .awake }
  | .wake =>
      some { s with
        kicked := false
        device := if s.device = .asleep then .awake else s.device }
  | .complete elems => some (completeAll elems s)
  | .notify => some (notifyStep s)

/-- At most `qsize_` chains are published and not processed; a function does not run inside itself;
the device completes chains that it took, and one publication at a time.
Source: `sys/virtio.hpp` `vring`
Kind: D -/
def NotifyLegal (s : NotifyState) : NotifyOp → Prop
  | .addWritableBuffers lists =>
      s.addPc = .idle ∧ s.published + (addLists lists s.ring s.ring.availIdx).2.2.1.length
        ≤ s.delivered.length + s.ring.qsize
  | .addReadableBuffer _ =>
      s.addPc = .idle ∧ s.published + 1 ≤ s.delivered.length + s.ring.qsize
  | .runAdd => s.addPc ≠ .idle
  | .call _ => s.usedPc = .idle
  | .takeInterrupt _ => s.usedPc = .idle ∧ s.interrupt = true
  | .runUsed => s.usedPc ≠ .idle
  | .take => s.device = .awake
  | .arm => s.device = .awake
  | .lookAgain => s.device = .armed
  | .wake => True
  | .complete elems =>
      s.announcing = none ∧ elems ≠ [] ∧ s.completions.length + elems.length ≤ s.seen
  | .notify => s.announcing ≠ none

instance : ∀ (s : NotifyState) (op : NotifyOp), Decidable (NotifyLegal s op)
  | _, .addWritableBuffers _ => inferInstanceAs (Decidable (_ ∧ _))
  | _, .addReadableBuffer _ => inferInstanceAs (Decidable (_ ∧ _))
  | _, .runAdd => inferInstanceAs (Decidable (_ ≠ _))
  | _, .call _ => inferInstanceAs (Decidable (_ = _))
  | _, .takeInterrupt _ => inferInstanceAs (Decidable (_ ∧ _))
  | _, .runUsed => inferInstanceAs (Decidable (_ ≠ _))
  | _, .take => inferInstanceAs (Decidable (_ = _))
  | _, .arm => inferInstanceAs (Decidable (_ = _))
  | _, .lookAgain => inferInstanceAs (Decidable (_ = _))
  | _, .wake => inferInstanceAs (Decidable True)
  | _, .complete _ => inferInstanceAs (Decidable (_ ∧ _ ∧ _))
  | _, .notify => inferInstanceAs (Decidable (_ ≠ _))

/-- The driver and the device at the grain of their atomic accesses.
Source: `sys/virtio.hpp` `vring`
Kind: D -/
def notifySystem : System NotifyState NotifyOp := ⟨NotifyLegal, notificationStep⟩

instance (s : NotifyState) (op : NotifyOp) : Decidable (notifySystem.legal s op) :=
  inferInstanceAs (Decidable (NotifyLegal s op))

/-! ## What should hold -/

/-- An interrupt is pending: it was raised and not taken, or the device is between its publication
and its look at `used_event`, which lies in the window.
Source: none: infrastructure
Kind: D -/
def NotifyState.InterruptPending (s : NotifyState) : Prop :=
  s.interrupt = true ∨
    ∃ old, s.announcing = some old ∧ Crossed half s.ring.usedEvent s.ring.usedIdx old

/-- Outside the add functions the device does not sleep on a chain unless a kick was issued.
Source: none: infrastructure
Kind: D -/
def NotifyState.Kicked (s : NotifyState) : Prop :=
  s.addPc = .idle → s.device = .asleep → s.seen < s.published → s.kicked = true

/-- Outside the functions for the used ring `used_index` has met the used index, unless an interrupt
is pending.
Source: none: infrastructure
Kind: D -/
def NotifyState.Notified (s : NotifyState) : Prop :=
  s.usedPc = .idle → s.delivered.length = s.completions.length ∨ s.InterruptPending

/-- Outside the functions for the used ring the elements that the device published have been
processed, unless an interrupt is pending.
Source: none: infrastructure
Kind: D -/
def NotifyState.Processed (s : NotifyState) : Prop :=
  s.usedPc = .idle → s.delivered = s.completions ∨ s.InterruptPending

/-- The steps that the code handles: a used element is read when fewer than `qsize_` were processed
before.
Source: `sys/virtio.hpp` `vring::process_used_buffers`
Kind: D -/
def FirstReads (s : NotifyState) (op : NotifyOp) : Prop :=
  op = .runUsed → s.usedPc.fetches = true → s.delivered.length < s.ring.qsize

instance (s : NotifyState) (op : NotifyOp) : Decidable (FirstReads s op) :=
  inferInstanceAs (Decidable (_ → _ → _))

/-! ## The indices under the operations on descriptors -/

/-- The used ring, the indices and the event indices are the same.
Source: none: infrastructure
Kind: D -/
structure SameIndices (r r' : Vring) : Prop extends SameUsed r r' where
  availIdx : r'.availIdx = r.availIdx
  availEvent : r'.availEvent = r.availEvent

/-- Two operations. Source: none: infrastructure. Kind: L -/
theorem SameIndices.trans {r r' r'' : Vring} (h : SameIndices r r') (h' : SameIndices r' r'') :
    SameIndices r r'' where
  toSameUsed := h.toSameUsed.trans h'.toSameUsed
  availIdx := h'.availIdx.trans h.availIdx
  availEvent := h'.availEvent.trans h.availEvent

/-- Writing descriptors. Source: `sys/virtio.hpp` `vring::add_writable_buffers`. Kind: L -/
theorem sameIndices_writeDescs (writable : Bool) (bufs : List Buf) (r : Vring) (last : ℕ) :
    SameIndices r (writeDescs writable bufs (r, last)).1 := by
  refine ⟨sameUsed_writeDescs writable bufs r last, ?_, ?_⟩
  · induction bufs generalizing r last with
    | nil => rfl
    | cons b bufs ih =>
        unfold writeDescs
        exact ih _ _
  · induction bufs generalizing r last with
    | nil => rfl
    | cons b bufs ih =>
        unfold writeDescs
        exact ih _ _

/-- Adding a chain and putting it into the avail ring.
Source: `sys/virtio.hpp` `vring::add_writable_buffers`
Kind: L -/
theorem sameIndices_setAvail (writable : Bool) (bufs : List Buf) (r : Vring) (availIdx head : ℕ) :
    SameIndices r ((addChain writable bufs r).1.setAvail availIdx head) := by
  have h := sameIndices_writeDescs writable bufs { r with freeCount := r.freeCount - bufs.length }
    r.freeHead
  exact ⟨⟨h.ring, h.idx, h.event, h.qsize⟩, h.availIdx, h.availEvent⟩

/-- Adding a batch. Source: `sys/virtio.hpp` `vring::add_writable_buffers`. Kind: L -/
theorem sameIndices_addLists (lists : List (List Buf)) (r : Vring) (availIdx : ℕ) :
    SameIndices r (addLists lists r availIdx).1 := by
  induction lists generalizing r availIdx with
  | nil => exact ⟨⟨rfl, rfl, rfl, rfl⟩, rfl, rfl⟩
  | cons bufs rest ih =>
      unfold addLists
      split
      · exact ih r availIdx
      · split
        · exact ⟨⟨rfl, rfl, rfl, rfl⟩, rfl, rfl⟩
        · exact (sameIndices_setAvail true bufs r _ _).trans (ih _ _)

/-- The index that the batch reaches. Source: `sys/virtio.hpp` `vring::add_writable_buffers`. Kind: L -/
theorem addLists_index (lists : List (List Buf)) (r : Vring) (n : ℕ) :
    (addLists lists r (n % half)).2.1
      = (n + (addLists lists r (n % half)).2.2.1.length) % half := by
  induction lists generalizing r n with
  | nil => rfl
  | cons bufs rest ih =>
      unfold addLists
      split
      · exact ih r n
      · split
        · rfl
        · have hnext : (n % half + 1) % half = (n + 1) % half := by
            unfold half
            omega
          simp only [hnext]
          rw [ih]
          simp only [List.length_cons]
          congr 1
          omega

/-- Recycling a chain. Source: `sys/virtio.hpp` `vring::process_used_buffers`. Kind: L -/
theorem sameIndices_recycleUsed {r r' : Vring} {clean : Bool} {id : ℕ}
    (h : (if clean then r.cleanUsed id else (r.processUsed id).map Prod.fst) = some r') :
    SameIndices r r' := by
  cases clean with
  | true =>
      simp only [if_true, cleanUsed, Option.map_eq_some_iff] at h
      obtain ⟨c, _, rfl⟩ := h
      exact ⟨⟨rfl, rfl, rfl, rfl⟩, rfl, rfl⟩
  | false =>
      simp only [Bool.false_eq_true, if_false, processUsed, Option.map_map, Option.map_eq_some_iff] at h
      obtain ⟨c, _, rfl⟩ := h
      exact ⟨⟨rfl, rfl, rfl, rfl⟩, rfl, rfl⟩

/-- Storing the references. Source: `sys/virtio.hpp` `vring::add_readable_buffer`. Kind: L -/
theorem sameIndices_emplaceRefs (r : Vring) (refs : Option (ℕ × List Buf)) :
    SameIndices r (emplaceRefs r refs) := by
  cases refs with
  | none => exact ⟨⟨rfl, rfl, rfl, rfl⟩, rfl, rfl⟩
  | some x => exact ⟨⟨rfl, rfl, rfl, rfl⟩, rfl, rfl⟩

/-! ## The invariant -/

/-- The chains that an add function is about to publish.
Source: `sys/virtio.hpp` `vring::add_writable_buffers`
Kind: D -/
def AddPc.unpublished : AddPc → ℕ
  | .store _ _ added _ => added
  | _ => 0

/-- The counters are in order and at most `qsize_` chains are outstanding.
Source: none: infrastructure
Kind: D -/
structure CountInv (s : NotifyState) : Prop where
  small : s.ring.qsize ≤ 32768
  delivered : s.delivered.length ≤ s.completions.length
  completed : s.completions.length ≤ s.seen
  seen : s.seen ≤ s.published
  outstanding : s.published + s.addPc.unpublished ≤ s.delivered.length + s.ring.qsize

/-- What the add function knows where it is.
Source: `sys/virtio.hpp` `vring::add_writable_buffers`
Kind: D -/
def AddPcInv (s : NotifyState) : Prop :=
  match s.addPc with
  | .idle => True
  | .store orig new added _ =>
      orig = s.published % half ∧ new = (s.published + added) % half
  | .event orig new added _ =>
      ∃ before, before + added = s.published ∧ added ≤ s.ring.qsize ∧ orig = before % half ∧
        new = s.published % half

/-- The kick is due: the index has been stored, and what the device has seen lies in the window.
Source: `sys/virtio.hpp` `vring::add_writable_buffers`
Kind: D -/
def AddPc.KickDue (published seen : ℕ) : AddPc → Prop
  | .event _ _ added _ => published ≤ seen + added
  | _ => False

/-- The driver's publications and the device's rest.
Source: `sys/virtio.hpp` `vring::add_writable_buffers`
Kind: D -/
structure AvailInv (s : NotifyState) : Prop where
  idx : s.ring.availIdx = s.published % half
  pc : AddPcInv s
  event : s.device ≠ .awake → s.ring.availEvent = s.seen % half
  kick : s.device = .asleep → s.seen < s.published →
    s.kicked = true ∨ s.addPc.KickDue s.published s.seen

/-- What the function for the used ring knows where it is.
Source: `sys/virtio.hpp` `vring::process_used_buffers`
Kind: D -/
def UsedPcInv (s : NotifyState) : Prop :=
  match s.usedPc with
  | .idle => s.ring.usedEvent = s.delivered.length % half
  | .check _ i => i = s.delivered.length % half
  | .recheck _ i => i = s.delivered.length % half ∧ s.ring.usedEvent = i
  | .fetch _ i => i = s.delivered.length % half ∧ s.delivered.length < s.completions.length
  | .recycle _ i _ => i = s.delivered.length % half ∧ s.delivered.length < s.completions.length

/-- The device's publications and the driver's rest.
Source: `sys/virtio.hpp` `vring::process_used_buffers`
Kind: D -/
structure ServedInv (s : NotifyState) : Prop where
  idx : s.ring.usedIdx = s.completions.length % half
  pc : UsedPcInv s
  served : s.usedPc = .idle → s.delivered.length = s.completions.length ∨ s.interrupt = true ∨
    ∃ before, s.announcing = some (before % half) ∧ before ≤ s.delivered.length ∧
      s.delivered.length < s.completions.length ∧ s.completions.length ≤ before + s.ring.qsize

/-- Source: none: infrastructure
Kind: D -/
structure NotifyInv (s : NotifyState) : Prop where
  count : CountInv s
  avail : AvailInv s
  used : ServedInv s

section Steps

variable {s s' : NotifyState}

/-- After the constructor. Source: `sys/virtio.hpp` `vring::vring`. Kind: L -/
theorem notifyInv_init {qsize : ℕ} (hq : qsize ≤ 32768) (beyond : ℕ → UsedElem) :
    NotifyInv (NotifyState.init qsize beyond) where
  count := ⟨hq, le_rfl, le_rfl, le_rfl, Nat.zero_le _⟩
  avail := ⟨rfl, trivial, fun h => (h rfl).elim, fun h => by cases h⟩
  used := ⟨rfl, rfl, fun _ => Or.inl rfl⟩

/-- Indices of the avail ring less than `2 ^ 16` apart are told apart.
Source: none: infrastructure
Kind: L -/
theorem NotifyInv.seen_eq (h : NotifyInv s) (heq : s.ring.availIdx = s.seen % half) :
    s.seen = s.published := by
  obtain ⟨hsmall, hdel, hcomp, hseen, hout⟩ := h.count
  apply eq_of_mod_eq hseen _ (by rw [← heq, h.avail.idx])
  unfold half
  omega

/-- Indices of the used ring less than `2 ^ 16` apart are told apart.
Source: none: infrastructure
Kind: L -/
theorem NotifyInv.delivered_eq (h : NotifyInv s)
    (heq : s.delivered.length % half = s.ring.usedIdx) :
    s.delivered.length = s.completions.length := by
  obtain ⟨hsmall, hdel, hcomp, hseen, hout⟩ := h.count
  apply eq_of_mod_eq hdel _ (by rw [heq, h.used.idx])
  unfold half
  omega

/-- A step that leaves the driver's side of the avail ring and the device's rest alone.
Source: none: infrastructure
Kind: L -/
theorem AvailInv.congr (h : AvailInv s) (hring : s'.ring.availIdx = s.ring.availIdx)
    (hevent : s'.ring.availEvent = s.ring.availEvent) (hq : s'.ring.qsize = s.ring.qsize)
    (hpub : s'.published = s.published) (hseen : s'.seen = s.seen) (hdev : s'.device = s.device)
    (hkick : s'.kicked = s.kicked) (hpc : s'.addPc = s.addPc) : AvailInv s' where
  idx := by rw [hring, hpub, h.idx]
  pc := by
    have := h.pc
    unfold AddPcInv at this ⊢
    rw [hpc, hpub, hq]
    exact this
  event := by
    rw [hdev, hevent, hseen]
    exact h.event
  kick := by
    rw [hdev, hseen, hpub, hkick, hpc]
    exact h.kick

/-- A step that leaves the driver's side of the used ring and the device's publications alone.
Source: none: infrastructure
Kind: L -/
theorem ServedInv.congr (h : ServedInv s) (hring : s'.ring.usedIdx = s.ring.usedIdx)
    (hevent : s'.ring.usedEvent = s.ring.usedEvent) (hq : s'.ring.qsize = s.ring.qsize)
    (hcomp : s'.completions = s.completions) (hdel : s'.delivered = s.delivered)
    (hann : s'.announcing = s.announcing) (hint : s'.interrupt = s.interrupt)
    (hpc : s'.usedPc = s.usedPc) : ServedInv s' where
  idx := by rw [hring, hcomp, h.idx]
  pc := by
    have := h.pc
    unfold UsedPcInv at this ⊢
    rw [hpc, hevent, hcomp, hdel]
    exact this
  served := by
    rw [hpc, hdel, hcomp, hint, hann, hq]
    exact h.served

/-- A change of the descriptors only, with a new place of the add function.
Source: `sys/virtio.hpp` `vring::add_writable_buffers`
Kind: L -/
theorem NotifyInv.beginAdd (h : NotifyInv s) {ring : Vring} {pc : AddPc}
    (hring : SameIndices s.ring ring) (hidle : s.addPc = .idle)
    (hpc : AddPcInv { s with ring := ring, addPc := pc })
    (hout : s.published + pc.unpublished ≤ s.delivered.length + s.ring.qsize) :
    NotifyInv { s with ring := ring, addPc := pc } where
  count := by
    refine ⟨?_, h.count.delivered, h.count.completed, h.count.seen, ?_⟩
    · show ring.qsize ≤ _
      rw [hring.qsize]
      exact h.count.small
    · show s.published + pc.unpublished ≤ s.delivered.length + ring.qsize
      rw [hring.qsize]
      exact hout
  avail := by
    refine ⟨hring.availIdx.trans h.avail.idx, hpc, ?_, ?_⟩
    · intro hdev
      exact hring.availEvent.trans (h.avail.event hdev)
    · intro hdev hlt
      refine (h.avail.kick hdev hlt).imp id fun hdue => ?_
      rw [hidle] at hdue
      exact hdue.elim
  used := h.used.congr hring.idx hring.event hring.qsize rfl rfl rfl rfl rfl

/-- `add_writable_buffers` up to the store. Source: `sys/virtio.hpp` `vring::add_writable_buffers`. Kind: L -/
theorem NotifyInv.addWritableBuffers (h : NotifyInv s) {lists : List (List Buf)}
    (hlegal : NotifyLegal s (.addWritableBuffers lists)) : NotifyInv (beginWritable lists s) := by
  obtain ⟨hidle, hout⟩ := hlegal
  have hsame := sameIndices_addLists lists s.ring s.ring.availIdx
  unfold beginWritable
  split
  · exact h
  · dsimp only
    split
    · have hidx := addLists_index lists s.ring s.published
      rw [← h.avail.idx] at hidx
      have hpc : AddPcInv { s with
          ring := (addLists lists s.ring s.ring.availIdx).1
          addPc := .store s.ring.availIdx (addLists lists s.ring s.ring.availIdx).2.1
            (addLists lists s.ring s.ring.availIdx).2.2.1.length none } :=
        ⟨h.avail.idx, hidx⟩
      exact h.beginAdd hsame hidle hpc hout
    · have hpc : AddPcInv { s with ring := (addLists lists s.ring s.ring.availIdx).1, addPc := s.addPc } := by
        unfold AddPcInv
        rw [hidle]
        trivial
      exact h.beginAdd hsame hidle hpc h.count.outstanding

/-- `add_readable_buffer` up to the store. Source: `sys/virtio.hpp` `vring::add_readable_buffer`. Kind: L -/
theorem NotifyInv.addReadableBuffer (h : NotifyInv s) {bufs : List Buf}
    (hlegal : NotifyLegal s (.addReadableBuffer bufs)) (hstep : beginReadable bufs s = some s') :
    NotifyInv s' := by
  obtain ⟨hidle, hout⟩ := hlegal
  unfold beginReadable at hstep
  split at hstep
  · cases hstep
  · cases hstep
    have hnext : (s.ring.availIdx + 1) % half = (s.published + 1) % half := by
      rw [h.avail.idx]
      unfold half
      omega
    have hpc : AddPcInv { s with
        ring := (addChain false bufs s.ring).1.setAvail s.ring.availIdx (addChain false bufs s.ring).2
        addPc := .store s.ring.availIdx ((s.ring.availIdx + 1) % half) 1
          (some ((addChain false bufs s.ring).2, bufs)) } :=
      ⟨h.avail.idx, hnext⟩
    exact h.beginAdd (sameIndices_setAvail false bufs s.ring _ _) hidle hpc hout

/-- The store of the avail index and the look at `avail_event`. A device that slept on what it had
seen before the store is in the window, so that the kick is issued.
Source: `sys/virtio.hpp` `vring::add_writable_buffers`, `vring::add_readable_buffer`
Kind: L -/
theorem NotifyInv.runAdd (h : NotifyInv s) (hstep : runAddStep s = some s') : NotifyInv s' := by
  have hpc := h.avail.pc
  obtain ⟨hsmall, hdel, hcomp, hseen, hout⟩ := h.count
  unfold runAddStep at hstep
  unfold AddPcInv at hpc
  cases heq : s.addPc with
  | idle =>
      rw [heq] at hstep
      cases hstep
  | store orig new added refs =>
      rw [heq] at hstep hpc hout
      cases hstep
      have hout : s.published + added ≤ s.delivered.length + s.ring.qsize := hout
      refine ⟨⟨hsmall, hdel, hcomp, le_add_right hseen, hout⟩, ⟨hpc.2, ?_, h.avail.event, ?_⟩, ?_⟩
      · have hadded : added ≤ s.ring.qsize := by omega
        exact ⟨s.published, rfl, hadded, hpc.1, hpc.2⟩
      · intro hdev hlt
        by_cases hbefore : s.seen < s.published
        · refine (h.avail.kick hdev hbefore).imp id fun hdue => ?_
          rw [heq] at hdue
          exact hdue.elim
        · right
          show s.published + added ≤ s.seen + added
          omega
      · exact h.used.congr rfl rfl rfl rfl rfl rfl rfl rfl
  | event orig new added refs =>
      rw [heq] at hstep hpc hout
      obtain ⟨before, hbefore, hadded, rfl, rfl⟩ := hpc
      have hout : s.published ≤ s.delivered.length + s.ring.qsize := hout
      have hsame := sameIndices_emplaceRefs { s.ring with kicks := s.ring.kicks + 1 } refs
      have hsame' := sameIndices_emplaceRefs s.ring refs
      dsimp only at hstep
      split at hstep
      · cases hstep
        refine ⟨⟨hsame.qsize.trans_le hsmall, hdel, hcomp, hseen, ?_⟩,
          ⟨hsame.availIdx.trans h.avail.idx, trivial, fun hdev => ?_, fun _ _ => Or.inl rfl⟩,
          h.used.congr hsame.idx hsame.event hsame.qsize rfl rfl rfl rfl rfl⟩
        · show s.published ≤ s.delivered.length + (emplaceRefs _ refs).qsize
          rw [hsame.qsize]
          exact hout
        · exact hsame.availEvent.trans (h.avail.event hdev)
      · next hcross =>
        cases hstep
        refine ⟨⟨hsame'.qsize.trans_le hsmall, hdel, hcomp, hseen, ?_⟩,
          ⟨hsame'.availIdx.trans h.avail.idx, trivial, fun hdev => ?_, fun hdev hlt => ?_⟩,
          h.used.congr hsame'.idx hsame'.event hsame'.qsize rfl rfl rfl rfl rfl⟩
        · show s.published ≤ s.delivered.length + (emplaceRefs _ refs).qsize
          rw [hsame'.qsize]
          exact hout
        · exact hsame'.availEvent.trans (h.avail.event hdev)
        · refine (h.avail.kick hdev hlt).imp id fun hdue => ?_
          rw [heq] at hdue
          have hdue : s.published ≤ s.seen + added := hdue
          have hlt : s.seen < s.published := hlt
          refine (hcross ?_).elim
          have hdev : s.device = .asleep := hdev
          rw [h.avail.event (by rw [hdev]; exact Device.noConfusion)]
          apply crossed_of_mem (by omega) hlt
          unfold half
          omega

/-- A call of one of the functions for the used ring; an interrupt that made it is taken.
Source: `sys/virtio.hpp` `vring::process_used_buffers`, `vring::clean_used_buffers`
Kind: L -/
theorem NotifyInv.call (h : NotifyInv s) (hidle : s.usedPc = .idle) (clean interrupt : Bool) :
    NotifyInv { s with usedPc := .check clean s.ring.usedEvent, interrupt := interrupt } where
  count := ⟨h.count.small, h.count.delivered, h.count.completed, h.count.seen, h.count.outstanding⟩
  avail := h.avail.congr rfl rfl rfl rfl rfl rfl rfl rfl
  used := by
    have hpc := h.used.pc
    unfold UsedPcInv at hpc
    rw [hidle] at hpc
    exact ⟨h.used.idx, hpc, fun hnot => by cases hnot⟩

/-- A step of the loop that only moves on. Source: `sys/virtio.hpp` `vring::process_used_buffers`. Kind: L -/
theorem NotifyInv.goto (h : NotifyInv s) {pc : Pc} (hpc : UsedPcInv { s with usedPc := pc })
    (hserved : pc = .idle → s.delivered.length = s.completions.length) :
    NotifyInv { s with usedPc := pc } where
  count := ⟨h.count.small, h.count.delivered, h.count.completed, h.count.seen, h.count.outstanding⟩
  avail := h.avail.congr rfl rfl rfl rfl rfl rfl rfl rfl
  used := ⟨h.used.idx, hpc, fun hidle => Or.inl (hserved hidle)⟩

/-- The loop over the used ring. It returns when the index that it has stored in `used_event` is
still the used index.
Source: `sys/virtio.hpp` `vring::process_used_buffers`, `vring::clean_used_buffers`
Kind: L -/
theorem NotifyInv.runUsed (h : NotifyInv s) (hstep : runUsedStep s = some s') : NotifyInv s' := by
  have hpc := h.used.pc
  have hdel := h.count.delivered
  unfold runUsedStep at hstep
  unfold UsedPcInv at hpc
  cases heq : s.usedPc with
  | idle =>
      rw [heq] at hstep
      cases hstep
  | check clean i =>
      rw [heq] at hstep hpc
      subst hpc
      dsimp only at hstep
      split at hstep
      · cases hstep
        exact ⟨⟨h.count.small, hdel, h.count.completed, h.count.seen, h.count.outstanding⟩,
          h.avail.congr rfl rfl rfl rfl rfl rfl rfl rfl,
          ⟨h.used.idx, ⟨rfl, rfl⟩, fun hidle => by cases hidle⟩⟩
      · next hne =>
        cases hstep
        refine h.goto ⟨rfl, lt_of_le_of_ne hdel fun heq => hne ?_⟩ fun hidle => by cases hidle
        rw [h.used.idx, heq]
  | recheck clean i =>
      rw [heq] at hstep hpc
      obtain ⟨rfl, hevent⟩ := hpc
      dsimp only at hstep
      split at hstep
      · next hidx =>
        cases hstep
        exact h.goto hevent fun _ => h.delivered_eq hidx
      · next hne =>
        cases hstep
        refine h.goto ⟨rfl, lt_of_le_of_ne hdel fun heq => hne ?_⟩ fun hidle => by cases hidle
        rw [h.used.idx, heq]
  | fetch clean i =>
      rw [heq] at hstep hpc
      cases hstep
      exact h.goto hpc fun hidle => by cases hidle
  | recycle clean i elem =>
      rw [heq] at hstep hpc
      obtain ⟨rfl, hlt⟩ := hpc
      obtain ⟨r, hr, rfl⟩ := Option.map_eq_some_iff.mp hstep
      have hsame := sameIndices_recycleUsed hr
      have hlen : (s.delivered ++ [elem]).length = s.delivered.length + 1 := List.length_append
      have hq : r.qsize = s.ring.qsize := hsame.qsize
      have hout := h.count.outstanding
      refine ⟨⟨hq.trans_le h.count.small, ?_, h.count.completed, h.count.seen, ?_⟩,
        h.avail.congr hsame.availIdx hsame.availEvent hq rfl rfl rfl rfl rfl,
        ⟨hsame.idx.trans h.used.idx, ?_, fun hidle => by cases hidle⟩⟩
      · show (s.delivered ++ [elem]).length ≤ _
        rw [hlen]
        exact hlt
      · show s.published + s.addPc.unpublished ≤ (s.delivered ++ [elem]).length + r.qsize
        rw [hlen, hq]
        omega
      · show (s.delivered.length % half + 1) % half = (s.delivered ++ [elem]).length % half
        rw [hlen]
        unfold half
        omega

/-- The device takes a chain, if it sees one. Source: none: infrastructure. Kind: L -/
theorem NotifyInv.take (h : NotifyInv s) (hawake : s.device = .awake) :
    NotifyInv (if s.ring.availIdx = s.seen % half then s else { s with seen := s.seen + 1 }) := by
  split
  · exact h
  · next hne =>
    have hlt : s.seen < s.published := by
      apply lt_of_le_of_ne h.count.seen
      intro heq
      rw [h.avail.idx, heq] at hne
      exact hne rfl
    refine ⟨⟨h.count.small, h.count.delivered, h.count.completed.trans (Nat.le_succ _), hlt,
      h.count.outstanding⟩, ⟨h.avail.idx, h.avail.pc, ?_, ?_⟩,
      h.used.congr rfl rfl rfl rfl rfl rfl rfl rfl⟩
    · exact fun hnot => (hnot hawake).elim
    · intro hasleep
      have hasleep : s.device = .asleep := hasleep
      rw [hawake] at hasleep
      cases hasleep

/-- The device stores `avail_event`. Source: none: infrastructure. Kind: L -/
theorem NotifyInv.arm (h : NotifyInv s) :
    NotifyInv { s with
      ring := { s.ring with availEvent := s.seen % half }
      device := .armed } where
  count := ⟨h.count.small, h.count.delivered, h.count.completed, h.count.seen, h.count.outstanding⟩
  avail := ⟨h.avail.idx, h.avail.pc, fun _ => rfl, fun hasleep => by cases hasleep⟩
  used := h.used.congr rfl rfl rfl rfl rfl rfl rfl rfl

/-- The device looks again; it sleeps only when it has seen everything.
Source: none: infrastructure
Kind: L -/
theorem NotifyInv.lookAgain (h : NotifyInv s) (harmed : s.device = .armed) :
    NotifyInv { s with
      device := if s.ring.availIdx = s.seen % half then .asleep else .awake } where
  count := ⟨h.count.small, h.count.delivered, h.count.completed, h.count.seen, h.count.outstanding⟩
  avail := by
    refine ⟨h.avail.idx, h.avail.pc, fun _ => ?_, fun hasleep hlt => ?_⟩
    · exact h.avail.event (by rw [harmed]; exact Device.noConfusion)
    · have hlt : s.seen < s.published := hlt
      have heq : s.ring.availIdx = s.seen % half := by
        by_contra hne
        have hasleep : (if s.ring.availIdx = s.seen % half then Device.asleep else .awake) = .asleep :=
          hasleep
        rw [if_neg hne] at hasleep
        cases hasleep
      have := h.seen_eq heq
      omega
  used := h.used.congr rfl rfl rfl rfl rfl rfl rfl rfl

/-- The device notices a kick, or wakes up by itself. Source: none: infrastructure. Kind: L -/
theorem NotifyInv.wake (h : NotifyInv s) :
    NotifyInv { s with
      kicked := false
      device := if s.device = .asleep then .awake else s.device } where
  count := ⟨h.count.small, h.count.delivered, h.count.completed, h.count.seen, h.count.outstanding⟩
  avail := by
    have hawake : (if s.device = .asleep then Device.awake else s.device) ≠ .asleep := by
      split
      · exact Device.noConfusion
      · assumption
    refine ⟨h.avail.idx, h.avail.pc, fun hdev => h.avail.event fun heq => hdev ?_,
      fun hasleep => (hawake hasleep).elim⟩
    show (if s.device = .asleep then Device.awake else s.device) = .awake
    rw [heq]
    rfl
  used := h.used.congr rfl rfl rfl rfl rfl rfl rfl rfl

/-- The used index after a publication. Source: `sys/virtio.hpp` `vring::used`. Kind: L -/
theorem usedIdx_foldl (elems : List UsedElem) (r : Vring) (n : ℕ) (h : r.usedIdx = n % half) :
    (elems.foldl Vring.complete r).usedIdx = (n + elems.length) % half := by
  induction elems generalizing r n with
  | nil => exact h
  | cons e elems ih =>
      have hnext : (r.complete e).usedIdx = (n + 1) % half := by
        unfold Vring.complete
        show (r.usedIdx + 1) % half = _
        rw [h]
        unfold half
        omega
      rw [List.foldl_cons, ih _ _ hnext, List.length_cons]
      congr 1
      omega

/-- A publication changes the used ring and its index only. Source: `sys/virtio.hpp` `vring::used`. Kind: L -/
theorem foldl_complete_same (elems : List UsedElem) (r : Vring) :
    (elems.foldl Vring.complete r).availIdx = r.availIdx ∧
      (elems.foldl Vring.complete r).availEvent = r.availEvent ∧
      (elems.foldl Vring.complete r).qsize = r.qsize ∧
      (elems.foldl Vring.complete r).usedEvent = r.usedEvent := by
  induction elems generalizing r with
  | nil => exact ⟨rfl, rfl, rfl, rfl⟩
  | cons e elems ih => exact ih (r.complete e)

/-- The device publishes used elements. A driver that rests has `used_event` at the used index from
before, so that it lies in the window.
Source: none: infrastructure
Kind: L -/
theorem NotifyInv.complete (h : NotifyInv s) {elems : List UsedElem}
    (hlegal : NotifyLegal s (.complete elems)) : NotifyInv (completeAll elems s) := by
  obtain ⟨hnone, hne, htaken⟩ := hlegal
  obtain ⟨hsmall, hdel, hcomp, hseen, hout⟩ := h.count
  have hpos := List.length_pos_iff.mpr hne
  have hlen : (s.completions ++ elems).length = s.completions.length + elems.length :=
    List.length_append
  have hidx := usedIdx_foldl elems s.ring _ h.used.idx
  rw [← hlen] at hidx
  obtain ⟨havail, hevent, hq, hused⟩ := foldl_complete_same elems s.ring
  refine ⟨⟨hq.trans_le hsmall, ?_, ?_, hseen, ?_⟩,
    h.avail.congr havail hevent hq rfl rfl rfl rfl rfl, ⟨hidx, ?_, ?_⟩⟩
  · show s.delivered.length ≤ (s.completions ++ elems).length
    omega
  · show (s.completions ++ elems).length ≤ s.seen
    omega
  · show s.published + s.addPc.unpublished ≤ s.delivered.length + _
    rw [show (completeAll elems s).ring.qsize = s.ring.qsize from hq]
    exact hout
  · have hpc := h.used.pc
    unfold UsedPcInv at hpc ⊢
    show match s.usedPc with
      | .idle => (elems.foldl Vring.complete s.ring).usedEvent = s.delivered.length % half
      | .check _ i => i = s.delivered.length % half
      | .recheck _ i => i = s.delivered.length % half ∧
          (elems.foldl Vring.complete s.ring).usedEvent = i
      | .fetch _ i => i = s.delivered.length % half ∧
          s.delivered.length < (s.completions ++ elems).length
      | .recycle _ i _ => i = s.delivered.length % half ∧
          s.delivered.length < (s.completions ++ elems).length
    rw [hused, hlen]
    cases heq : s.usedPc with
    | idle =>
        rw [heq] at hpc
        exact hpc
    | check clean i =>
        rw [heq] at hpc
        exact hpc
    | recheck clean i =>
        rw [heq] at hpc
        exact hpc
    | fetch clean i =>
        rw [heq] at hpc
        exact ⟨hpc.1, by have := hpc.2; omega⟩
    | recycle clean i elem =>
        rw [heq] at hpc
        exact ⟨hpc.1, by have := hpc.2; omega⟩
  · intro hidle
    right
    rcases h.used.served hidle with heq | hint | ⟨before, hann, _⟩
    · right
      refine ⟨s.completions.length, ?_, heq.ge, ?_, ?_⟩
      · show some s.ring.usedIdx = _
        rw [h.used.idx]
      · show s.delivered.length < (s.completions ++ elems).length
        omega
      · show (s.completions ++ elems).length ≤ _ + (completeAll elems s).ring.qsize
        rw [show (completeAll elems s).ring.qsize = s.ring.qsize from hq]
        omega
    · exact Or.inl hint
    · rw [hnone] at hann
      cases hann

/-- The device looks at `used_event`. Source: none: infrastructure. Kind: L -/
theorem NotifyInv.notify (h : NotifyInv s) : NotifyInv (notifyStep s) := by
  unfold notifyStep
  cases hann : s.announcing with
  | none => exact h
  | some old =>
      refine ⟨⟨h.count.small, h.count.delivered, h.count.completed, h.count.seen,
        h.count.outstanding⟩, h.avail.congr rfl rfl rfl rfl rfl rfl rfl rfl, ⟨h.used.idx, h.used.pc, ?_⟩⟩
      intro hidle
      have hpc := h.used.pc
      unfold UsedPcInv at hpc
      rw [show s.usedPc = .idle from hidle] at hpc
      rcases h.used.served hidle with heq | hint | ⟨before, hbefore, hle, hlt, hwin⟩
      · exact Or.inl heq
      · right
        left
        show (s.interrupt || _) = true
        rw [hint, Bool.true_or]
      · right
        left
        rw [hann] at hbefore
        cases hbefore
        have hcross : Crossed half s.ring.usedEvent s.ring.usedIdx (before % half) := by
          rw [hpc, h.used.idx]
          apply crossed_of_mem hle hlt
          have := h.count.small
          unfold half
          omega
        show (s.interrupt || decide _) = true
        rw [decide_eq_true hcross, Bool.or_true]

/-- **Every step keeps the invariant.** Source: `sys/virtio.hpp` `vring`. Kind: P -/
theorem NotifyInv.step (h : NotifyInv s) {op : NotifyOp} (hlegal : NotifyLegal s op)
    (hstep : notificationStep s op = some s') : NotifyInv s' := by
  cases op with
  | addWritableBuffers lists =>
      cases hstep
      exact h.addWritableBuffers hlegal
  | addReadableBuffer bufs => exact h.addReadableBuffer hlegal hstep
  | runAdd => exact h.runAdd hstep
  | call clean =>
      cases hstep
      exact h.call hlegal clean s.interrupt
  | takeInterrupt clean =>
      cases hstep
      exact h.call hlegal.1 clean false
  | runUsed => exact h.runUsed hstep
  | take =>
      cases hstep
      exact h.take hlegal
  | arm =>
      cases hstep
      exact h.arm
  | lookAgain =>
      cases hstep
      exact h.lookAgain hlegal
  | wake =>
      cases hstep
      exact h.wake
  | complete elems =>
      cases hstep
      exact h.complete hlegal
  | notify =>
      cases hstep
      exact h.notify

/-! ## The elements of the first round -/

/-- What the driver processed is what the device published, and what it has not processed is in the
slots; at most `qsize_` elements were processed.
Source: `sys/virtio.hpp` `vring::process_used_buffers`
Kind: D -/
structure RoundInv (s : NotifyState) : Prop where
  round : s.delivered.length ≤ s.ring.qsize
  inOrder : s.delivered <+: s.completions
  slots : ∀ m e, s.delivered.length ≤ m → s.completions[m]? = some e →
    s.ring.usedRing (m % s.ring.qsize) = e
  pc : ∀ clean i elem, s.usedPc = .recycle clean i elem →
    s.completions[s.delivered.length]? = some elem ∧ s.delivered.length < s.ring.qsize

/-- A step that leaves the elements alone. Source: none: infrastructure. Kind: L -/
theorem RoundInv.congr (h : RoundInv s) (hring : s'.ring.usedRing = s.ring.usedRing)
    (hq : s'.ring.qsize = s.ring.qsize) (hcomp : s'.completions = s.completions)
    (hdel : s'.delivered = s.delivered)
    (hpc : ∀ clean i elem, s'.usedPc = .recycle clean i elem →
      s.usedPc = .recycle clean i elem) : RoundInv s' where
  round := by
    rw [hdel, hq]
    exact h.round
  inOrder := by
    rw [hdel, hcomp]
    exact h.inOrder
  slots := by
    rw [hdel, hcomp, hring, hq]
    exact h.slots
  pc clean i elem heq := by
    rw [hcomp, hdel, hq]
    exact h.pc clean i elem (hpc clean i elem heq)

/-- A publication fills the slots of its elements and no slot that is still to be processed.
Source: `sys/virtio.hpp` `vring::used`
Kind: L -/
theorem slots_foldl {q n : ℕ} (elems completions : List UsedElem) (r : Vring) (hq : r.qsize = q)
    (hidx : r.usedIdx = completions.length % half)
    (hroom : completions.length + elems.length ≤ n + q)
    (hhalf : completions.length + elems.length ≤ half) (hn : n ≤ completions.length)
    (hslots : ∀ m e, n ≤ m → completions[m]? = some e → r.usedRing (m % q) = e) :
    ∀ m e, n ≤ m → (completions ++ elems)[m]? = some e →
      (elems.foldl Vring.complete r).usedRing (m % q) = e := by
  induction elems generalizing completions r with
  | nil =>
      rw [List.append_nil]
      exact hslots
  | cons a elems ih =>
      rw [List.length_cons] at hroom hhalf
      have hlen : (completions ++ [a]).length = completions.length + 1 := List.length_append
      have hslot : r.usedIdx % r.qsize = completions.length % q := by
        rw [hidx, hq, Nat.mod_eq_of_lt (show completions.length < half by omega)]
      have hnext : (r.complete a).usedIdx = (completions ++ [a]).length % half := by
        show (r.usedIdx + 1) % half = _
        rw [hidx, hlen]
        unfold half
        omega
      have hafter : ∀ m e, n ≤ m → (completions ++ [a])[m]? = some e →
          (r.complete a).usedRing (m % q) = e := by
        intro m e hm he
        show Function.update r.usedRing (r.usedIdx % r.qsize) a (m % q) = e
        rw [hslot]
        by_cases hlast : m = completions.length
        · subst hlast
          rw [Function.update_self]
          rw [List.getElem?_append_right le_rfl, Nat.sub_self] at he
          cases he
          rfl
        · have hlt : m < completions.length := by
            have := (List.getElem?_eq_some_iff.mp he).1
            omega
          have hne : m % q ≠ completions.length % q := by
            intro heq
            exact hlast (eq_of_mod_eq hlt.le (by omega) heq)
          rw [Function.update_of_ne hne]
          rw [List.getElem?_append_left hlt] at he
          exact hslots m e hm he
      have h := ih (completions ++ [a]) (r.complete a) hq hnext (by omega) (by omega) (by omega) hafter
      rw [List.append_assoc] at h
      exact h

/-- The loop over the used ring, in the first round. Source: `sys/virtio.hpp` `vring::process_used_buffers`.
Kind: L -/
theorem RoundInv.runUsed (h : RoundInv s) (hinv : NotifyInv s) (hok : FirstReads s .runUsed)
    (hstep : runUsedStep s = some s') : RoundInv s' := by
  have hpc := hinv.used.pc
  unfold runUsedStep at hstep
  unfold UsedPcInv at hpc
  cases heq : s.usedPc with
  | idle =>
      rw [heq] at hstep
      cases hstep
  | check clean i =>
      rw [heq] at hstep
      dsimp only at hstep
      split at hstep
      · cases hstep
        exact h.congr rfl rfl rfl rfl fun _ _ _ hnot => by cases hnot
      · cases hstep
        exact h.congr rfl rfl rfl rfl fun _ _ _ hnot => by cases hnot
  | recheck clean i =>
      rw [heq] at hstep
      dsimp only at hstep
      split at hstep
      · cases hstep
        exact h.congr rfl rfl rfl rfl fun _ _ _ hnot => by cases hnot
      · cases hstep
        exact h.congr rfl rfl rfl rfl fun _ _ _ hnot => by cases hnot
  | fetch clean i =>
      rw [heq] at hstep hpc
      cases hstep
      obtain ⟨rfl, hlt⟩ := hpc
      have hround : s.delivered.length < s.ring.qsize := hok rfl (by rw [heq]; rfl)
      have hsmall := hinv.count.small
      have hi : s.delivered.length % half = s.delivered.length % s.ring.qsize := by
        rw [Nat.mod_eq_of_lt hround]
        unfold half
        omega
      refine ⟨h.round, h.inOrder, h.slots, ?_⟩
      rintro clean' i' elem heq'
      cases heq'
      refine ⟨?_, hround⟩
      show s.completions[s.delivered.length]? = _
      rw [hi, h.slots _ _ le_rfl (List.getElem?_eq_getElem hlt)]
      exact List.getElem?_eq_getElem hlt
  | recycle clean i elem =>
      rw [heq] at hstep
      obtain ⟨r, hr, rfl⟩ := Option.map_eq_some_iff.mp hstep
      have hsame := sameIndices_recycleUsed hr
      obtain ⟨helem, hround⟩ := h.pc clean i elem heq
      have hlen : (s.delivered ++ [elem]).length = s.delivered.length + 1 := List.length_append
      refine ⟨?_, ?_, ?_, fun _ _ _ hnot => by cases hnot⟩
      · show (s.delivered ++ [elem]).length ≤ r.qsize
        rw [hlen, hsame.qsize]
        exact hround
      · obtain ⟨rest, hrest⟩ := h.inOrder
        show s.delivered ++ [elem] <+: s.completions
        rw [← hrest] at helem ⊢
        rw [List.getElem?_append_right le_rfl, Nat.sub_self] at helem
        cases rest with
        | nil => cases helem
        | cons e rest =>
            cases helem
            exact ⟨rest, by simp⟩
      · intro m e hm he
        show r.usedRing (m % r.qsize) = e
        rw [hsame.ring, hsame.qsize]
        have hm : (s.delivered ++ [elem]).length ≤ m := hm
        exact h.slots m e (by omega) he

/-- The device publishes used elements, in the first round. Source: none: infrastructure. Kind: L -/
theorem RoundInv.complete (h : RoundInv s) (hinv : NotifyInv s) {elems : List UsedElem}
    (hlegal : NotifyLegal s (.complete elems)) : RoundInv (completeAll elems s) := by
  obtain ⟨_, _, htaken⟩ := hlegal
  obtain ⟨hsmall, hdel, hcomp, hseen, hout⟩ := hinv.count
  obtain ⟨_, _, hq, _⟩ := foldl_complete_same elems s.ring
  have hround := h.round
  refine ⟨?_, h.inOrder.trans (List.prefix_append _ _), ?_, ?_⟩
  · show s.delivered.length ≤ (elems.foldl Vring.complete s.ring).qsize
    rw [hq]
    exact hround
  · show ∀ m e, s.delivered.length ≤ m → (s.completions ++ elems)[m]? = some e →
      (elems.foldl Vring.complete s.ring).usedRing
        (m % (elems.foldl Vring.complete s.ring).qsize) = e
    rw [hq]
    exact slots_foldl elems s.completions s.ring rfl hinv.used.idx (by omega)
      (by unfold half; omega) hdel h.slots
  · intro clean i elem heq
    obtain ⟨helem, hlt⟩ := h.pc clean i elem heq
    refine ⟨?_, ?_⟩
    · show (s.completions ++ elems)[s.delivered.length]? = some elem
      rw [List.getElem?_append_left (List.getElem?_eq_some_iff.mp helem).1]
      exact helem
    · show s.delivered.length < (elems.foldl Vring.complete s.ring).qsize
      rw [hq]
      exact hlt

/-- Every step of the first round keeps the elements in order.
Source: `sys/virtio.hpp` `vring`
Kind: P -/
theorem RoundInv.step (h : RoundInv s) (hinv : NotifyInv s) {op : NotifyOp}
    (hlegal : NotifyLegal s op) (hok : FirstReads s op) (hstep : notificationStep s op = some s') :
    RoundInv s' := by
  cases op with
  | addWritableBuffers lists =>
      have hsame := sameIndices_addLists lists s.ring s.ring.availIdx
      cases hstep
      unfold beginWritable
      split
      · exact h
      · dsimp only
        split
        · exact h.congr hsame.ring hsame.qsize rfl rfl fun _ _ _ heq => heq
        · exact h.congr hsame.ring hsame.qsize rfl rfl fun _ _ _ heq => heq
  | addReadableBuffer bufs =>
      unfold notificationStep beginReadable at hstep
      dsimp only at hstep
      split at hstep
      · cases hstep
      · cases hstep
        have hsame := sameIndices_setAvail false bufs s.ring s.ring.availIdx
          (addChain false bufs s.ring).2
        exact h.congr hsame.ring hsame.qsize rfl rfl fun _ _ _ heq => heq
  | runAdd =>
      unfold notificationStep runAddStep at hstep
      dsimp only at hstep
      cases hpc : s.addPc with
      | idle =>
          rw [hpc] at hstep
          cases hstep
      | store orig new added refs =>
          rw [hpc] at hstep
          cases hstep
          exact h.congr rfl rfl rfl rfl fun _ _ _ heq => heq
      | event orig new added refs =>
          rw [hpc] at hstep
          dsimp only at hstep
          split at hstep
          · cases hstep
            have hsame := sameIndices_emplaceRefs { s.ring with kicks := s.ring.kicks + 1 } refs
            exact h.congr hsame.ring hsame.qsize rfl rfl fun _ _ _ heq => heq
          · cases hstep
            have hsame := sameIndices_emplaceRefs s.ring refs
            exact h.congr hsame.ring hsame.qsize rfl rfl fun _ _ _ heq => heq
  | call clean =>
      cases hstep
      exact h.congr rfl rfl rfl rfl fun _ _ _ hnot => by cases hnot
  | takeInterrupt clean =>
      cases hstep
      exact h.congr rfl rfl rfl rfl fun _ _ _ hnot => by cases hnot
  | runUsed => exact h.runUsed hinv hok hstep
  | take =>
      cases hstep
      split
      · exact h
      · exact h.congr rfl rfl rfl rfl fun _ _ _ heq => heq
  | arm =>
      cases hstep
      exact h.congr rfl rfl rfl rfl fun _ _ _ heq => heq
  | lookAgain =>
      cases hstep
      exact h.congr rfl rfl rfl rfl fun _ _ _ heq => heq
  | wake =>
      cases hstep
      exact h.congr rfl rfl rfl rfl fun _ _ _ heq => heq
  | complete elems =>
      cases hstep
      exact h.complete hinv hlegal
  | notify =>
      cases hstep
      unfold notifyStep
      cases s.announcing with
      | none => exact h
      | some old => exact h.congr rfl rfl rfl rfl fun _ _ _ heq => heq

end Steps

/-! ## Runs -/

section Runs

variable {qsize : ℕ} {beyond : ℕ → UsedElem} {ops : List NotifyOp} {s : NotifyState}

/-- Source: `sys/virtio.hpp` `vring`. Kind: P -/
theorem notifyInv_run (hq : qsize ≤ 32768)
    (hrun : notifySystem.Run (NotifyState.init qsize beyond) ops s) : NotifyInv s :=
  hrun.invariant (notifyInv_init hq beyond) fun _ _ _ h hlegal hstep => h.step hlegal hstep

/-- Source: `sys/virtio.hpp` `vring`. Kind: P -/
theorem roundInv_run (hq : qsize ≤ 32768)
    (hrun : (notifySystem.guard FirstReads).Run (NotifyState.init qsize beyond) ops s) :
    NotifyInv s ∧ RoundInv s := by
  refine hrun.invariant (I := fun s => NotifyInv s ∧ RoundInv s) ⟨notifyInv_init hq beyond, ?_⟩ ?_
  · refine ⟨Nat.zero_le _, List.prefix_refl _, ?_, ?_⟩
    · intro m e _ he
      cases he
    · intro _ _ _ hnot
      cases hnot
  · rintro s op s' ⟨hinv, hround⟩ ⟨hlegal, hok⟩ hstep
    exact ⟨hinv.step hlegal hstep, hround.step hinv hlegal hok hstep⟩

/-- Outside the functions for the used ring the indices have met or an interrupt is pending.
Source: `sys/virtio.hpp` `vring::process_used_buffers`
Kind: L -/
theorem NotifyInv.notified (h : NotifyInv s) : s.Notified := by
  intro hidle
  rcases h.used.served hidle with heq | hint | ⟨before, hann, hle, hlt, hwin⟩
  · exact Or.inl heq
  · exact Or.inr (Or.inl hint)
  · refine Or.inr (Or.inr ⟨before % half, hann, ?_⟩)
    have hpc := h.used.pc
    unfold UsedPcInv at hpc
    rw [hidle] at hpc
    rw [hpc, h.used.idx]
    apply crossed_of_mem hle hlt
    have := h.count.small
    unfold half
    omega

/-- Outside the add functions the kick was issued when it was due.
Source: `sys/virtio.hpp` `vring::add_writable_buffers`
Kind: L -/
theorem NotifyInv.kickIssued (h : NotifyInv s) : s.Kicked := by
  intro hidle hasleep hlt
  refine (h.avail.kick hasleep hlt).resolve_right fun hdue => ?_
  rw [hidle] at hdue
  exact hdue

/-- **No notification is lost.** In every run, outside the functions for the used ring `used_index`
has met the used index or an interrupt is pending, and outside the add functions the device does not
sleep on a chain unless a kick was issued. In runs that read the used ring only while fewer than
`qsize_` elements were processed, the elements that were published have been processed or an
interrupt is pending.
Source: `sys/virtio.hpp` `vring`
Kind: C
Fidelity: weaker than the code promises where elements are to be processed: `FirstReads` leaves out reads
past the end of the ring
Hyps: `hq`: queue sizes have 16 bits and are at most 2^15 -/
theorem notification_always (qsize : ℕ) (beyond : ℕ → UsedElem) (hq : qsize ≤ 32768) :
    (∀ ops s, notifySystem.Run (NotifyState.init qsize beyond) ops s → s.Notified ∧ s.Kicked) ∧
      ∀ ops s, (notifySystem.guard FirstReads).Run (NotifyState.init qsize beyond) ops s →
        s.Processed ∧ s.Kicked := by
  constructor
  · intro ops s hrun
    have h := notifyInv_run hq hrun
    exact ⟨h.notified, h.kickIssued⟩
  · intro ops s hrun
    obtain ⟨h, hround⟩ := roundInv_run hq hrun
    refine ⟨fun hidle => (h.notified hidle).imp_left fun hlen => ?_, h.kickIssued⟩
    exact hround.inOrder.eq_of_length hlen

/-- Source: none: infrastructure. Kind: D -/
def oneBuffer : List NotifyOp :=
  [.addReadableBuffer [⟨0x1000, 64⟩], .runAdd, .runAdd, .take]

/-- The calls of the loop that process one element. Source: none: infrastructure. Kind: D -/
def oneElement : List NotifyOp :=
  [.notify, .takeInterrupt true, .runUsed, .runUsed, .runUsed, .runUsed, .runUsed]

/-- A buffer that is sent and cleaned, while the device goes to sleep between.
Source: `sys/virtio.hpp` `vring`
Kind: C -/
theorem notification_always_one :
    ∃ s, (notifySystem.guard FirstReads).Run (NotifyState.init 1 fun _ => ⟨0, 0⟩)
        (oneBuffer ++ [.arm, .lookAgain, .complete [⟨0, 1⟩]] ++ oneElement ++
          [.addReadableBuffer [⟨0x2000, 64⟩], .runAdd, .runAdd]) s ∧ s.Processed ∧ s.Kicked := by
  have hadmits : (notifySystem.guard FirstReads).Admits (NotifyState.init 1 fun _ => ⟨0, 0⟩)
      (oneBuffer ++ ([.arm, .lookAgain, .complete [⟨0, 1⟩]] : List NotifyOp) ++ oneElement ++
        ([.addReadableBuffer [⟨0x2000, 64⟩], .runAdd, .runAdd] : List NotifyOp)) := by
    decide +kernel
  obtain ⟨s, _, hrun⟩ := System.Run.of_admits hadmits
  exact ⟨s, hrun, (notification_always 1 _ (by norm_num)).2 _ s hrun⟩

/-- A ring of one descriptor, used twice: the second element is published in slot 0, the driver
reads the memory behind the ring, and returns with no interrupt pending.
Source: `sys/virtio.hpp` `vring::clean_used_buffers`
Kind: C -/
theorem notification_not_always :
    ¬ ∀ (qsize : ℕ) (beyond : ℕ → UsedElem), qsize ≤ 32768 → ∀ ops s,
      notifySystem.Run (NotifyState.init qsize beyond) ops s → s.Processed ∧ s.Kicked := by
  intro hall
  let ops : List NotifyOp := oneBuffer ++ ([.complete [⟨0, 1⟩]] : List NotifyOp) ++ oneElement ++
    (oneBuffer ++ ([.complete [⟨0, 2⟩]] : List NotifyOp) ++ oneElement)
  have hadmits : notifySystem.Admits (NotifyState.init 1 fun _ => ⟨0, 0⟩) ops := by decide +kernel
  obtain ⟨s, hexec, hrun⟩ := System.Run.of_admits hadmits
  have hend : (notifySystem.exec (NotifyState.init 1 fun _ => ⟨0, 0⟩) ops).map
        (fun s => (s.usedPc, s.delivered, s.completions, s.interrupt, s.announcing))
      = some (.idle, [⟨0, 1⟩, ⟨0, 0⟩], [⟨0, 1⟩, ⟨0, 2⟩], false, none) := by
    decide +kernel
  rw [hexec] at hend
  have hend : (s.usedPc, s.delivered, s.completions, s.interrupt, s.announcing)
      = (Pc.idle, [⟨0, 1⟩, ⟨0, 0⟩], [⟨0, 1⟩, ⟨0, 2⟩], false, none) := Option.some.inj hend
  simp only [Prod.mk.injEq] at hend
  obtain ⟨hidle, hdel, hcomp, hint, hann⟩ := hend
  rcases (hall 1 _ (by norm_num) _ s hrun).1 hidle with heq | hpending | ⟨old, hold, _⟩
  · rw [hdel, hcomp] at heq
    simp at heq
  · rw [hint] at hpending
    cases hpending
  · rw [hann] at hold
    cases hold

end Runs

/-! ## The calls without interleaving -/

/-- The two steps after the descriptors, without interruption, are the publication of the
virtqueue's model.
Source: `sys/virtio.hpp` `vring::add_writable_buffers`
Kind: L -/
theorem runAdd_publish {s : NotifyState} {new added : ℕ} {refs : Option (ℕ × List Buf)}
    (hpc : s.addPc = .store s.ring.availIdx new added refs) :
    ((runAddStep s).bind runAddStep).map NotifyState.ring
      = some (emplaceRefs (s.ring.publish new) refs) := by
  have hpublish : s.ring.publish new = { s.ring with
      availIdx := new
      kicks := if Crossed half s.ring.availEvent new s.ring.availIdx then s.ring.kicks + 1
        else s.ring.kicks } := rfl
  have hstore : runAddStep s = some { s with
      ring := { s.ring with availIdx := new }
      published := s.published + added
      addPc := .event s.ring.availIdx new added refs } := by
    unfold runAddStep
    rw [hpc]
  rw [hstore, Option.bind_some, hpublish]
  unfold runAddStep
  dsimp only
  by_cases hcross : Crossed half s.ring.availEvent new s.ring.availIdx
  · rw [if_pos hcross, if_pos hcross]
    rfl
  · rw [if_neg hcross, if_neg hcross]
    rfl

/-- `add_readable_buffer` run without interruption is the call of the virtqueue's model.
Source: `sys/virtio.hpp` `vring::add_readable_buffer`
Kind: P -/
theorem addReadableBuffer_steps (bufs : List Buf) (s : NotifyState) :
    ((beginReadable bufs s).bind fun s => (runAddStep s).bind runAddStep).map NotifyState.ring
      = (addReadableBuffer bufs s.ring).map Prod.fst := by
  unfold beginReadable addReadableBuffer
  by_cases hfull : s.ring.freeCount < bufs.length
  · rw [if_pos hfull, if_pos hfull]
    rfl
  · have hsame := sameIndices_setAvail false bufs s.ring s.ring.availIdx
      (addChain false bufs s.ring).2
    rw [if_neg hfull, if_neg hfull]
    dsimp only
    rw [Option.bind_some, runAdd_publish (by rw [hsame.availIdx])]
    rfl

/-- `add_writable_buffers` run without interruption is the call of the virtqueue's model, when all
lists fit.
Source: `sys/virtio.hpp` `vring::add_writable_buffers`
Kind: P -/
theorem addWritableBuffers_steps (lists : List (List Buf)) (s : NotifyState) (hne : lists ≠ [])
    (hfit : (addLists lists s.ring s.ring.availIdx).2.2.2 = []) :
    ((runAddStep (beginWritable lists s)).bind runAddStep).map NotifyState.ring
      = some (addWritableBuffers lists s.ring).1 := by
  have hsame := sameIndices_addLists lists s.ring s.ring.availIdx
  unfold beginWritable addWritableBuffers
  rw [if_neg hne]
  dsimp only
  rw [if_pos hfit, if_pos hfit, if_neg hne, runAdd_publish (by rw [hsame.availIdx])]
  rfl

end Vring

end EbbRT
