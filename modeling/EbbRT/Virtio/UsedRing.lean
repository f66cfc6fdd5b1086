import EbbRT.Virtio.VringRuns

/-!
# Processing the used ring

`process_used_buffers` and `clean_used_buffers` start from the index stored in `used_event` and go
through the used ring until they meet the device's index, which is free-running and wraps at
`2 ^ 16`. The device completes chains at any moment, also between the two checks at the end of a
call. The avail ring is indexed modulo `qsize_`; the used ring is not, and so
`usedRing_exactlyWhen`: everything is in order for the first `qsize_` completions and for none
after them.
-/

namespace EbbRT

open EbbRT.Lib

namespace Vring

/-! ## The loop -/

/-- Where the driver is: outside the functions, at the top of the loop, at the second check, about
to read a used element, or about to recycle the chain of the one it read. `clean` tells which of
the two functions runs, `i` is `used_index`.
Source: `sys/virtio.hpp` `vring::process_used_buffers`, `vring::clean_used_buffers`
Kind: D -/
inductive Pc where
  | idle
  | check (clean : Bool) (i : ℕ)
  | recheck (clean : Bool) (i : ℕ)
  | fetch (clean : Bool) (i : ℕ)
  | recycle (clean : Bool) (i : ℕ) (elem : UsedElem)
  deriving DecidableEq, Repr

/-- The queue, the driver's place in the loop, and the completions: all that the device made and
those that the driver processed, oldest first.
Source: `sys/virtio.hpp` `vring`
Kind: D -/
structure UsedState where
  queue : State
  pc : Pc
  completions : List UsedElem
  delivered : List UsedElem

/-- After the constructor. Source: `sys/virtio.hpp` `vring::vring`. Kind: D -/
def UsedState.init (qsize : ℕ) (beyond : ℕ → UsedElem) : UsedState :=
  ⟨State.init qsize beyond, .idle, [], []⟩

/-- The steps: the driver adds buffers or the device takes a chain, the device completes a chain,
one of the two functions is called, and the function that runs goes one step on.
Source: `sys/virtio.hpp` `vring`
Kind: D -/
inductive UsedOp where
  | queue (op : Op)
  | complete (id len : ℕ)
  | call (clean : Bool)
  | run
  deriving DecidableEq, Repr

/-- Chains are recycled by the loop only. Source: none: infrastructure. Kind: D -/
def Adds : Op → Prop
  | .recycle _ _ => False
  | _ => True

instance : ∀ op : Op, Decidable (Adds op)
  | .addWritableBuffers _ => inferInstanceAs (Decidable True)
  | .addReadableBuffer _ => inferInstanceAs (Decidable True)
  | .take => inferInstanceAs (Decidable True)
  | .recycle _ _ => inferInstanceAs (Decidable False)

/-- The heads that the device completed and the driver has not processed yet.
Source: none: infrastructure
Kind: D -/
def UsedState.outstanding (s : UsedState) : List ℕ :=
  (s.completions.drop s.delivered.length).map UsedElem.id

/-- The device completes a chain that it took, once; the functions do not run inside each other.
Source: `sys/virtio.hpp` `vring`
Kind: D -/
def UsedLegal (s : UsedState) : UsedOp → Prop
  | .queue op => Adds op ∧ Legal s.queue op
  | .complete id _ => id ∈ s.queue.taken ∧ id ∉ s.outstanding
  | .call _ => s.pc = .idle
  | .run => s.pc ≠ .idle

instance : ∀ (s : UsedState) (op : UsedOp), Decidable (UsedLegal s op)
  | _, .queue _ => inferInstanceAs (Decidable (_ ∧ _))
  | _, .complete _ _ => inferInstanceAs (Decidable (_ ∧ _))
  | _, .call _ => inferInstanceAs (Decidable (_ = _))
  | _, .run => inferInstanceAs (Decidable (_ ≠ _))

/-- Write a used element and advance the index.
Source: `sys/virtio.hpp` `vring::used`
Kind: D -/
def complete (r : Vring) (elem : UsedElem) : Vring :=
  { r with
    usedRing := Function.update r.usedRing (r.usedIdx % r.qsize) elem
    usedIdx := (r.usedIdx + 1) % half }

/-- One step of the loop: `used_->ring[used_index]` is read with the index as it is.
Source: `sys/virtio.hpp` `vring::process_used_buffers`, `vring::clean_used_buffers`
Kind: D -/
def runStep (s : UsedState) : Option UsedState :=
  match s.pc with
  | .idle => none
  | .check clean i =>
      if i = s.queue.ring.usedIdx then
        some { s with
          queue := { s.queue with ring := { s.queue.ring with usedEvent := i } }
          pc := .recheck clean i }
      else some { s with pc := .fetch clean i }
  | .recheck clean i =>
      if i = s.queue.ring.usedIdx then some { s with pc := .idle }
      else some { s with pc := .fetch clean i }
  | .fetch clean i => some { s with pc := .recycle clean i (s.queue.ring.usedRing i) }
  | .recycle clean i elem =>
      (step s.queue (.recycle clean elem.id)).map fun q =>
        { s with
          queue := q
          pc := .check clean ((i + 1) % half)
          delivered := s.delivered ++ [elem] }

/-- Source: `sys/virtio.hpp` `vring`
Kind: D -/
def usedStep (s : UsedState) : UsedOp → Option UsedState
  | .queue op => (step s.queue op).map fun q => { s with queue := q }
  | .complete id len =>
      some { s with
        queue := { s.queue with ring := s.queue.ring.complete ⟨id, len⟩ }
        completions := s.completions ++ [⟨id, len⟩] }
  | .call clean => some { s with pc := .check clean s.queue.ring.usedEvent }
  | .run => runStep s

/-- The driver and the device, with the used ring.
Source: `sys/virtio.hpp` `vring`
Kind: D -/
def usedSystem : System UsedState UsedOp := ⟨UsedLegal, usedStep⟩

instance (s : UsedState) (op : UsedOp) : Decidable (usedSystem.legal s op) :=
  inferInstanceAs (Decidable (UsedLegal s op))

/-! ## What should hold -/

/-- The element about to be read is the next completion, in the slot of its number, inside the
ring.
Source: none: infrastructure
Kind: D -/
def FetchesNext (s : UsedState) (op : UsedOp) : Prop :=
  op = .run → ∀ clean i, s.pc = .fetch clean i →
    i < s.queue.ring.qsize ∧ i = s.delivered.length % s.queue.ring.qsize ∧
      s.completions[s.delivered.length]? = some (s.queue.ring.usedRing i)

/-- What every step should do: read the next completion from its slot, process the completions
once and in order, and not return before all are processed.
Source: none: infrastructure
Kind: D -/
structure InOrder (s : UsedState) (op : UsedOp) (s' : UsedState) : Prop where
  fetches : FetchesNext s op
  inOrder : s'.delivered <+: s'.completions
  returns : op = .run → s'.pc = .idle → s'.delivered = s'.completions

/-- The next step of the loop reads a used element.
Source: `sys/virtio.hpp` `vring::process_used_buffers`
Kind: D -/
def Pc.fetches : Pc → Bool
  | .fetch _ _ => true
  | _ => false

/-- The steps that the code handles: a used element is read when fewer than `qsize_` completions
were processed before.
Source: `sys/virtio.hpp` `vring::process_used_buffers`
Kind: D -/
def FirstRound (s : UsedState) (op : UsedOp) : Prop :=
  op = .run → s.pc.fetches = true → s.delivered.length < s.queue.ring.qsize

instance (s : UsedState) (op : UsedOp) : Decidable (FirstRound s op) :=
  inferInstanceAs (Decidable (_ → _ → _))

/-- What the driver knows where it is, after processing `n` of `total` completions.
Source: none: infrastructure
Kind: D -/
def PcInv (s : UsedState) : Prop :=
  match s.pc with
  | .idle => s.queue.ring.usedEvent = s.delivered.length % half
  | .check _ i => i = s.delivered.length % half
  | .recheck _ i => i = s.delivered.length % half ∧ s.queue.ring.usedEvent = i
  | .fetch _ i => i = s.delivered.length % half ∧ s.delivered.length < s.completions.length
  | .recycle _ i elem =>
      i = s.delivered.length % half ∧ s.completions[s.delivered.length]? = some elem ∧
        s.delivered.length < s.queue.ring.qsize

/-- The invariant of the first round.
Source: none: infrastructure
Kind: D -/
structure UsedInv (s : UsedState) : Prop where
  queue : Inv s.queue
  round : s.delivered.length ≤ s.queue.ring.qsize
  inOrder : s.delivered <+: s.completions
  distinct : s.outstanding.Nodup
  taken : ∀ id ∈ s.outstanding, id ∈ s.queue.taken
  index : s.queue.ring.usedIdx = s.completions.length % half
  slots : ∀ m e, s.delivered.length ≤ m → s.completions[m]? = some e →
    s.queue.ring.usedRing (m % s.queue.ring.qsize) = e
  pc : PcInv s

/-! ## What the queue operations leave alone -/

/-- The used ring and its indices are the same. Source: none: infrastructure. Kind: D -/
structure SameUsed (r r' : Vring) : Prop where
  ring : r'.usedRing = r.usedRing
  idx : r'.usedIdx = r.usedIdx
  event : r'.usedEvent = r.usedEvent
  qsize : r'.qsize = r.qsize

/-- Two operations. Source: none: infrastructure. Kind: L -/
theorem SameUsed.trans {r r' r'' : Vring} (h : SameUsed r r') (h' : SameUsed r' r'') :
    SameUsed r r'' :=
  ⟨h'.ring.trans h.ring, h'.idx.trans h.idx, h'.event.trans h.event, h'.qsize.trans h.qsize⟩

/-- Writing descriptors. Source: `sys/virtio.hpp` `vring::add_writable_buffers`. Kind: L -/
theorem sameUsed_writeDescs (writable : Bool) (bufs : List Buf) (r : Vring) (last : ℕ) :
    SameUsed r (writeDescs writable bufs (r, last)).1 := by
  induction bufs generalizing r last with
  | nil => exact ⟨rfl, rfl, rfl, rfl⟩
  | cons b bufs ih =>
      have h := ih { r with
        desc := Function.update r.desc r.freeHead { r.desc r.freeHead with
          addr := b.addr
          len := b.size % 2 ^ 32
          fNext := true
          fWrite := (r.desc r.freeHead).fWrite || writable }
        freeHead := (r.desc r.freeHead).next } r.freeHead
      exact ⟨h.ring, h.idx, h.event, h.qsize⟩

/-- Adding a chain. Source: `sys/virtio.hpp` `vring::add_writable_buffers`. Kind: L -/
theorem sameUsed_addChain (writable : Bool) (bufs : List Buf) (r : Vring) :
    SameUsed r (addChain writable bufs r).1 := by
  have h := sameUsed_writeDescs writable bufs { r with freeCount := r.freeCount - bufs.length }
    r.freeHead
  exact ⟨h.ring, h.idx, h.event, h.qsize⟩

/-- Adding a batch. Source: `sys/virtio.hpp` `vring::add_writable_buffers`. Kind: L -/
theorem sameUsed_addLists (lists : List (List Buf)) (r : Vring) (availIdx : ℕ) :
    SameUsed r (addLists lists r availIdx).1 := by
  induction lists generalizing r availIdx with
  | nil => exact ⟨rfl, rfl, rfl, rfl⟩
  | cons bufs rest ih =>
      simp only [addLists]
      split
      · exact ih r availIdx
      · split
        · exact ⟨rfl, rfl, rfl, rfl⟩
        · have h := sameUsed_addChain true bufs r
          have h' : SameUsed r ((addChain true bufs r).1.setAvail availIdx (addChain true bufs r).2) :=
            ⟨h.ring, h.idx, h.event, h.qsize⟩
          exact h'.trans (ih _ _)

/-- No queue operation touches the used ring. Source: `sys/virtio.hpp` `vring`. Kind: L -/
theorem sameUsed_step {q q' : State} {op : Op} (h : step q op = some q') :
    SameUsed q.ring q'.ring := by
  cases op with
  | addWritableBuffers lists =>
      obtain rfl := Option.some.inj h
      have hl := sameUsed_addLists lists q.ring q.ring.availIdx
      simp only [addWritableBuffers]
      split
      · split
        · exact ⟨rfl, rfl, rfl, rfl⟩
        · exact ⟨hl.ring, hl.idx, hl.event, hl.qsize⟩
      · exact hl
  | addReadableBuffer bufs =>
      obtain ⟨a, ha, rfl⟩ := Option.map_eq_some_iff.mp h
      unfold addReadableBuffer at ha
      split at ha
      · cases ha
      · obtain rfl := Option.some.inj ha
        have hc := sameUsed_addChain false bufs q.ring
        exact ⟨hc.ring, hc.idx, hc.event, hc.qsize⟩
  | take =>
      obtain rfl := Option.some.inj h
      exact ⟨rfl, rfl, rfl, rfl⟩
  | recycle clean id =>
      obtain ⟨r, hr, rfl⟩ := Option.map_eq_some_iff.mp h
      cases clean with
      | true =>
          obtain ⟨c, -, rfl⟩ := Option.map_eq_some_iff.mp hr
          exact ⟨rfl, rfl, rfl, rfl⟩
      | false =>
          obtain ⟨p, hp, rfl⟩ := Option.map_eq_some_iff.mp hr
          obtain ⟨c, -, rfl⟩ := Option.map_eq_some_iff.mp hp
          exact ⟨rfl, rfl, rfl, rfl⟩

/-- Adding buffers and taking chains leaves the chains that the device took with it.
Source: `sys/virtio.hpp` `vring`
Kind: L -/
theorem taken_subset_of_adds {q q' : State} {op : Op} (ha : Adds op) (h : step q op = some q') :
    ∀ id ∈ q.taken, id ∈ q'.taken := by
  cases op with
  | addWritableBuffers lists =>
      obtain rfl := Option.some.inj h
      exact fun _ hid => hid
  | addReadableBuffer bufs =>
      obtain ⟨a, -, rfl⟩ := Option.map_eq_some_iff.mp h
      exact fun _ hid => hid
  | take =>
      obtain rfl := Option.some.inj h
      exact fun _ hid => List.mem_cons_of_mem _ hid
  | recycle => exact ha.elim

/-! ## The first round -/

variable {s s' : UsedState} {op : UsedOp}

/-- What is outstanding fits in the ring, with room for what the device has taken besides.
Source: `sys/virtio.hpp` `vring::used`
Kind: L -/
theorem UsedInv.length_le (h : UsedInv s) {l : List ℕ} (hnd : l.Nodup)
    (hl : ∀ id ∈ l, id ∈ s.queue.taken) : l.length ≤ s.queue.ring.qsize := by
  have h1 := (List.subperm_of_subset hnd hl).length_le
  have h2 := h.queue.ring.length_le
  rw [List.length_append] at h2
  omega

/-- The completions ahead of the driver fit in the ring.
Source: `sys/virtio.hpp` `vring::used`
Kind: L -/
theorem UsedInv.ahead_le (h : UsedInv s) :
    s.completions.length ≤ s.delivered.length + s.queue.ring.qsize := by
  have := h.length_le h.distinct h.taken
  rw [UsedState.outstanding, List.length_map, List.length_drop] at this
  omega

/-- The driver's index meets the device's exactly when everything is processed.
Source: `sys/virtio.hpp` `vring::process_used_buffers`
Kind: L -/
theorem UsedInv.index_eq_iff (h : UsedInv s) :
    s.delivered.length % half = s.queue.ring.usedIdx ↔ s.delivered = s.completions := by
  have hle := h.inOrder.length_le
  have hahead := h.ahead_le
  have hq := h.queue.size.2
  rw [h.index]
  constructor
  · intro he
    refine h.inOrder.eq_of_length ?_
    simp only [half] at he hq
    omega
  · intro he
    rw [he]

/-- The invariant does not depend on where the driver is, apart from `PcInv`.
Source: none: infrastructure
Kind: L -/
theorem UsedInv.with_pc (h : UsedInv s) {pc : Pc} (hpc : PcInv { s with pc := pc }) :
    UsedInv { s with pc := pc } :=
  ⟨h.queue, h.round, h.inOrder, h.distinct, h.taken, h.index, h.slots, hpc⟩

/-- Another queue with the same used ring, in which the device has what is outstanding.
Source: none: infrastructure
Kind: L -/
theorem UsedInv.with_queue (h : UsedInv s) {q : State} (hinv : Inv q)
    (hu : SameUsed s.queue.ring q.ring) (htaken : ∀ id ∈ s.outstanding, id ∈ q.taken) :
    UsedInv { s with queue := q } := by
  refine ⟨hinv, by rw [hu.qsize]; exact h.round, h.inOrder, h.distinct, htaken,
    by rw [hu.idx]; exact h.index, by rw [hu.ring, hu.qsize]; exact h.slots, ?_⟩
  have hpc := h.pc
  unfold PcInv at hpc ⊢
  simp only [hu.event, hu.qsize]
  exact hpc

/-- A queue operation keeps the invariant. Source: `sys/virtio.hpp` `vring`. Kind: L -/
theorem UsedInv.queueOp (h : UsedInv s) {op : Op} (ha : Adds op) (hlegal : Legal s.queue op)
    {q : State} (hq : step s.queue op = some q) : UsedInv { s with queue := q } := by
  obtain ⟨q', hq', hinv⟩ := h.queue.step hlegal
  obtain rfl : q' = q := Option.some.inj (hq'.symm.trans hq)
  exact h.with_queue hinv (sameUsed_step hq) fun id hid =>
    taken_subset_of_adds ha hq id (h.taken id hid)

/-- A completion goes to a slot that is free again.
Source: `sys/virtio.hpp` `vring::used`
Kind: L -/
theorem UsedInv.complete (h : UsedInv s) {id len : ℕ} (htaken : id ∈ s.queue.taken)
    (hnew : id ∉ s.outstanding) (hstep : usedStep s (.complete id len) = some s') :
    UsedInv s' := by
  obtain rfl := Option.some.inj hstep
  have hle := h.inOrder.length_le
  have hout : ((s.completions ++ [(⟨id, len⟩ : UsedElem)]).drop s.delivered.length).map UsedElem.id =
      s.outstanding ++ [id] := by
    rw [List.drop_append_of_le_length hle, List.map_append]
    rfl
  have hnd : (s.outstanding ++ [id]).Nodup := by
    rw [List.nodup_append]
    refine ⟨h.distinct, List.nodup_singleton id, fun a ha b hb => ?_⟩
    rw [List.mem_singleton.mp hb]
    rintro rfl
    exact hnew ha
  have htk : ∀ a ∈ s.outstanding ++ [id], a ∈ s.queue.taken := by
    intro a ha
    rcases List.mem_append.mp ha with ha | ha
    · exact h.taken a ha
    · rw [List.mem_singleton.mp ha]
      exact htaken
  have hroom : s.completions.length < s.delivered.length + s.queue.ring.qsize := by
    have := h.length_le hnd htk
    rw [UsedState.outstanding, List.length_append, List.length_map, List.length_drop,
      List.length_singleton] at this
    omega
  have hq := h.queue.size
  have hqueue : Inv { s.queue with ring := Vring.complete s.queue.ring ⟨id, len⟩ } :=
    ⟨⟨h.queue.ring.chains, h.queue.ring.perm⟩, ⟨h.queue.slots.index, h.queue.slots.slots⟩,
      h.queue.index, hq⟩
  refine ⟨hqueue, h.round, h.inOrder.trans (List.prefix_append ..), ?_, ?_, ?_, ?_, ?_⟩
  · unfold UsedState.outstanding
    rw [hout]
    exact hnd
  · unfold UsedState.outstanding
    rw [hout]
    exact htk
  · show (s.queue.ring.usedIdx + 1) % half = _
    rw [h.index, List.length_append, List.length_singleton, Nat.mod_add_mod]
  · intro m e hm he
    have hm : s.delivered.length ≤ m := hm
    show Function.update s.queue.ring.usedRing (s.queue.ring.usedIdx % s.queue.ring.qsize) _
      (m % s.queue.ring.qsize) = e
    rw [h.index, Nat.mod_mod_of_dvd _ hq.1]
    rcases Nat.lt_trichotomy m s.completions.length with hlt | rfl | hgt
    · have hne : m % s.queue.ring.qsize ≠ s.completions.length % s.queue.ring.qsize := by
        intro heq
        have hdvd : s.queue.ring.qsize ∣ s.completions.length - m :=
          (Nat.modEq_iff_dvd' hlt.le).mp heq
        have := Nat.le_of_dvd (by omega) hdvd
        omega
      rw [Function.update_of_ne hne]
      exact h.slots m e hm (by rwa [List.getElem?_append_left hlt] at he)
    · rw [Function.update_self]
      simpa using he
    · rw [List.getElem?_eq_none (by simp; omega)] at he
      cases he
  · have hpc := h.pc
    unfold PcInv at hpc ⊢
    cases hp : s.pc with
    | idle => simpa [hp, Vring.complete] using hpc
    | check clean i => simpa [hp] using hpc
    | recheck clean i => simpa [hp, Vring.complete] using hpc
    | fetch clean i =>
        simp only [hp] at hpc ⊢
        exact ⟨hpc.1, by rw [List.length_append]; omega⟩
    | recycle clean i elem =>
        simp only [hp] at hpc ⊢
        obtain ⟨hi, helem, hround⟩ := hpc
        obtain ⟨hlt, -⟩ := List.getElem?_eq_some_iff.mp helem
        refine ⟨hi, ?_, hround⟩
        rw [List.getElem?_append_left hlt]
        exact helem

/-- What the next element is, in the first round: the slot of the next completion.
Source: `sys/virtio.hpp` `vring::process_used_buffers`
Kind: P -/
theorem UsedInv.fetches (h : UsedInv s) {clean : Bool} {i : ℕ} (hpc : s.pc = .fetch clean i)
    (hround : s.delivered.length < s.queue.ring.qsize) :
    i = s.delivered.length % s.queue.ring.qsize ∧ i < s.queue.ring.qsize ∧
      s.completions[s.delivered.length]? = some (s.queue.ring.usedRing i) := by
  have hq := h.queue.size.2
  have hp := h.pc
  simp only [PcInv, hpc] at hp
  obtain ⟨hi, hlt⟩ := hp
  rw [Nat.mod_eq_of_lt (by omega)] at hi
  subst hi
  refine ⟨(Nat.mod_eq_of_lt hround).symm, hround, ?_⟩
  have he : s.completions[s.delivered.length]? = some s.completions[s.delivered.length] :=
    List.getElem?_eq_getElem hlt
  have := h.slots _ _ le_rfl he
  rw [Nat.mod_eq_of_lt hround] at this
  rw [he, this]

/-- The element that was read is the first outstanding one.
Source: `sys/virtio.hpp` `vring::process_used_buffers`, `vring::clean_used_buffers`
Kind: L -/
theorem UsedInv.outstanding_eq (h : UsedInv s) {clean : Bool} {i : ℕ} {elem : UsedElem}
    (hpc : s.pc = .recycle clean i elem) :
    s.outstanding = elem.id :: (s.completions.drop (s.delivered.length + 1)).map UsedElem.id := by
  have hp := h.pc
  simp only [PcInv, hpc] at hp
  obtain ⟨hlt, hget⟩ := List.getElem?_eq_some_iff.mp hp.2.1
  rw [UsedState.outstanding, List.drop_eq_getElem_cons hlt, List.map_cons, hget]

/-- Recycling the chain of the element that was read.
Source: `sys/virtio.hpp` `vring::process_used_buffers`, `vring::clean_used_buffers`
Kind: L -/
theorem UsedInv.recycle (h : UsedInv s) {clean : Bool} {i : ℕ} {elem : UsedElem}
    (hpc : s.pc = .recycle clean i elem) (hstep : runStep s = some s') : UsedInv s' := by
  simp only [runStep, hpc] at hstep
  obtain ⟨q, hq, rfl⟩ := Option.map_eq_some_iff.mp hstep
  have hp := h.pc
  simp only [PcInv, hpc] at hp
  obtain ⟨hi, helem, hround⟩ := hp
  have hout := h.outstanding_eq hpc
  have hdist := h.distinct
  rw [hout, List.nodup_cons] at hdist
  have hid : elem.id ∈ s.queue.taken := h.taken _ (by rw [hout]; exact List.mem_cons_self)
  obtain ⟨q', hq', hinv⟩ := h.queue.step (show Legal s.queue (.recycle clean elem.id) from hid)
  obtain rfl : q' = q := Option.some.inj (hq'.symm.trans hq)
  have hu := sameUsed_step hq
  have htaken : q'.taken = s.queue.taken.erase elem.id := by
    obtain ⟨r, -, rfl⟩ := Option.map_eq_some_iff.mp hq
    rfl
  have hlen : (s.delivered ++ [elem]).length = s.delivered.length + 1 := by simp
  have hextend : s.delivered ++ [elem] <+: s.completions := by
    obtain ⟨t, ht⟩ := h.inOrder
    have hhead : t = elem :: t.tail := by
      have : t[0]? = some elem := by
        rw [← ht, List.getElem?_append_right le_rfl, Nat.sub_self] at helem
        exact helem
      cases t with
      | nil => cases this
      | cons e t =>
          simp only [List.getElem?_cons_zero, Option.some.injEq] at this
          rw [this, List.tail_cons]
    refine ⟨t.tail, ?_⟩
    rw [List.append_assoc, List.singleton_append, ← hhead]
    exact ht
  refine ⟨hinv, ?_, hextend, ?_, ?_, ?_, ?_, ?_⟩
  · show (s.delivered ++ [elem]).length ≤ q'.ring.qsize
    rw [hlen, hu.qsize]
    exact hround
  · unfold UsedState.outstanding
    simp only [hlen]
    exact hdist.2
  · intro id hmem
    unfold UsedState.outstanding at hmem
    simp only [hlen] at hmem
    show id ∈ q'.taken
    rw [htaken]
    refine (List.mem_erase_of_ne ?_).mpr (h.taken id (by rw [hout]; exact List.mem_cons_of_mem _ hmem))
    rintro rfl
    exact hdist.1 hmem
  · show q'.ring.usedIdx = _
    rw [hu.idx]
    exact h.index
  · intro m e hm he
    show q'.ring.usedRing (m % q'.ring.qsize) = e
    rw [hu.ring, hu.qsize]
    simp only [hlen] at hm
    exact h.slots m e (by omega) he
  · show (i + 1) % half = (s.delivered ++ [elem]).length % half
    rw [hlen, hi, Nat.mod_add_mod]

/-- **One step of the loop in the first round** keeps the invariant.
Source: `sys/virtio.hpp` `vring::process_used_buffers`, `vring::clean_used_buffers`
Kind: P -/
theorem UsedInv.runStep (h : UsedInv s) (hok : FirstRound s .run)
    (hstep : Vring.runStep s = some s') : UsedInv s' := by
  have hp := h.pc
  cases hpc : s.pc with
  | idle =>
      simp only [Vring.runStep, hpc] at hstep
      cases hstep
  | check clean i =>
      simp only [PcInv, hpc] at hp
      simp only [Vring.runStep, hpc] at hstep
      split at hstep
      · obtain rfl := Option.some.inj hstep
        have hqueue : Inv { s.queue with ring := { s.queue.ring with usedEvent := i } } :=
          ⟨⟨h.queue.ring.chains, h.queue.ring.perm⟩,
            ⟨h.queue.slots.index, h.queue.slots.slots⟩, h.queue.index, h.queue.size⟩
        exact ⟨hqueue, h.round, h.inOrder, h.distinct, h.taken, h.index, h.slots, hp, rfl⟩
      · rename_i hne
        obtain rfl := Option.some.inj hstep
        refine h.with_pc ⟨hp, ?_⟩
        have hle := h.inOrder.length_le
        rw [hp, h.index_eq_iff] at hne
        exact lt_of_le_of_ne hle fun he => hne (h.inOrder.eq_of_length he)
  | recheck clean i =>
      simp only [PcInv, hpc] at hp
      simp only [Vring.runStep, hpc] at hstep
      split at hstep
      · obtain rfl := Option.some.inj hstep
        exact h.with_pc (hp.2.trans hp.1)
      · rename_i hne
        obtain rfl := Option.some.inj hstep
        refine h.with_pc ⟨hp.1, ?_⟩
        have hle := h.inOrder.length_le
        rw [hp.1, h.index_eq_iff] at hne
        exact lt_of_le_of_ne hle fun he => hne (h.inOrder.eq_of_length he)
  | fetch clean i =>
      have hround := hok rfl (by rw [hpc]; rfl)
      obtain ⟨-, -, helem⟩ := h.fetches hpc hround
      simp only [PcInv, hpc] at hp
      simp only [Vring.runStep, hpc] at hstep
      obtain rfl := Option.some.inj hstep
      exact h.with_pc ⟨hp.1, helem, hround⟩
  | recycle clean i elem => exact h.recycle hpc hstep

/-- The functions return from the second check, when it finds the device's index.
Source: `sys/virtio.hpp` `vring::process_used_buffers`, `vring::clean_used_buffers`
Kind: L -/
theorem recheck_of_idle (hstep : Vring.runStep s = some s') (hidle : s'.pc = .idle) :
    ∃ clean, s.pc = .recheck clean s.queue.ring.usedIdx ∧ s' = { s with pc := .idle } := by
  cases hpc : s.pc with
  | idle =>
      simp only [Vring.runStep, hpc] at hstep
      cases hstep
  | check clean i =>
      simp only [Vring.runStep, hpc] at hstep
      split at hstep <;>
      · obtain rfl := Option.some.inj hstep
        cases hidle
  | recheck clean i =>
      simp only [Vring.runStep, hpc] at hstep
      split at hstep
      · rename_i he
        exact ⟨clean, by rw [he], (Option.some.inj hstep).symm⟩
      · obtain rfl := Option.some.inj hstep
        cases hidle
  | fetch clean i =>
      simp only [Vring.runStep, hpc] at hstep
      obtain rfl := Option.some.inj hstep
      cases hidle
  | recycle clean i elem =>
      simp only [Vring.runStep, hpc] at hstep
      obtain ⟨q, -, rfl⟩ := Option.map_eq_some_iff.mp hstep
      cases hidle

/-- Every step of the first round keeps the invariant. Source: `sys/virtio.hpp` `vring`. Kind: L -/
theorem UsedInv.step (h : UsedInv s) (hlegal : UsedLegal s op) (hok : FirstRound s op)
    (hstep : usedStep s op = some s') : UsedInv s' := by
  cases op with
  | queue op =>
      obtain ⟨q, hq, rfl⟩ := Option.map_eq_some_iff.mp hstep
      exact h.queueOp hlegal.1 hlegal.2 hq
  | complete id len => exact h.complete hlegal.1 hlegal.2 hstep
  | call clean =>
      obtain rfl := Option.some.inj hstep
      have hp := h.pc
      have hidle : s.pc = .idle := hlegal
      simp only [PcInv, hidle] at hp
      exact h.with_pc hp
  | run => exact h.runStep hok hstep

/-- The invariant holds at the start. Source: `sys/virtio.hpp` `vring::vring`. Kind: L -/
theorem usedInv_init {k : ℕ} (hk : k < 16) (beyond : ℕ → UsedElem) :
    UsedInv (UsedState.init (2 ^ k) beyond) :=
  ⟨inv_init hk beyond, Nat.zero_le _, List.nil_prefix, List.nodup_nil, by simp [UsedState.init,
    UsedState.outstanding], rfl, by simp [UsedState.init], rfl⟩

/-- **Processing the used ring over whole runs.** For every power of two that is a queue size,
while fewer than `qsize_` completions were processed every step is in order: the `n`-th completion
is read from slot `n` modulo `qsize_`, the completions are processed once and in order, and the
functions return when all are processed. The first read after that is past the end of the ring.
Source: `sys/virtio.hpp` `vring::process_used_buffers`, `vring::clean_used_buffers`
Kind: P
Fidelity: weaker than the code promises: `FirstRound` leaves out reads past the end of the ring
Hyps: `hk`: queue sizes are powers of two of 16 bits -/
theorem usedRing_exactlyWhen (k : ℕ) (hk : k < 16) (beyond : ℕ → UsedElem) :
    usedSystem.ExactlyWhen (UsedState.init (2 ^ k) beyond) InOrder FirstRound := by
  intro as s op s' hrun hlegal hstep
  have h : UsedInv s := hrun.invariant (usedInv_init hk beyond) fun _ _ _ h hlegal hstep =>
    h.step hlegal.1 hlegal.2 hstep
  constructor
  · rintro hord rfl hfetch
    obtain ⟨clean, i, hpc⟩ : ∃ clean i, s.pc = .fetch clean i := by
      cases hp : s.pc with
      | fetch clean i => exact ⟨clean, i, rfl⟩
      | _ => rw [hp] at hfetch; cases hfetch
    have hi := (hord.fetches rfl clean i hpc).1
    have hp := h.pc
    have hq := h.queue.size.2
    have hr := h.round
    simp only [PcInv, hpc] at hp
    rw [hp.1, Nat.mod_eq_of_lt (by omega)] at hi
    exact hi
  · intro hok
    have h' := h.step hlegal hok hstep
    refine ⟨fun hop clean i hpc => ?_, h'.inOrder, fun hop hidle => ?_⟩
    · obtain ⟨h1, h2, h3⟩ := h.fetches hpc (hok hop (by rw [hpc]; rfl))
      exact ⟨h2, h1, h3⟩
    · subst hop
      obtain ⟨clean, hpc, rfl⟩ := recheck_of_idle hstep hidle
      have hp := h.pc
      simp only [PcInv, hpc] at hp
      exact h.index_eq_iff.mp hp.1.symm

/-- A ring of two: two chains are completed in the reverse order and processed by one call.
Source: `sys/virtio.hpp` `vring::process_used_buffers`
Kind: C -/
theorem usedRing_exactlyWhen_two :
    ∃ s s', usedSystem.Run (UsedState.init (2 ^ 1) fun _ => ⟨0, 0⟩)
        [.queue (.addWritableBuffers [[⟨1, 8⟩], [⟨2, 8⟩]]), .queue .take, .queue .take,
          .complete 1 8, .call false, .run, .run, .complete 0 8, .run, .run, .run, .run, .run] s ∧
      usedStep s .run = some s' ∧ InOrder s .run s' ∧
      s'.pc = .idle ∧ s'.delivered = [⟨1, 8⟩, ⟨0, 8⟩] := by
  have h : (usedSystem.guard FirstRound).Admits (UsedState.init (2 ^ 1) fun _ => ⟨0, 0⟩)
      (([.queue (.addWritableBuffers [[⟨1, 8⟩], [⟨2, 8⟩]]), .queue .take, .queue .take,
        .complete 1 8, .call false, .run, .run, .complete 0 8, .run, .run, .run, .run, .run] :
          List UsedOp) ++ [.run]) := by decide
  obtain ⟨s, s', hexec, hrun, hlegal, hstep⟩ := h.last
  refine ⟨s, s', hrun.of_guard, hstep,
    (usedRing_exactlyWhen 1 (by decide) _ _ _ _ _ hrun hlegal.1 hstep).mpr hlegal.2, ?_⟩
  obtain rfl := Option.some.inj hexec
  obtain rfl := Option.some.inj hstep
  exact ⟨by decide, by decide⟩

/-- A ring of two: the third completion is read past the end of the ring.
Source: `sys/virtio.hpp` `vring::process_used_buffers`
Kind: P -/
theorem usedRing_not_always :
    ¬ ∀ k < 16, ∀ beyond, usedSystem.Always (UsedState.init (2 ^ k) beyond) InOrder := by
  intro hall
  have hadmits : usedSystem.Admits (UsedState.init (2 ^ 1) fun _ => ⟨0, 0⟩)
      (([.queue (.addWritableBuffers [[⟨1, 8⟩], [⟨2, 8⟩]]), .queue .take, .queue .take,
        .complete 0 8, .complete 1 8, .call false, .run, .run, .run, .run, .run, .run,
        .queue (.addWritableBuffers [[⟨3, 8⟩]]), .queue .take, .complete 1 8, .run] :
          List UsedOp) ++ [.run]) := by
    decide
  refine System.not_always_of_admits hadmits (fun s s' hs hs' hord => ?_)
    (hall 1 (by decide) fun _ => ⟨0, 0⟩)
  have hfetch : s.pc = .fetch false 2 ∧ s.queue.ring.qsize = 2 := by
    obtain rfl := Option.some.inj hs
    exact ⟨by decide, by decide⟩
  have hi := (hord.fetches rfl _ _ hfetch.1).1
  rw [hfetch.2] at hi
  exact absurd hi (by decide)

end Vring

end EbbRT
