import EbbRT.Virtio.InFlight

/-!
# Sending a packet

`eth_output` turns the segments of a packet into a list of buffers, `send` puts the virtio header in
front of it, and the ring makes a chain of descriptors of it. The last segment's buffer carries the
deleter that gives the packet back to lwIP; it runs when `clean_used_buffers` erases the reference to
the chain, whose head it reads in the used ring. The list of buffers is built with `emplace_front`, so it
starts with the last segment: `ethOutput_exactlyWhen` says that the device sees the packet's bytes in order
if and only if they are the same in the reverse order of the segments, and that each packet is given back
once, after its chain, while no used element is read past the end of the used ring.
-/

namespace EbbRT

open EbbRT.Lib

namespace Transmit

/-! ## The code -/

/-- The fields of a segment that are read.
Source: `sys/net.cpp` `eth_output` (`struct pbuf`)
Kind: D -/
structure Pbuf where
  payload : ℕ
  len : BitVec 16
  deriving DecidableEq, Repr

/-- The closure that calls `pbuf_free`: the packet, and the number of the call of `eth_output` that
made it, which tells the packets sent apart.
Source: `sys/net.cpp` `eth_output`
Kind: D -/
structure Deleter where
  pbuf : ℕ
  call : ℕ
  deriving DecidableEq, Repr

/-- A buffer with its deleter, if that does anything.
Source: `sys/buffer.hpp` `const_buffer`
Kind: D -/
structure ConstBuffer where
  buf : Buf
  deleter : Option Deleter
  deriving DecidableEq, Repr

/-- The calls of lwIP.
Source: `sys/net.cpp` `eth_output`
Kind: D -/
inductive Call
  | pbufFree (d : Deleter)
  | pbufRef (pbuf : ℕ)
  deriving DecidableEq, Repr

/-- The transmit queue with its used ring and the device, the references to the buffers in flight with
their deleters (the ring has their addresses and sizes), the calls of lwIP, the latest first, and how many
packets were sent.
Source: `sys/virtio.hpp` `vring::buf_references_`
Kind: D -/
structure State where
  used : Vring.UsedState
  references : ℕ → Option (List ConstBuffer)
  calls : List Call
  sent : ℕ

/-- Source: `sys/virtio_net.cpp` `virtio_net_driver::virtio_net_driver`
Kind: D -/
def State.init (qsize : ℕ) (beyond : ℕ → UsedElem) : State :=
  ⟨Vring.UsedState.init qsize beyond, fun _ => none, [], 0⟩

/-- Source: `sys/lwipopts.h` `ETH_PAD_SIZE`
Kind: D -/
def ethPadSize : ℕ := 2

/-- The size of the header: two bytes and five of two bytes each.
Source: `sys/virtio_net.hpp` `virtio_net_driver::virtio_net_hdr`
Kind: D -/
def headerSize : ℕ := 12

/-- The loop over the segments: the buffers are put in front of the list, the last segment's with
the deleter of the packet.
Source: `sys/net.cpp` `eth_output`
Kind: D -/
def pushSegments (d : Deleter) : List Pbuf → List ConstBuffer → List ConstBuffer
  | [], l => l
  | [q], l => ⟨⟨q.payload, q.len.toNat⟩, some d⟩ :: l
  | q :: next :: rest, l =>
      pushSegments d (next :: rest) (⟨⟨q.payload, q.len.toNat⟩, none⟩ :: l)

/-- Destroying buffers runs their deleters.
Source: `sys/buffer.hpp` `const_buffer`
Kind: D -/
def deleters (bufs : List ConstBuffer) : List Deleter := bufs.filterMap ConstBuffer.deleter

/-- Source: none: infrastructure
Kind: D -/
def State.destroy (s : State) (bufs : List ConstBuffer) : State :=
  { s with calls := (deleters bufs).map Call.pbufFree ++ s.calls }

/-- The ring's side is that of `Vring`. When the head has a reference already, `emplace` destroys the
buffers.
Source: `sys/virtio.hpp` `vring::add_readable_buffer`
Kind: D -/
def addReadableBuffer (bufs : List ConstBuffer) (s : State) : Option State :=
  (Vring.usedStep s.used (.queue (.addReadableBuffer (bufs.map ConstBuffer.buf)))).map fun used =>
    let head := s.used.queue.ring.freeHead
    match s.references head with
    | none => { s with used := used, references := Function.update s.references head (some bufs) }
    | some _ => { s with used := used }.destroy bufs

/-- `header` is the address of `empty_header_`. The `kbugon` is the one of `add_readable_buffer`.
Source: `sys/virtio_net.cpp` `virtio_net_driver::send`
Kind: D -/
def send (header : ℕ) (bufs : List ConstBuffer) (s : State) : Option State :=
  addReadableBuffer (⟨⟨header, headerSize⟩, none⟩ :: bufs) s

section

variable (pbufHeader : ℤ → Pbuf → Pbuf) (header : ℕ)

/-- `pbuf_header` moves the start of the first segment.
Source: `sys/net.cpp` `eth_output`
Kind: D -/
def onFirst (f : Pbuf → Pbuf) : List Pbuf → List Pbuf
  | [] => []
  | q :: rest => f q :: rest

/-- The packet at `p` with its segments.
Source: `sys/net.cpp` `eth_output`
Kind: D -/
def ethOutput (p : ℕ) (segments : List Pbuf) (s : State) : Option State :=
  let segments := onFirst (pbufHeader (-ethPadSize)) segments
  let l := pushSegments ⟨p, s.sent⟩ segments []
  (send header l s).map fun s => { s with calls := .pbufRef p :: s.calls, sent := s.sent + 1 }

/-- The references of a chain are erased, and its buffers are destroyed.
Source: `sys/virtio.hpp` `vring::clean_used_buffers`
Kind: D -/
def State.erase (s : State) (id : ℕ) : State :=
  match s.references id with
  | none => s
  | some bufs => { s with references := Function.update s.references id none }.destroy bufs

/-- One step of `clean_used_buffers`: with the element that was read in the used ring, the references of its
chain are erased before the chain is recycled.
Source: `sys/virtio.hpp` `vring::clean_used_buffers`
Kind: D -/
def clean (s : State) : Option State :=
  let s := match s.used.pc with
    | .recycle _ _ elem => s.erase elem.id
    | _ => s
  (Vring.usedStep s.used .run).map fun used => { s with used := used }

/-! ## The system -/

/-- A packet is sent, the device takes the next chain or completes one, `clean_used_buffers` is called, or it
goes one step on.
Source: `sys/virtio_net.cpp` `virtio_net_driver`
Kind: D -/
inductive Op
  | output (p : ℕ) (segments : List Pbuf)
  | take
  | complete (id len : ℕ)
  | call
  | run
  deriving DecidableEq, Repr

/-- A packet has a first segment with room for the pad; the device and the loop do what they do with the
chains of a ring.
Source: `sys/net.cpp` `eth_output`
Kind: D
Fidelity: the device completes any chain that it has taken; which chain the loop recycles it reads from the
ring -/
def Legal (s : State) : Op → Prop
  | .output _ segments => ∃ q rest, segments = q :: rest ∧ ethPadSize ≤ q.len.toNat
  | .take => Vring.UsedLegal s.used (.queue .take)
  | .complete id len => Vring.UsedLegal s.used (.complete id len)
  | .call => Vring.UsedLegal s.used (.call true)
  | .run => Vring.UsedLegal s.used .run

/-- Source: none: infrastructure
Kind: D -/
def step (s : State) : Op → Option State
  | .output p segments => ethOutput pbufHeader header p segments s
  | .take => (Vring.usedStep s.used (.queue .take)).map fun used => { s with used := used }
  | .complete id len => (Vring.usedStep s.used (.complete id len)).map fun used => { s with used := used }
  | .call => (Vring.usedStep s.used (.call true)).map fun used => { s with used := used }
  | .run => clean s

/-- Source: `sys/virtio_net.cpp` `virtio_net_driver`
Kind: D -/
def system : System State Op := ⟨Legal, step pbufHeader header⟩

/-- A used element is read when fewer than `qsize_` completions were processed before.
Source: `sys/virtio.hpp` `vring::clean_used_buffers`
Kind: D -/
def FirstRound (s : State) (op : Op) : Prop := op = .run → Vring.FirstRound s.used .run

/-! ## What sending is for -/

/-- Source: none: infrastructure
Kind: D -/
def bytes (mem : ℕ → BitVec 8) (b : Buf) : List (BitVec 8) :=
  (List.range b.size).map fun i => mem (b.addr + i)

/-- The segments of a packet without the pad. Source: `sys/net.cpp` `eth_output`. Kind: D -/
def payloads (segments : List Pbuf) : List Buf :=
  (onFirst (fun q => ⟨q.payload + ethPadSize, q.len - ethPadSize⟩) segments).map fun q =>
    ⟨q.payload, q.len.toNat⟩

/-- What is to be seen of the packet sent as `d` with its chain at `head`, from the state after it was
sent on, in the runs of `M`. Until the chain is processed, the device finds the header and the payloads in
it, and the packet is not given back; afterwards it was given back once, and the device had completed the
chain; and `clean_used_buffers` returns only after this if the chain is completed.
Source: none: infrastructure
Kind: D -/
structure Delivered (M : System State Op) (mem : ℕ → BitVec 8) (segments : List Pbuf) (d : Deleter)
    (head : ℕ) (s : State) : Prop where
  sees : ∀ ops t, M.Run s ops t → head ∉ Vring.processedSince s.used t.used →
    t.calls.count (.pbufFree d) = 0 ∧
      ∃ bufs, t.used.queue.ring.contents head = some bufs ∧ bufs.flatMap (bytes mem) =
        bytes mem ⟨header, headerSize⟩ ++ (payloads segments).flatMap (bytes mem)
  frees : ∀ ops t, M.Run s ops t → head ∈ Vring.processedSince s.used t.used →
    t.calls.count (.pbufFree d) = 1 ∧ head ∈ Vring.completedSince s.used t.used
  returns : ∀ ops t t', M.Run s ops t → M.legal t .run → M.step t .run = some t' →
    t'.used.pc = .idle → head ∈ Vring.completedSince s.used t'.used →
      t'.calls.count (.pbufFree d) = 1

/-! ## The buffers of a packet -/

/-- The segments' buffers come in reverse order. Source: `sys/net.cpp` `eth_output`. Kind: L -/
theorem map_buf_pushSegments (d : Deleter) (segments : List Pbuf) (l : List ConstBuffer) :
    (pushSegments d segments l).map ConstBuffer.buf =
      (segments.map fun q => (⟨q.payload, q.len.toNat⟩ : Buf)).reverse ++
        l.map ConstBuffer.buf := by
  induction segments generalizing l with
  | nil => rfl
  | cons q rest ih =>
      cases rest with
      | nil => rfl
      | cons next rest =>
          unfold pushSegments
          rw [ih]
          simp

/-- One of them has the packet's deleter. Source: `sys/net.cpp` `eth_output`. Kind: L -/
theorem deleters_pushSegments (d : Deleter) {segments : List Pbuf} (hne : segments ≠ [])
    (l : List ConstBuffer) : deleters (pushSegments d segments l) = d :: deleters l := by
  induction segments generalizing l with
  | nil => exact absurd rfl hne
  | cons q rest ih =>
      cases rest with
      | nil => rfl
      | cons next rest =>
          unfold pushSegments
          rw [ih (by simp)]
          rfl

/-- The list that the ring gets for a packet.
Source: `sys/virtio_net.cpp` `virtio_net_driver::send`
Kind: D -/
def packetBuffers (d : Deleter) (segments : List Pbuf) : List ConstBuffer :=
  ⟨⟨header, headerSize⟩, none⟩ :: pushSegments d segments []

/-- Source: `sys/virtio_net.cpp` `virtio_net_driver::send`
Kind: L -/
theorem map_buf_packetBuffers (d : Deleter) (segments : List Pbuf) :
    (packetBuffers header d segments).map ConstBuffer.buf =
      ⟨header, headerSize⟩ :: (segments.map fun q => (⟨q.payload, q.len.toNat⟩ : Buf)).reverse := by
  simp [packetBuffers, map_buf_pushSegments]

/-- Source: `sys/virtio_net.cpp` `virtio_net_driver::send`
Kind: L -/
theorem deleters_packetBuffers (d : Deleter) {segments : List Pbuf} (hne : segments ≠ []) :
    deleters (packetBuffers header d segments) = [d] := by
  have hpush := deleters_pushSegments d hne []
  simpa [packetBuffers, deleters] using hpush

/-- The buffers are as small as the descriptors' lengths. Source: `sys/net.cpp` `eth_output`. Kind: L -/
theorem size_packetBuffers (d : Deleter) (segments : List Pbuf) :
    ∀ b ∈ (packetBuffers header d segments).map ConstBuffer.buf, b.size < 2 ^ 32 := by
  intro b hb
  rw [map_buf_packetBuffers] at hb
  rcases List.mem_cons.mp hb with rfl | hb
  · show headerSize < 2 ^ 32
    decide
  · obtain ⟨q, -, rfl⟩ := List.mem_map.mp (List.mem_reverse.mp hb)
    exact q.len.isLt.trans (by decide)

/-! ## The invariant -/

/-- The references are those of the chains in flight, and the calls are numbered.
Source: none: infrastructure
Kind: D -/
structure Inv (s : State) : Prop where
  used : Vring.Kept s.used
  refs : ∀ h, (s.references h).isSome ↔ h ∈ s.used.queue.inFlight
  refsSent : ∀ h bufs, s.references h = some bufs → ∀ d ∈ deleters bufs, d.call < s.sent
  callsSent : ∀ d, .pbufFree d ∈ s.calls → d.call < s.sent

variable {s s' : State} {p id head : ℕ} {segments : List Pbuf} {d : Deleter} {contents : List Buf} {op : Op}
variable {pbufHeader header}

/-- What sending does, when it returns. Source: `sys/net.cpp` `eth_output`. Kind: L -/
theorem output_spec (hi : Inv s) (hstep : step pbufHeader header s (.output p segments) = some s') :
    let bufs := packetBuffers header ⟨p, s.sent⟩ (onFirst (pbufHeader (-ethPadSize)) segments)
    let free := s.used.queue.ring.freeHead
    Vring.Kept s'.used ∧ s'.used.delivered = s.used.delivered ∧
      s'.used.completions = s.used.completions ∧
      s'.used.queue.pending = s.used.queue.pending ++ [free] ∧
      s'.used.queue.taken = s.used.queue.taken ∧ free ∉ s.used.queue.inFlight ∧
      s'.used.queue.ring.contents free = some (bufs.map ConstBuffer.buf) ∧
      (∀ h ∈ s.used.queue.inFlight, s'.used.queue.ring.contents h = s.used.queue.ring.contents h) ∧
      s'.references = Function.update s.references free (some bufs) ∧
      s'.calls = .pbufRef p :: s.calls ∧ s'.sent = s.sent + 1 := by
  intro bufs free
  simp only [step, ethOutput, send] at hstep
  obtain ⟨t, ht, rfl⟩ := Option.map_eq_some_iff.mp hstep
  unfold addReadableBuffer at ht
  obtain ⟨used, hused, ht⟩ := Option.map_eq_some_iff.mp ht
  obtain ⟨q, hq, rfl⟩ := Option.map_eq_some_iff.mp hused
  have hne : bufs.map ConstBuffer.buf ≠ [] := by simp [bufs, packetBuffers]
  obtain ⟨hkept, hpending, htaken, hfree, hcontents, hsame⟩ := hi.used.addReadable hne hq
  rw [Vring.map_mod_eq (size_packetBuffers header _ _)] at hcontents
  have hnone : s.references s.used.queue.ring.freeHead = none := by
    rw [← Option.not_isSome_iff_eq_none, hi.refs]
    exact hfree
  simp only [hnone] at ht
  subst ht
  exact ⟨hkept, rfl, rfl, hpending, htaken, hfree, hcontents, hsame, rfl, rfl, rfl⟩

/-- The buffers that are kept after a packet is sent are its own, or were kept before.
Source: `sys/virtio.hpp` `vring::add_readable_buffer`
Kind: L -/
theorem references_output {q : Pbuf} {rest : List Pbuf} (hi : Inv s)
    (hstep : step pbufHeader header s (.output p (q :: rest)) = some s') {h : ℕ} {bufs : List ConstBuffer}
    (hbufs : s'.references h = some bufs) :
    deleters bufs = [⟨p, s.sent⟩] ∨ s.references h = some bufs := by
  obtain ⟨-, -, -, -, -, -, -, -, hrefs, -, -⟩ := output_spec hi hstep
  rw [hrefs, Function.update_apply] at hbufs
  split at hbufs
  · obtain rfl := Option.some.inj hbufs
    exact Or.inl (deleters_packetBuffers header _ (by simp [onFirst]))
  · exact Or.inr hbufs

/-- A step of the device or of `clean_used_buffers`: nothing is processed and lwIP is not called, or the
chain of the element that was read is recycled and its buffers are destroyed.
Source: `sys/virtio.hpp` `vring::clean_used_buffers`
Kind: D -/
inductive Cleans (s s' : State) : Prop
  | nothing (processes : Vring.Processes s.used s'.used []) (references : s'.references = s.references)
      (calls : s'.calls = s.calls)
  | chain (elem : UsedElem) (bufs : List ConstBuffer) (processes : Vring.Processes s.used s'.used [elem])
      (held : s.references elem.id = some bufs)
      (references : s'.references = Function.update s.references elem.id none)
      (calls : s'.calls = (deleters bufs).map Call.pbufFree ++ s.calls)

/-- The queue goes one step on, and the rest stays.
Source: `sys/virtio.hpp` `vring`
Kind: L -/
theorem used_spec {t : State} (op : Vring.UsedOp) (hk : Vring.Kept t.used)
    (hlegal : Vring.UsedLegal t.used op) (hok : Vring.FirstRound t.used op)
    (hop : ∀ op', op = .queue op' → op' = .take)
    (hstep : (Vring.usedStep t.used op).map (fun used => { t with used := used }) = some s') :
    Vring.Kept s'.used ∧ t.used.completions <+: s'.used.completions ∧
      Vring.Processes t.used s'.used (t.used.processing op) ∧
      s'.references = t.references ∧ s'.calls = t.calls ∧ s'.sent = t.sent := by
  obtain ⟨used, hused, rfl⟩ := Option.map_eq_some_iff.mp hstep
  exact ⟨hk.step hlegal hok hused, Vring.completions_extend hused, hk.processes hlegal hop hused, rfl, rfl,
    rfl⟩

/-- What a step does that is not a call of `eth_output`.
Source: `sys/virtio.hpp` `vring::clean_used_buffers`
Kind: L -/
theorem ring_spec (hi : Inv s) (hop : ∀ p segments, op ≠ .output p segments) (hlegal : Legal s op)
    (hok : FirstRound s op) (hstep : step pbufHeader header s op = some s') :
    Vring.Kept s'.used ∧ s.used.completions <+: s'.used.completions ∧ s'.sent = s.sent ∧ Cleans s s' := by
  cases op with
  | output p segments => exact absurd rfl (hop p segments)
  | take =>
      obtain ⟨hkept, hextend, hp, hrefs, hcalls, hsent⟩ := used_spec (.queue .take) hi.used hlegal
        (fun h => nomatch h) (fun _ h => (Vring.UsedOp.queue.inj h).symm) hstep
      exact ⟨hkept, hextend, hsent, .nothing hp hrefs hcalls⟩
  | complete id len =>
      obtain ⟨hkept, hextend, hp, hrefs, hcalls, hsent⟩ := used_spec (.complete id len) hi.used hlegal
        (fun h => nomatch h) (fun _ h => nomatch h) hstep
      exact ⟨hkept, hextend, hsent, .nothing hp hrefs hcalls⟩
  | call =>
      obtain ⟨hkept, hextend, hp, hrefs, hcalls, hsent⟩ := used_spec (.call true) hi.used hlegal
        (fun h => nomatch h) (fun _ h => nomatch h) hstep
      exact ⟨hkept, hextend, hsent, .nothing hp hrefs hcalls⟩
  | run =>
      have hlegal : Vring.UsedLegal s.used .run := hlegal
      simp only [step, clean] at hstep
      by_cases hpc : ∃ c i elem, s.used.pc = .recycle c i elem
      · obtain ⟨c, i, elem, hpc⟩ := hpc
        obtain ⟨htaken, -, -⟩ := hi.used.mem_taken hpc
        obtain ⟨bufs, hbufs⟩ : ∃ bufs, s.references elem.id = some bufs :=
          Option.isSome_iff_exists.mp ((hi.refs elem.id).mpr (List.mem_append_right _ htaken))
        simp only [hpc, State.erase, hbufs, State.destroy] at hstep
        obtain ⟨hkept, hextend, hp, hrefs, hcalls, hsent⟩ := used_spec
          (t := { s with
            references := Function.update s.references elem.id none
            calls := (deleters bufs).map Call.pbufFree ++ s.calls })
          .run hi.used hlegal (hok rfl) (fun _ h => nomatch h) hstep
        have hprocessing : s.used.processing .run = [elem] := by
          simp only [Vring.UsedState.processing, hpc]
        rw [hprocessing] at hp
        exact ⟨hkept, hextend, hsent, .chain elem bufs hp hbufs hrefs hcalls⟩
      · push Not at hpc
        have hsame : (match s.used.pc with
          | .recycle _ _ elem => s.erase elem.id
          | _ => s) = s := by
          cases hp : s.used.pc with
          | recycle c i elem => exact absurd hp (hpc c i elem)
          | _ => rfl
        rw [hsame] at hstep
        obtain ⟨hkept, hextend, hp, hrefs, hcalls, hsent⟩ :=
          used_spec .run hi.used hlegal (hok rfl) (fun _ h => nomatch h) hstep
        rw [Vring.processing_run_eq_nil hpc] at hp
        exact ⟨hkept, hextend, hsent, .nothing hp hrefs hcalls⟩

/-- Who gives a packet back in a cleaning. Source: none: infrastructure. Kind: L -/
theorem pbufFree_mem_append {bufs : List ConstBuffer} {calls : List Call} :
    .pbufFree d ∈ (deleters bufs).map Call.pbufFree ++ calls ↔
      d ∈ deleters bufs ∨ .pbufFree d ∈ calls := by
  simp

/-- A packet is sent. Source: `sys/net.cpp` `eth_output`. Kind: L -/
theorem Inv.output (hi : Inv s) (hlegal : Legal s (.output p segments))
    (hstep : step pbufHeader header s (.output p segments) = some s') : Inv s' := by
  obtain ⟨q, rest, rfl, -⟩ := hlegal
  obtain ⟨hkept, -, -, hpending, htaken, -, -, -, hrefs, hcalls, hsent⟩ := output_spec hi hstep
  refine ⟨hkept, fun h => ?_, fun h bufs hbufs d hd => ?_, fun d hd => ?_⟩
  · have hold := hi.refs h
    unfold Vring.State.inFlight at hold ⊢
    rw [hrefs, hpending, htaken, Function.update_apply]
    simp only [List.mem_append, List.mem_singleton] at hold ⊢
    split
    · simp [*]
    · rename_i hne
      simp [hne, hold]
  · rw [hsent]
    rcases references_output hi hstep hbufs with hnew | hold
    · rw [hnew, List.mem_singleton] at hd
      rw [hd]
      exact Nat.lt_succ_self _
    · exact (hi.refsSent h bufs hold d hd).trans (Nat.lt_succ_self _)
  · rw [hsent]
    rw [hcalls, List.mem_cons] at hd
    rcases hd with hd | hd
    · simp at hd
    · exact (hi.callsSent d hd).trans (Nat.lt_succ_self _)

/-- The device or `clean_used_buffers` goes one step on.
Source: `sys/virtio.hpp` `vring::clean_used_buffers`
Kind: L -/
theorem Inv.cleans (hi : Inv s) (hkept : Vring.Kept s'.used) (hsent : s'.sent = s.sent)
    (hc : Cleans s s') : Inv s' := by
  cases hc with
  | nothing hp hrefs hcalls =>
      refine ⟨hkept, fun h => ?_, ?_, ?_⟩
      · rw [hrefs, hi.refs, hp.inFlight]
        simp
      · rw [hrefs, hsent]
        exact hi.refsSent
      · rw [hcalls, hsent]
        exact hi.callsSent
  | chain elem bufs hp hheld hrefs hcalls =>
      refine ⟨hkept, fun h => ?_, fun h bufs' hbufs' d hd => ?_, fun d hd => ?_⟩
      · rw [hrefs, hp.inFlight, Function.update_apply, ← hi.refs h]
        split
        · simp [*]
        · rename_i hne
          simp [hne]
      · rw [hsent]
        rw [hrefs, Function.update_apply] at hbufs'
        split at hbufs'
        · simp at hbufs'
        · exact hi.refsSent h bufs' hbufs' d hd
      · rw [hsent]
        rw [hcalls] at hd
        rcases pbufFree_mem_append.mp hd with hd | hd
        · exact hi.refsSent elem.id bufs hheld d hd
        · exact hi.callsSent d hd

/-- A step is a call of `eth_output`, or one of the device and `clean_used_buffers`.
Source: none: infrastructure
Kind: L -/
theorem output_or_ring (op : Op) :
    (∃ p segments, op = .output p segments) ∨ ∀ p segments, op ≠ .output p segments := by
  cases op with
  | output p segments => exact Or.inl ⟨p, segments, rfl⟩
  | _ => exact Or.inr nofun

/-- Every step keeps the invariant. Source: none: infrastructure. Kind: P -/
theorem Inv.step (hi : Inv s) (hlegal : Legal s op) (hok : FirstRound s op)
    (hstep : Transmit.step pbufHeader header s op = some s') : Inv s' := by
  rcases output_or_ring op with ⟨p, segments, rfl⟩ | hop
  · exact hi.output hlegal hstep
  · obtain ⟨hkept, -, hsent, hc⟩ := ring_spec hi hop hlegal hok hstep
    exact hi.cleans hkept hsent hc

/-- The invariant holds at the start. Source: none: infrastructure. Kind: L -/
theorem inv_init {k : ℕ} (hk : k < 16) (beyond : ℕ → UsedElem) : Inv (State.init (2 ^ k) beyond) where
  used := Vring.kept_init hk beyond
  refs h := by simp [State.init, Vring.UsedState.init, Vring.State.init, Vring.State.inFlight]
  refsSent h bufs hbufs := by simp [State.init] at hbufs
  callsSent d hd := by simp [State.init] at hd

/-! ## One packet in flight -/

/-- The packet sent as `d` is in flight with its chain at `head`, which describes `contents`.
Source: none: infrastructure
Kind: D -/
structure Flying (d : Deleter) (head : ℕ) (contents : List Buf) (s : State) : Prop where
  describes : Vring.Describes s.used.queue head contents
  held : ∃ bufs, s.references head = some bufs ∧ deleters bufs = [d]
  others : ∀ h ≠ head, ∀ bufs, s.references h = some bufs → d ∉ deleters bufs
  notFreed : .pbufFree d ∉ s.calls
  sent : d.call < s.sent

/-- The packet sent as `d` was given back.
Source: none: infrastructure
Kind: D -/
structure Freed (d : Deleter) (s : State) : Prop where
  once : s.calls.count (.pbufFree d) = 1
  none : ∀ h bufs, s.references h = some bufs → d ∉ deleters bufs
  sent : d.call < s.sent

/-- Sending another packet. Source: `sys/net.cpp` `eth_output`. Kind: L -/
theorem Flying.output (hf : Flying d head contents s) (hi : Inv s)
    (hlegal : Legal s (.output p segments))
    (hstep : step pbufHeader header s (.output p segments) = some s') :
    Flying d head contents s' := by
  obtain ⟨q, rest, rfl, -⟩ := hlegal
  obtain ⟨-, -, -, hpending, htaken, hfree, -, hsame, hrefs, hcalls, hsent⟩ := output_spec hi hstep
  obtain ⟨hin, hcontents⟩ := hf.describes
  have hne : head ≠ s.used.queue.ring.freeHead := by
    rintro rfl
    exact hfree hin
  refine ⟨⟨?_, ?_⟩, ?_, fun h hh bufs hbufs => ?_, ?_, ?_⟩
  · unfold Vring.State.inFlight at hin ⊢
    rw [hpending, htaken]
    simp only [List.mem_append] at hin ⊢
    tauto
  · rw [hsame head hin]
    exact hcontents
  · rw [hrefs, Function.update_of_ne hne]
    exact hf.held
  · rcases references_output hi hstep hbufs with hnew | hold
    · rw [hnew, List.mem_singleton]
      rintro rfl
      exact absurd hf.sent (lt_irrefl _)
    · exact hf.others h hh bufs hold
  · rw [hcalls]
    simp [hf.notFreed]
  · rw [hsent]
    exact hf.sent.trans (Nat.lt_succ_self _)

/-- The device takes or completes a chain, or `clean_used_buffers` recycles another one.
Source: `sys/virtio.hpp` `vring::clean_used_buffers`
Kind: L -/
theorem Flying.cleans {new : List UsedElem} (hf : Flying d head contents s) (hi : Inv s)
    (hsent : s'.sent = s.sent) (hc : Cleans s s') (hnew : s'.used.delivered = s.used.delivered ++ new)
    (hout : head ∉ new.map UsedElem.id) : Flying d head contents s' := by
  cases hc with
  | nothing hp hrefs hcalls =>
      refine ⟨hf.describes.processes hi.used hp List.not_mem_nil, ?_, ?_, ?_, ?_⟩
      · rw [hrefs]
        exact hf.held
      · rw [hrefs]
        exact hf.others
      · rw [hcalls]
        exact hf.notFreed
      · rw [hsent]
        exact hf.sent
  | chain elem bufs hp hheld hrefs hcalls =>
      obtain rfl : new = [elem] := List.append_cancel_left (hnew.symm.trans hp.delivered)
      have hne : head ≠ elem.id := by simpa using hout
      refine ⟨hf.describes.processes hi.used hp hout, ?_, fun h hh bufs' hbufs' => ?_, ?_, ?_⟩
      · rw [hrefs, Function.update_of_ne hne]
        exact hf.held
      · rw [hrefs, Function.update_apply] at hbufs'
        split at hbufs'
        · simp at hbufs'
        · exact hf.others h hh bufs' hbufs'
      · rw [hcalls, pbufFree_mem_append, not_or]
        exact ⟨hf.others elem.id hne.symm bufs hheld, hf.notFreed⟩
      · rw [hsent]
        exact hf.sent

/-- Recycling its chain gives the packet back. Source: `sys/virtio.hpp` `vring::clean_used_buffers`. Kind: L -/
theorem Flying.freed {new : List UsedElem} (hf : Flying d head contents s) (hsent : s'.sent = s.sent)
    (hc : Cleans s s') (hnew : s'.used.delivered = s.used.delivered ++ new)
    (hin : head ∈ new.map UsedElem.id) : Freed d s' := by
  cases hc with
  | nothing hp _ _ =>
      obtain rfl : new = [] := List.append_cancel_left (hnew.symm.trans hp.delivered)
      exact absurd hin List.not_mem_nil
  | chain elem bufs hp hheld hrefs hcalls =>
      obtain rfl : new = [elem] := List.append_cancel_left (hnew.symm.trans hp.delivered)
      obtain rfl : head = elem.id := by simpa using hin
      obtain ⟨bufs', hbufs', hdel⟩ := hf.held
      obtain rfl := Option.some.inj (hbufs'.symm.trans hheld)
      refine ⟨?_, fun h bufs'' hbufs'' => ?_, ?_⟩
      · rw [hcalls, hdel]
        simp [List.count_eq_zero.mpr hf.notFreed]
      · rw [hrefs, Function.update_apply] at hbufs''
        split at hbufs''
        · simp at hbufs''
        · rename_i hne
          exact hf.others h hne bufs'' hbufs''
      · rw [hsent]
        exact hf.sent

/-- A packet that was given back is not given back again. Source: none: infrastructure. Kind: L -/
theorem Freed.step (hf : Freed d s) (hi : Inv s) (hlegal : Legal s op) (hok : FirstRound s op)
    (hstep : Transmit.step pbufHeader header s op = some s') : Freed d s' := by
  rcases output_or_ring op with ⟨p, segments, rfl⟩ | hop
  · obtain ⟨q, rest, rfl, -⟩ := hlegal
    obtain ⟨-, -, -, -, -, -, -, -, -, hcalls, hsent⟩ := output_spec hi hstep
    refine ⟨?_, fun h bufs hbufs => ?_, ?_⟩
    · rw [hcalls, List.count_cons_of_ne (by simp)]
      exact hf.once
    · rcases references_output hi hstep hbufs with hnew | hold
      · rw [hnew, List.mem_singleton]
        rintro rfl
        exact absurd hf.sent (lt_irrefl _)
      · exact hf.none h bufs hold
    · rw [hsent]
      exact hf.sent.trans (Nat.lt_succ_self _)
  · obtain ⟨-, -, hsent, hc⟩ := ring_spec hi hop hlegal hok hstep
    cases hc with
    | nothing _ hrefs hcalls =>
        refine ⟨?_, ?_, ?_⟩
        · rw [hcalls]
          exact hf.once
        · rw [hrefs]
          exact hf.none
        · rw [hsent]
          exact hf.sent
    | chain elem bufs _ hheld hrefs hcalls =>
        refine ⟨?_, fun h bufs' hbufs' => ?_, ?_⟩
        · have hnot : .pbufFree d ∉ (deleters bufs).map Call.pbufFree := by
            simpa using hf.none elem.id bufs hheld
          rw [hcalls, List.count_append, List.count_eq_zero.mpr hnot, Nat.zero_add]
          exact hf.once
        · rw [hrefs, Function.update_apply] at hbufs'
          split at hbufs'
          · simp at hbufs'
          · exact hf.none h bufs' hbufs'
        · rw [hsent]
          exact hf.sent

/-- What a step adds to the completions and to those that were processed.
Source: none: infrastructure
Kind: L -/
theorem step_grows (hi : Inv s) (hlegal : Legal s op) (hok : FirstRound s op)
    (hstep : step pbufHeader header s op = some s') :
    s.used.completions <+: s'.used.completions ∧ ∃ new, s'.used.delivered = s.used.delivered ++ new := by
  rcases output_or_ring op with ⟨p, segments, rfl⟩ | hop
  · obtain ⟨-, hdelivered, hcompletions, -⟩ := output_spec hi hstep
    exact ⟨by rw [hcompletions], [], by rw [hdelivered, List.append_nil]⟩
  · obtain ⟨-, hextend, -, hc⟩ := ring_spec hi hop hlegal hok hstep
    cases hc with
    | nothing hp _ _ => exact ⟨hextend, [], hp.delivered⟩
    | chain elem bufs hp _ _ _ => exact ⟨hextend, [elem], hp.delivered⟩

/-- **A packet over one step.** It stays in flight unless its chain is processed, and then it is given back.
Source: `sys/virtio.hpp` `vring::clean_used_buffers`
Kind: P -/
theorem Flying.step {new : List UsedElem} (hf : Flying d head contents s) (hi : Inv s)
    (hlegal : Legal s op) (hok : FirstRound s op)
    (hstep : Transmit.step pbufHeader header s op = some s')
    (hnew : s'.used.delivered = s.used.delivered ++ new) :
    (head ∉ new.map UsedElem.id → Flying d head contents s') ∧
      (head ∈ new.map UsedElem.id → Freed d s') := by
  rcases output_or_ring op with ⟨p, segments, rfl⟩ | hop
  · obtain ⟨-, hdelivered, -⟩ := output_spec hi hstep
    obtain rfl : new = [] := by
      rw [hdelivered] at hnew
      exact List.self_eq_append_right.mp hnew
    exact ⟨fun _ => hf.output hi hlegal hstep, fun hin => absurd hin List.not_mem_nil⟩
  · obtain ⟨-, -, hsent, hc⟩ := ring_spec hi hop hlegal hok hstep
    exact ⟨hf.cleans hi hsent hc hnew, hf.freed hsent hc hnew⟩

/-- **A packet over whole runs.** Until its chain is processed it is in flight with the same contents, and
then it is given back, once.
Source: `sys/virtio.hpp` `vring::clean_used_buffers`
Kind: P -/
theorem Flying.run {ops : List Op} (hf : Flying d head contents s) (hi : Inv s)
    (hrun : ((system pbufHeader header).guard FirstRound).Run s ops s') :
    Inv s' ∧ s.used.completions <+: s'.used.completions ∧
      (head ∉ Vring.processedSince s.used s'.used → Flying d head contents s') ∧
      (head ∈ Vring.processedSince s.used s'.used → Freed d s') := by
  suffices h : s.used.delivered.length ≤ s'.used.delivered.length ∧ Inv s' ∧
      s.used.completions <+: s'.used.completions ∧
      (head ∉ Vring.processedSince s.used s'.used → Flying d head contents s') ∧
      (head ∈ Vring.processedSince s.used s'.used → Freed d s') from h.2
  induction hrun with
  | nil =>
      refine ⟨le_rfl, hi, List.prefix_rfl, fun _ => hf, fun hin => ?_⟩
      unfold Vring.processedSince at hin
      rw [List.drop_length] at hin
      exact absurd hin List.not_mem_nil
  | @snoc ops t op t' _ hlegal hstep ih =>
      obtain ⟨hle, hit, hextend, hfly, hfreed⟩ := ih
      obtain ⟨hgrow, new, hnew⟩ := step_grows hit hlegal.1 hlegal.2 hstep
      refine ⟨?_, hit.step hlegal.1 hlegal.2 hstep, hextend.trans hgrow, fun hout => ?_, fun hin => ?_⟩
      · rw [hnew, List.length_append]
        exact hle.trans (Nat.le_add_right _ _)
      · rw [Vring.processedSince_append hnew hle, List.mem_append, not_or] at hout
        exact ((hfly hout.1).step hit hlegal.1 hlegal.2 hstep hnew).1 hout.2
      · rw [Vring.processedSince_append hnew hle, List.mem_append] at hin
        by_cases hbefore : head ∈ Vring.processedSince s.used t.used
        · exact (hfreed hbefore).step hit hlegal.1 hlegal.2 hstep
        · exact ((hfly hbefore).step hit hlegal.1 hlegal.2 hstep hnew).2 (hin.resolve_left hbefore)

/-- The invariant after a run. Source: none: infrastructure. Kind: L -/
theorem inv_of_run {k : ℕ} (hk : k < 16) {beyond : ℕ → UsedElem} {ops : List Op}
    (hrun : ((system pbufHeader header).guard FirstRound).Run (State.init (2 ^ k) beyond) ops s) : Inv s := by
  apply hrun.invariant
  · exact inv_init hk beyond
  · intro s op s' hi hlegal hstep
    exact hi.step hlegal.1 hlegal.2 hstep

/-- After `pbuf_header` the buffers of the segments are their payloads without the pad.
Source: `sys/net.cpp` `eth_output`
Kind: L -/
theorem map_onFirst_pbufHeader
    (hheader : ∀ q : Pbuf, ethPadSize ≤ q.len.toNat →
      pbufHeader (-ethPadSize) q = ⟨q.payload + ethPadSize, q.len - ethPadSize⟩)
    (hlegal : Legal s (.output p segments)) :
    (onFirst (pbufHeader (-ethPadSize)) segments).map (fun q => (⟨q.payload, q.len.toNat⟩ : Buf)) =
      payloads segments := by
  obtain ⟨q, rest, rfl, hpad⟩ := hlegal
  unfold payloads onFirst
  simp only [hheader q hpad]

/-- When `clean_used_buffers` returns, everything completed is processed.
Source: `sys/virtio.hpp` `vring::clean_used_buffers`
Kind: L -/
theorem delivered_eq_of_returns (hi : Inv s) (hstep : clean s = some s')
    (hidle : s'.used.pc = .idle) : s'.used.delivered = s'.used.completions := by
  have hused : ∃ t : State, t.used = s.used ∧ (Vring.usedStep t.used .run).map
      (fun used => { t with used := used }) = some s' := by
    refine ⟨_, ?_, hstep⟩
    split
    · unfold State.erase
      split
      · rfl
      · rfl
    · rfl
  obtain ⟨t, ht, hmap⟩ := hused
  obtain ⟨used, hrun, rfl⟩ := Option.map_eq_some_iff.mp hmap
  rw [ht] at hrun
  exact hi.used.delivered_eq hrun hidle

/-- A packet that was sent is in flight, with the header and the payloads in reverse order, and its chain
was not completed before.
Source: `sys/net.cpp` `eth_output`
Kind: L -/
theorem flying_of_output (hi : Inv s)
    (hheader : ∀ q : Pbuf, ethPadSize ≤ q.len.toNat →
      pbufHeader (-ethPadSize) q = ⟨q.payload + ethPadSize, q.len - ethPadSize⟩)
    (hlegal : Legal s (.output p segments))
    (hstep : step pbufHeader header s (.output p segments) = some s') :
    s'.used.queue.pending = s.used.queue.pending ++ [s.used.queue.ring.freeHead] ∧
      s.used.queue.ring.freeHead ∉ s'.used.outstanding ∧
      Flying ⟨p, s.sent⟩ s.used.queue.ring.freeHead
        (⟨header, headerSize⟩ :: (payloads segments).reverse) s' := by
  have hmap := map_onFirst_pbufHeader hheader hlegal
  obtain ⟨hkept, hdelivered, hcompletions, hpending, htaken, hfree, hcontents, -, hrefs, hcalls, hsent⟩ :=
    output_spec hi hstep
  have hne : onFirst (pbufHeader (-ethPadSize)) segments ≠ [] := by
    obtain ⟨q, rest, rfl, -⟩ := hlegal
    simp [onFirst]
  refine ⟨hpending, fun hout => ?_, ⟨?_, ?_⟩, ?_, fun h hh bufs hbufs hd => ?_, ?_, ?_⟩
  · have htook := hkept.returned _ hout
    rw [htaken] at htook
    exact hfree (List.mem_append_right _ htook)
  · unfold Vring.State.inFlight
    rw [hpending]
    simp
  · rw [hcontents, map_buf_packetBuffers, hmap]
  · rw [hrefs, Function.update_self]
    exact ⟨_, rfl, deleters_packetBuffers header _ hne⟩
  · rw [hrefs, Function.update_of_ne hh] at hbufs
    exact absurd (hi.refsSent h bufs hbufs _ hd) (lt_irrefl _)
  · rw [hcalls, List.mem_cons, not_or]
    exact ⟨by simp, fun hd => absurd (hi.callsSent _ hd) (lt_irrefl _)⟩
  · rw [hsent]
    exact Nat.lt_succ_self _

/-! ## The order of the bytes -/

/-- **A packet arrives in order exactly when its segments may be reversed.** A packet sent after any run
of the transmit queue is delivered (until its chain is processed, the device finds the header and then
the segments' bytes in it, and afterwards the packet was given back once) if and only if the bytes of
its segments are the same in the reverse order of the segments.
Source: `sys/net.cpp` `eth_output`, `sys/virtio_net.cpp` `virtio_net_driver::send`
Kind: C
Fidelity: in the runs before and after the packet every used element is read when fewer than `qsize_`
completions were processed; what is read past the end of the used ring may be anything
Hyps: `hheader`, what lwIP documents of `pbuf_header` -/
theorem ethOutput_exactlyWhen (pbufHeader : ℤ → Pbuf → Pbuf) (header : ℕ)
    (hheader : ∀ q : Pbuf, ethPadSize ≤ q.len.toNat →
      pbufHeader (-ethPadSize) q = ⟨q.payload + ethPadSize, q.len - ethPadSize⟩)
    (k : ℕ) (hk : k < 16) (beyond : ℕ → UsedElem) (ops : List Op) (s s' : State)
    (hrun : ((system pbufHeader header).guard FirstRound).Run (State.init (2 ^ k) beyond) ops s)
    (p : ℕ) (segments : List Pbuf) (hlegal : Legal s (.output p segments))
    (hstep : step pbufHeader header s (.output p segments) = some s') (head : ℕ)
    (hhead : s'.used.queue.pending.getLast? = some head) (mem : ℕ → BitVec 8) :
    Delivered header ((system pbufHeader header).guard FirstRound) mem segments ⟨p, s.sent⟩ head s' ↔
      (payloads segments).reverse.flatMap (bytes mem) =
        (payloads segments).flatMap (bytes mem) := by
  have hi := inv_of_run hk hrun
  have hi' := hi.output hlegal hstep
  obtain ⟨hpending, hnew, hf⟩ := flying_of_output hi hheader hlegal hstep
  obtain rfl : s.used.queue.ring.freeHead = head := by simpa [hpending] using hhead
  constructor
  · intro hd
    have hnone : s.used.queue.ring.freeHead ∉ Vring.processedSince s'.used s'.used := by
      simp [Vring.processedSince]
    obtain ⟨-, bufs, hbufs, hbytes⟩ := hd.sees [] s' System.Run.nil hnone
    obtain rfl := Option.some.inj (hf.describes.2.symm.trans hbufs)
    rw [List.flatMap_cons] at hbytes
    exact List.append_cancel_left hbytes
  · intro hsame
    refine ⟨fun ops' t hrun' hout => ?_, fun ops' t hrun' hin => ?_,
      fun ops' t t' hrun' hlegal' hstep' hidle hdone => ?_⟩
    · have hft := (hf.run hi' hrun').2.2.1 hout
      refine ⟨List.count_eq_zero.mpr hft.notFreed, _, hft.describes.2, ?_⟩
      rw [List.flatMap_cons, hsame]
    · obtain ⟨hit, hgrow, -, hfreed⟩ := hf.run hi' hrun'
      exact ⟨(hfreed hin).once, Vring.mem_completedSince hi'.used hit.used hgrow hnew hin⟩
    · -- the loop returns when everything completed is processed
      obtain ⟨-, -, -, hfreed⟩ := hf.run hi' (hrun'.snoc hlegal' hstep')
      obtain ⟨hit, -⟩ := hf.run hi' hrun'
      have hall := delivered_eq_of_returns hit hstep' hidle
      have hle := hi'.used.inOrder.length_le
      refine (hfreed ?_).once
      unfold Vring.processedSince
      rw [hall]
      exact List.map_subset _ (List.drop_subset_drop_left _ hle) hdone

end

/-- What `pbuf_header` does to the fields that are read. Source: `sys/net.cpp` `eth_output`. Kind: D -/
def movePayload (increment : ℤ) (q : Pbuf) : Pbuf :=
  ⟨(q.payload - increment).toNat, q.len + BitVec.ofInt 16 increment⟩

/-- Hiding the pad. Source: `sys/net.cpp` `eth_output`. Kind: L -/
theorem movePayload_pad (q : Pbuf) :
    movePayload (-ethPadSize) q = ⟨q.payload + ethPadSize, q.len - ethPadSize⟩ := by
  unfold movePayload
  rw [BitVec.sub_eq_add_neg]
  congr 1

/-- A packet of one segment is delivered. Source: `sys/net.cpp` `eth_output`. Kind: C -/
theorem ethOutput_exactlyWhen_single :
    ∃ s', step movePayload 64 (State.init (2 ^ 2) fun _ => ⟨0, 0⟩) (.output 100 [⟨1000, 60⟩]) =
        some s' ∧
      Delivered 64 ((system movePayload 64).guard FirstRound) (fun a => BitVec.ofNat 8 a) [⟨1000, 60⟩]
        ⟨100, 0⟩ 0 s' := by
  obtain ⟨s', hs'⟩ : ∃ s', step movePayload 64 (State.init (2 ^ 2) fun _ => ⟨0, 0⟩)
      (.output 100 [⟨1000, 60⟩]) = some s' := ⟨_, rfl⟩
  have hhead : s'.used.queue.pending.getLast? = some 0 := by
    obtain rfl := Option.some.inj hs'
    rfl
  exact ⟨s', hs', (ethOutput_exactlyWhen movePayload 64 (fun q _ => movePayload_pad q) 2 (by decide)
    (fun _ => ⟨0, 0⟩) [] _ s' System.Run.nil 100 [⟨1000, 60⟩] ⟨_, _, rfl, by decide⟩ hs' 0 hhead
    _).mpr rfl⟩

/-- A packet of two segments, with one byte each behind the pad, arrives with the second first.
Source: `sys/net.cpp` `eth_output`
Kind: C -/
theorem ethOutput_not_always :
    ¬ ∀ pbufHeader header, (∀ q : Pbuf, ethPadSize ≤ q.len.toNat →
        pbufHeader (-ethPadSize) q = ⟨q.payload + ethPadSize, q.len - ethPadSize⟩) →
      ∀ k < 16, ∀ beyond ops s s',
        (system pbufHeader header).Run (State.init (2 ^ k) beyond) ops s → ∀ p segments,
        Legal s (.output p segments) → step pbufHeader header s (.output p segments) = some s' →
        ∀ head, s'.used.queue.pending.getLast? = some head →
        ∀ mem, Delivered header (system pbufHeader header) mem segments ⟨p, s.sent⟩ head s' := by
  intro hall
  obtain ⟨s', hs'⟩ : ∃ s', step movePayload 64 (State.init (2 ^ 2) fun _ => ⟨0, 0⟩)
      (.output 100 [⟨1000, 3⟩, ⟨2000, 1⟩]) = some s' := ⟨_, rfl⟩
  have hhead : s'.used.queue.pending.getLast? = some 0 := by
    obtain rfl := Option.some.inj hs'
    rfl
  have hcontents : s'.used.queue.ring.contents 0 = some [⟨64, 12⟩, ⟨2000, 1⟩, ⟨1002, 1⟩] := by
    obtain rfl := Option.some.inj hs'
    decide +kernel
  have hd := hall movePayload 64 (fun q _ => movePayload_pad q) 2 (by decide) (fun _ => ⟨0, 0⟩) [] _
    s' System.Run.nil 100 [⟨1000, 3⟩, ⟨2000, 1⟩] ⟨_, _, rfl, by decide⟩ hs' 0 hhead
    (fun a => if a < 2000 then 1 else 2)
  obtain ⟨-, bufs, hbufs, hbytes⟩ := hd.sees [] s' System.Run.nil (by simp [Vring.processedSince])
  obtain rfl := Option.some.inj (hcontents.symm.trans hbufs)
  exact absurd hbytes (by decide +kernel)

end Transmit

end EbbRT
