import EbbRT.Virtio.VringContents
import EbbRT.Virtio.WritableBuffers

/-!
# Batches of released buffers

Buffers are released when they are added, and a batch may be refused: then the chains in front of the
refused list are in no one's hands, as if the device had taken them for good (`State.lose`). `batch_spec`
says what a batch leaves of the chains in flight and what its own chains describe.
-/

namespace EbbRT

open EbbRT.Lib

namespace Vring

/-! ## What the driver adds -/

/-- The two functions that add buffers.
Source: `sys/virtio.hpp` `vring::add_writable_buffers`, `vring::add_readable_buffer`
Kind: D -/
inductive BufferOp where
  | addWritableBuffers (lists : List (List MutableBuffer))
  | addReadableBuffer (bufs : List Buf)
  deriving DecidableEq, Repr

/-- What the device finds in the avail ring from the old index to the new one.
Source: `sys/virtio.hpp` `vring::avail`
Kind: D -/
def publishedBy (r r' : Vring) : List ℕ :=
  (List.range ((r'.availIdx + half - r.availIdx) % half)).map fun i =>
    r'.availRing ((r.availIdx + i) % half % r'.qsize)

/-- Adding; a batch may be refused.
Source: `sys/virtio.hpp` `vring::add_writable_buffers`, `vring::add_readable_buffer`
Kind: D -/
def bufferStep (s : State) : BufferOp → Option State
  | .addWritableBuffers lists =>
      (addMutableBuffers lists s.ring).map fun b =>
        { s with ring := b.ring, pending := s.pending ++ publishedBy s.ring b.ring }
  | .addReadableBuffer bufs => step s (.addReadableBuffer bufs)

/-! ## One batch -/

variable {r r' : Vring} {pending others : List ℕ} {lastAvail availIdx : ℕ}
  {lists : List (List MutableBuffer)} {b : Batch}

/-- The buffers as the descriptors hold them. Source: `sys/virtio.hpp` `vring::desc`. Kind: D -/
def encoded (list : List MutableBuffer) : List Buf :=
  list.map fun buf => ⟨buf.base, (buf.size + buf.offset) % word % 2 ^ 32⟩

/-- The ring `r'` has chains from `heads` in the slots behind `pending` that describe `lists`; the chains
that were in flight in `r` are the same.
Source: none: infrastructure
Kind: D -/
structure Extends (r r' : Vring) (lastAvail availIdx : ℕ) (pending heads others : List ℕ)
    (lists : List (List MutableBuffer)) : Prop where
  ring : RingInv r' (pending ++ heads ++ others)
  slots : SlotInv r' lastAvail availIdx (pending ++ heads)
  size : r'.qsize = r.qsize
  same : ∀ h ∈ pending ++ others, r'.contents h = r.contents h
  chains : List.Forall₂ (fun head list => r'.contents head = some (encoded list)) heads lists

/-- Nothing is added. Source: none: infrastructure. Kind: L -/
theorem Extends.refl (hr : RingInv r (pending ++ others))
    (hs : SlotInv r lastAvail availIdx pending) : Extends r r lastAvail availIdx pending [] others [] where
  ring := by rwa [List.append_nil]
  slots := by rwa [List.append_nil]
  size := rfl
  same _ _ := rfl
  chains := List.Forall₂.nil

/-- **The loop over the lists.** Every list with buffers becomes a chain in the next slot that describes
it, and the chains that were in flight before stay as they are.
Source: `sys/virtio.hpp` `vring::add_writable_buffers`
Kind: P -/
theorem batchLoop_extends (hr : RingInv r (pending ++ others))
    (hs : SlotInv r lastAvail availIdx pending) (hq : r.qsize ∣ half)
    (h : batchLoop lists r availIdx = some b) :
    ∃ heads, Extends r b.ring lastAvail b.availIdx pending heads others (accepted lists b.it) := by
  induction lists generalizing r availIdx pending b with
  | nil =>
      obtain rfl := Option.some.inj h
      exact ⟨[], Extends.refl hr hs⟩
  | cons list rest ih =>
      by_cases hne : list = []
      · subst hne
        rw [batchLoop_nil_cons] at h
        obtain ⟨b', htail, rfl⟩ := Option.map_eq_some_iff.mp h
        exact ih hr hs hq htail
      · by_cases hlt : r.freeCount < list.length
        · rw [batchLoop_cons_of_lt hne hlt] at h
          obtain rfl := Option.some.inj h
          exact ⟨[], Extends.refl hr hs⟩
        · have hle := Nat.le_of_not_lt hlt
          obtain ⟨list', b', htail, rfl⟩ := batchLoop_cons_of_le hne hle h
          set bufs := list.map MutableBuffer.whole with hbufs
          have hbne : bufs ≠ [] := by simpa [hbufs] using hne
          have hble : bufs.length ≤ r.freeCount := by rwa [hbufs, List.length_map]
          obtain ⟨hr', hs', hq', -⟩ := addChain_setAvail hr hs hq true hbne hble
          obtain ⟨heads, htail⟩ := ih hr' hs' (hq'.symm ▸ hq) htail
          have hnew : (addChain true bufs r).1.contents r.freeHead = some (encoded list) := by
            rw [contents_addChain_mod hr true hbne hble, hbufs, List.map_map]
            rfl
          refine ⟨r.freeHead :: heads, ?_, ?_, htail.size.trans hq', fun h hh => ?_, ?_⟩
          · have hring := htail.ring
            rwa [List.append_assoc pending] at hring
          · have hslots := htail.slots
            rwa [List.append_assoc pending] at hslots
          · have hmem : h ∈ pending ++ [r.freeHead] ++ others := by
              rcases List.mem_append.mp hh with hp | ho
              · exact List.mem_append_left _ (List.mem_append_left _ hp)
              · exact List.mem_append_right _ ho
            exact (htail.same h hmem).trans (contents_addChain_of_mem hr true hbne hble hh)
          · show List.Forall₂ _ _ (accepted (list :: rest) (b'.it + 1))
            rw [accepted_cons hne]
            have hmem : r.freeHead ∈ pending ++ [r.freeHead] ++ others := by simp
            exact List.Forall₂.cons ((htail.same _ hmem).trans hnew) htail.chains

/-- The heads in the slots between the two indices are what the device finds there.
Source: `sys/virtio.hpp` `vring::avail`
Kind: L -/
theorem publishedBy_eq {heads : List ℕ} (hs : SlotInv r lastAvail r.availIdx pending)
    (hs' : SlotInv r' lastAvail r'.availIdx (pending ++ heads)) (hlen : heads.length < half) :
    publishedBy r r' = heads := by
  have hold := hs.index
  have hnew := hs'.index
  rw [List.length_append, ← Nat.add_assoc] at hnew
  have hcount : (r'.availIdx + half - r.availIdx) % half = heads.length := by
    have hle : r.availIdx < half := hold ▸ Nat.mod_lt _ (by decide)
    unfold half at *
    omega
  unfold publishedBy
  rw [hcount]
  apply List.ext_getElem?
  intro i
  by_cases hi : i < heads.length
  · have hslot := hs'.slots (pending.length + i) heads[i] (by
      rw [List.getElem?_append_right (Nat.le_add_right _ _), Nat.add_sub_cancel_left]
      exact List.getElem?_eq_getElem hi)
    rw [List.getElem?_map, List.getElem?_range hi, Option.map_some, hold, Nat.mod_add_mod,
      Nat.add_assoc, hslot, List.getElem?_eq_getElem hi]
  · have hge := Nat.le_of_not_lt hi
    rw [List.getElem?_eq_none (by simpa using hge), List.getElem?_eq_none hge]

/-- Nothing is published when the index stays. Source: `sys/virtio.hpp` `vring::avail`. Kind: L -/
theorem publishedBy_of_eq (h : r'.availIdx = r.availIdx) : publishedBy r r' = [] := by
  unfold publishedBy
  rw [h, Nat.add_sub_cancel_left, Nat.mod_self]
  rfl

/-- A call that returns leaves what the loop has reached, and at the end publishes it.
Source: `sys/virtio.hpp` `vring::add_writable_buffers`
Kind: L -/
theorem addMutableBuffers_cases (h : addMutableBuffers lists r = some b) :
    ∃ b', batchLoop lists r r.availIdx = some b' ∧ b'.it = b.it ∧
      (b.it < lists.length ∧ b.ring = b'.ring ∨
        ¬ b.it < lists.length ∧
          b.ring = { b'.ring with availIdx := b'.availIdx, kicks := b.ring.kicks }) := by
  obtain ⟨b', hloop, hb⟩ := Option.map_eq_some_iff.mp h
  refine ⟨b', hloop, ?_⟩
  by_cases hit : b'.it < lists.length
  · rw [if_pos (Or.inr hit)] at hb
    subst hb
    exact ⟨rfl, Or.inl ⟨hit, rfl⟩⟩
  · by_cases hnil : lists = []
    · rw [if_pos (Or.inl hnil)] at hb
      subst hb hnil
      obtain rfl := Option.some.inj hloop
      exact ⟨rfl, Or.inr ⟨hit, rfl⟩⟩
    · rw [if_neg (not_or.mpr ⟨hnil, hit⟩)] at hb
      subst hb
      exact ⟨rfl, Or.inr ⟨hit, rfl⟩⟩

/-- Owned buffers that fit in the free descriptors are all added.
Source: `sys/virtio.hpp` `vring::add_writable_buffers`
Kind: L -/
theorem batchLoop_of_fits (r : Vring) (availIdx : ℕ)
    (howned : ∀ list ∈ lists, ∀ buf ∈ list, buf.ptr ≠ 0)
    (hfit : (lists.map List.length).sum ≤ r.freeCount) :
    ∃ b, batchLoop lists r availIdx = some b ∧ b.it = lists.length := by
  induction lists generalizing r availIdx with
  | nil => exact ⟨_, rfl, rfl⟩
  | cons list rest ih =>
      rw [List.map_cons, List.sum_cons] at hfit
      have howned' : ∀ list ∈ rest, ∀ buf ∈ list, buf.ptr ≠ 0 :=
        fun l hl => howned l (List.mem_cons_of_mem _ hl)
      by_cases hne : list = []
      · subst hne
        obtain ⟨b, hloop, hit⟩ := ih r availIdx howned' (by simpa using hfit)
        refine ⟨b.behind [], ?_, congrArg (· + 1) hit⟩
        rw [batchLoop_nil_cons, hloop]
        rfl
      · set a := addChain true (list.map MutableBuffer.whole) r with ha
        have hcount : (a.1.setAvail availIdx a.2).freeCount = r.freeCount - list.length := by
          show a.1.freeCount = _
          rw [ha, addChain_eq, List.length_map]
        obtain ⟨b, hloop, hit⟩ := ih (a.1.setAvail availIdx a.2) ((availIdx + 1) % half) howned'
          (by omega)
        refine ⟨b.behind (list.map fun buf => { buf with ptr := 0 }), ?_, congrArg (· + 1) hit⟩
        unfold batchLoop
        rw [if_neg hne, if_neg (by omega), releaseAll_eq (howned list List.mem_cons_self)]
        simp only [Option.bind_eq_bind, Option.bind_some]
        rw [← ha, hloop]
        rfl

/-! ## Lost chains -/

/-- The device has taken `lost` too, and never gives it back.
Source: none: infrastructure
Kind: D -/
def State.lose (s : State) (lost : List ℕ) : State := { s with taken := s.taken ++ lost }

variable {s s' : State} {lost : List ℕ}

/-- **A batch.** What was in flight stays so, with the same contents, and what is published is new; if the
batch comes to its end, each list with buffers is described by a new chain.
Source: `sys/virtio.hpp` `vring::add_writable_buffers`
Kind: P -/
theorem batch_spec (hi : Inv (s.lose lost)) (h : addMutableBuffers lists s.ring = some b)
    (hs' : s' = { s with ring := b.ring, pending := s.pending ++ publishedBy s.ring b.ring }) :
    ∃ lost', Inv (s'.lose lost') ∧
      (∀ h ∈ s.pending ++ (s.taken ++ lost), h ∈ s'.pending ++ (s'.taken ++ lost')) ∧
      (∀ h ∈ s.pending ++ (s.taken ++ lost), s'.ring.contents h = s.ring.contents h) ∧
      (∀ h ∈ publishedBy s.ring b.ring, h ∉ s.pending ++ (s.taken ++ lost)) ∧
      (b.it = lists.length → List.Forall₂ (fun head list => s'.ring.contents head = some (encoded list))
        (publishedBy s.ring b.ring) (accepted lists lists.length)) := by
  obtain ⟨b', hloop, hit, hcase⟩ := addMutableBuffers_cases h
  obtain ⟨heads, hext⟩ := batchLoop_extends hi.ring hi.slots hi.size.1 hloop
  have hext : Extends s.ring b'.ring s.lastAvail b'.availIdx s.pending heads (s.taken ++ lost)
      (accepted lists b'.it) := hext
  have hsize : b'.ring.qsize ∣ half ∧ b'.ring.qsize < half := hext.size ▸ hi.size
  rcases hcase with ⟨hrefused, hring⟩ | ⟨hend, hring⟩
  · -- the chains in front of the refused list are lost
    have hidx : b.ring.availIdx = s.ring.availIdx := by
      have hlt : s.ring.availIdx < half := hi.slots.index ▸ Nat.mod_lt _ (by decide)
      rw [hring]
      exact (batchLoop_spec hlt hloop).2.2.1
    have hnone := publishedBy_of_eq hidx
    rw [hnone, List.append_nil] at hs'
    refine ⟨lost ++ heads, ?_, ?_, ?_, fun h hh => absurd hh (hnone ▸ List.not_mem_nil),
      fun hit' => absurd hrefused (by omega)⟩
    · subst hs'
      have hperm : (s.pending ++ heads ++ (s.taken ++ lost)).Perm
          (s.pending ++ (s.taken ++ (lost ++ heads))) := by
        rw [List.append_assoc, ← List.append_assoc s.taken]
        exact List.perm_append_comm.append_left s.pending
      refine ⟨hring ▸ hext.ring.of_perm hperm, ⟨?_, fun i h hi' => ?_⟩, hi.index, hring ▸ hsize⟩
      · exact hidx.trans hi.slots.index
      · have hlt : i < s.pending.length := (List.getElem?_eq_some_iff.mp hi').1
        have hslot := hext.slots.slots i h (by rwa [List.getElem?_append_left hlt])
        rw [← hring] at hslot
        exact hslot
    · intro h hh
      subst hs'
      rw [← List.append_assoc s.taken, ← List.append_assoc s.pending]
      exact List.mem_append_left _ hh
    · intro h hh
      subst hs'
      show b.ring.contents h = _
      rw [hring]
      exact hext.same h hh
  · have hcontents : ∀ h, b.ring.contents h = b'.ring.contents h := by
      intro h
      rw [hring]
      rfl
    have hringInv : RingInv b.ring (s.pending ++ heads ++ (s.taken ++ lost)) := by
      rw [hring]
      exact ⟨hext.ring.chains, hext.ring.perm⟩
    have hslots : SlotInv b.ring s.lastAvail b.ring.availIdx (s.pending ++ heads) := by
      rw [hring]
      exact ⟨hext.slots.index, hext.slots.slots⟩
    have hsize' : b.ring.qsize ∣ half ∧ b.ring.qsize < half := by
      rw [hring]
      exact hsize
    have hlen : heads.length < half := by
      have hle := hringInv.length_le
      rw [List.length_append, List.length_append] at hle
      have hlt := hsize'.2
      omega
    have hheads : publishedBy s.ring b.ring = heads := publishedBy_eq hi.slots hslots hlen
    rw [hheads] at hs' ⊢
    refine ⟨lost, ?_, fun h hh => ?_, fun h hh => ?_, fun h hh hold => ?_, fun hit' => ?_⟩
    · subst hs'
      exact ⟨hringInv, hslots, hi.index, hsize'⟩
    · subst hs'
      rcases List.mem_append.mp hh with hp | ht
      · exact List.mem_append_left _ (List.mem_append_left _ hp)
      · exact List.mem_append_right _ ht
    · subst hs'
      exact (hcontents h).trans (hext.same h hh)
    · have hnd := hringInv.nodup_heads
      rw [List.append_assoc, List.nodup_append'] at hnd
      obtain ⟨-, hnd', hdis⟩ := hnd
      rcases List.mem_append.mp hold with hp | ht
      · exact hdis hp (List.mem_append_left _ hh)
      · exact (List.nodup_append'.mp hnd').2.2 hh ht
    · subst hs'
      have hchains := hext.chains
      rw [hit, hit'] at hchains
      exact hchains.imp fun head list hhead => (hcontents head).trans hhead

/-- A step of the driver or the device is the same when chains are lost.
Source: `sys/virtio.hpp` `vring`
Kind: L -/
theorem step_lose (op : Op) (lost : List ℕ)
    (hlegal : ∀ clean id, op = .recycle clean id → id ∈ s.taken)
    (hstep : step s op = some s') : step (s.lose lost) op = some (s'.lose lost) := by
  cases op with
  | addWritableBuffers lists =>
      obtain rfl := Option.some.inj hstep
      rfl
  | addReadableBuffer bufs =>
      obtain ⟨a, ha, rfl⟩ := Option.map_eq_some_iff.mp hstep
      exact Option.map_eq_some_iff.mpr ⟨a, ha, rfl⟩
  | take =>
      obtain rfl := Option.some.inj hstep
      rfl
  | recycle clean id =>
      obtain ⟨r, hr, rfl⟩ := Option.map_eq_some_iff.mp hstep
      refine Option.map_eq_some_iff.mpr ⟨r, hr, ?_⟩
      unfold State.lose
      dsimp only
      rw [List.erase_append_left _ (hlegal clean id rfl)]

/-- The callback gets what the chain describes.
Source: `sys/virtio.hpp` `vring::process_used_buffers`
Kind: L -/
theorem processUsed_eq (r : Vring) (id : ℕ) : (r.processUsed id).map Prod.snd = r.contents id := by
  unfold processUsed contents
  rw [Option.map_map]
  rfl

/-- Buffers of full size below 2^32 are described as they are.
Source: `sys/buffer.hpp` `mutable_buffer::release`
Kind: L -/
theorem encoded_eq {list : List MutableBuffer} (hsize : ∀ buf ∈ list, buf.size + buf.offset < 2 ^ 32) :
    encoded list = list.map fun buf => ⟨buf.base, buf.size + buf.offset⟩ := by
  apply List.map_congr_left
  intro buf hbuf
  have hlt := hsize buf hbuf
  rw [Nat.mod_eq_of_lt (hlt.trans (by decide)), Nat.mod_eq_of_lt hlt]

end Vring

end EbbRT
