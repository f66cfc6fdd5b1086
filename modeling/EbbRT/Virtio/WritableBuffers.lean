import EbbRT.Lib.Window
import EbbRT.Virtio.Buffer
import EbbRT.Virtio.VringRuns

/-!
# A batch that is refused

`add_writable_buffers` takes the buffers out of a range of lists, one list after the other, and returns
the iterator at the first list that does not fit. It returns there without storing the new index, so the
chains of the lists in front stay unpublished: `addMutableBuffers_exactlyWhen` says that a refused batch
leaves the ring consistent only if no list in front of the refused one has buffers.
-/

namespace EbbRT

open EbbRT.Lib

/-- The block of a buffer, from its base and in its full size: what `release` returns.
Source: `sys/buffer.hpp` `mutable_buffer::release`
Kind: D -/
def MutableBuffer.whole (b : MutableBuffer) : Buf := ⟨b.base, (b.size + b.offset) % word⟩

namespace Vring

/-! ## The code -/

/-- Release the buffers of a list: the list afterwards, and what is written to the descriptors; `none`
is the `kassert` of `release`.
Source: `sys/virtio.hpp` `vring::add_writable_buffers`
Kind: D -/
def releaseAll : List MutableBuffer → Option (List MutableBuffer × List Buf)
  | [] => some ([], [])
  | buf :: bufs => do
      let (buf, addr, size) ← buf.release
      let (bufs, written) ← releaseAll bufs
      return (buf :: bufs, ⟨addr, size⟩ :: written)

/-- A call of `add_writable_buffers`: the ring, its `avail_idx`, the lists as the call leaves them, and
the position of the iterator.
Source: `sys/virtio.hpp` `vring::add_writable_buffers`
Kind: D -/
structure Batch where
  ring : Vring
  /-- The local `avail_idx`. -/
  availIdx : ℕ
  /-- The lists from `begin` to `end`. -/
  lists : List (List MutableBuffer)
  /-- The number of lists in front of `it`. -/
  it : ℕ

/-- The iterator behind one more list. Source: none: infrastructure. Kind: D -/
def Batch.behind (list : List MutableBuffer) (b : Batch) : Batch :=
  { b with lists := list :: b.lists, it := b.it + 1 }

/-- The loop over the lists.
Source: `sys/virtio.hpp` `vring::add_writable_buffers`
Kind: D -/
def batchLoop : List (List MutableBuffer) → Vring → ℕ → Option Batch
  | [], r, availIdx => some ⟨r, availIdx, [], 0⟩
  | list :: rest, r, availIdx =>
      if list = [] then (batchLoop rest r availIdx).map (Batch.behind list)
      else if r.freeCount < list.length then some ⟨r, availIdx, list :: rest, 0⟩
      else do
        let (list, written) ← releaseAll list
        let c := addChain true written r
        let b ← batchLoop rest (c.1.setAvail availIdx c.2) ((availIdx + 1) % half)
        return b.behind list

/-- The whole function: at the end of the lists the index is stored and the device notified.
Source: `sys/virtio.hpp` `vring::add_writable_buffers`
Kind: D -/
def addMutableBuffers (lists : List (List MutableBuffer)) (r : Vring) : Option Batch :=
  (batchLoop lists r r.availIdx).map fun b =>
    if lists = [] ∨ b.it < lists.length then b else { b with ring := b.ring.publish b.availIdx }

/-! ## What should happen -/

/-- The lists with buffers in front of the iterator. Source: none: infrastructure. Kind: D -/
def accepted (lists : List (List MutableBuffer)) (it : ℕ) : List (List MutableBuffer) :=
  (lists.take it).filter fun list => !list.isEmpty

/-- A refused batch leaves the ring consistent: what was accepted is published, and the rest is as it
was.
Source: `sys/virtio.hpp` `vring::add_writable_buffers`
Kind: D -/
structure Consistent (r : Vring) (lists : List (List MutableBuffer)) (b : Batch) : Prop where
  /-- The index has advanced by the number of the chains. -/
  index : b.ring.availIdx = (r.availIdx + (accepted lists b.it).length) % half
  /-- The device is notified if the chains pass the index it waits for. -/
  notified : b.ring.kicks =
    if Crossed half r.availEvent ((r.availIdx + (accepted lists b.it).length) % half) r.availIdx then
      r.kicks + 1
    else r.kicks
  /-- From the refused list on nothing is touched. -/
  untouched : b.lists.drop b.it = lists.drop b.it
  /-- As many descriptors are gone as the chains have. -/
  free : b.ring.freeCount + ((accepted lists b.it).map List.length).sum = r.freeCount

/-! ## The loop -/

variable {r : Vring} {list : List MutableBuffer} {lists rest : List (List MutableBuffer)} {b : Batch}
  {availIdx : ℕ} {written : List Buf}

/-- Owned buffers are released, and their blocks written.
Source: `sys/buffer.hpp` `mutable_buffer::release`
Kind: L -/
theorem releaseAll_eq (howned : ∀ buf ∈ list, buf.ptr ≠ 0) :
    releaseAll list = some (list.map fun buf => { buf with ptr := 0 },
      list.map MutableBuffer.whole) := by
  induction list with
  | nil => rfl
  | cons buf bufs ih =>
      have hrelease : buf.release = some ({ buf with ptr := 0 }, buf.base,
          (buf.size + buf.offset) % word) := if_neg (howned buf List.mem_cons_self)
      unfold releaseAll
      rw [hrelease, ih fun b hb => howned b (List.mem_cons_of_mem _ hb)]
      rfl

/-- What is written are the blocks of the buffers.
Source: `sys/buffer.hpp` `mutable_buffer::release`
Kind: L -/
theorem written_of_releaseAll {list' : List MutableBuffer}
    (h : releaseAll list = some (list', written)) : written = list.map MutableBuffer.whole := by
  induction list generalizing list' written with
  | nil =>
      obtain ⟨-, rfl⟩ := Prod.mk.inj (Option.some.inj h)
      rfl
  | cons buf bufs ih =>
      simp only [releaseAll, Option.bind_eq_bind, Option.bind_eq_some_iff] at h
      obtain ⟨⟨buf', addr, size⟩, hrelease, ⟨bufs', written'⟩, htail, h⟩ := h
      obtain ⟨-, rfl⟩ := Prod.mk.inj (Option.some.inj h)
      unfold MutableBuffer.release at hrelease
      split at hrelease
      · exact (Option.some_ne_none _ hrelease.symm).elim
      · obtain ⟨-, hpair⟩ := Prod.mk.inj (Option.some.inj hrelease)
        obtain ⟨rfl, rfl⟩ := Prod.mk.inj hpair
        rw [List.map_cons, ih htail]
        rfl

/-- An empty list is passed over. Source: `sys/virtio.hpp` `vring::add_writable_buffers`. Kind: L -/
theorem batchLoop_nil_cons (rest : List (List MutableBuffer)) (r : Vring) (availIdx : ℕ) :
    batchLoop ([] :: rest) r availIdx = (batchLoop rest r availIdx).map (Batch.behind []) := by
  unfold batchLoop
  rw [if_pos rfl]
  cases rest <;> rfl

/-- The loop stops at a list that does not fit.
Source: `sys/virtio.hpp` `vring::add_writable_buffers`
Kind: L -/
theorem batchLoop_cons_of_lt (hne : list ≠ []) (hlt : r.freeCount < list.length)
    (rest : List (List MutableBuffer)) (availIdx : ℕ) :
    batchLoop (list :: rest) r availIdx = some ⟨r, availIdx, list :: rest, 0⟩ := by
  unfold batchLoop
  rw [if_neg hne, if_pos hlt]

/-- A list that fits becomes a chain.
Source: `sys/virtio.hpp` `vring::add_writable_buffers`
Kind: L -/
theorem batchLoop_cons_of_le (hne : list ≠ []) (hle : list.length ≤ r.freeCount)
    (h : batchLoop (list :: rest) r availIdx = some b) :
    ∃ list' b', batchLoop rest
        ((addChain true (list.map MutableBuffer.whole) r).1.setAvail availIdx r.freeHead)
        ((availIdx + 1) % half) = some b' ∧ b = b'.behind list' := by
  unfold batchLoop at h
  rw [if_neg hne, if_neg hle.not_gt] at h
  simp only [Option.bind_eq_bind, Option.bind_eq_some_iff] at h
  obtain ⟨⟨list', written⟩, hrelease, b', htail, h⟩ := h
  obtain rfl := written_of_releaseAll hrelease
  exact ⟨list', b', htail, (Option.some.inj h).symm⟩

/-- A new chain changes the descriptors, the free list and its length.
Source: `sys/virtio.hpp` `vring::add_writable_buffers`
Kind: L -/
theorem addChain_eq (writable : Bool) (bufs : List Buf) (r : Vring) :
    (addChain writable bufs r).1 = { r with
      desc := (addChain writable bufs r).1.desc
      freeHead := (addChain writable bufs r).1.freeHead
      freeCount := r.freeCount - bufs.length } := by
  obtain ⟨h, -⟩ := writeDescs_spec writable bufs
    { r with freeCount := r.freeCount - bufs.length } r.freeHead
  unfold addChain
  dsimp only
  rw [h]

/-- A list with buffers in front. Source: none: infrastructure. Kind: L -/
theorem accepted_cons (hne : list ≠ []) (lists : List (List MutableBuffer)) (it : ℕ) :
    accepted (list :: lists) (it + 1) = list :: accepted lists it := by
  unfold accepted
  rw [List.take_succ_cons, List.filter_cons_of_pos]
  simpa using hne

/-- **The loop.** The driver's index runs ahead of the stored one by the number of the chains, their
descriptors are gone from the free ones, and from the iterator on the lists are as they were.
Source: `sys/virtio.hpp` `vring::add_writable_buffers`
Kind: P -/
theorem batchLoop_spec (hidx : availIdx < half) (h : batchLoop lists r availIdx = some b) :
    b.it ≤ lists.length ∧ b.lists.drop b.it = lists.drop b.it ∧
      b.ring.availIdx = r.availIdx ∧ b.ring.kicks = r.kicks ∧
      b.availIdx = (availIdx + (accepted lists b.it).length) % half ∧
      b.ring.freeCount + ((accepted lists b.it).map List.length).sum = r.freeCount := by
  induction lists generalizing r availIdx b with
  | nil =>
      obtain rfl := Option.some.inj h
      exact ⟨le_rfl, rfl, rfl, rfl, (Nat.mod_eq_of_lt hidx).symm, rfl⟩
  | cons list rest ih =>
      by_cases hne : list = []
      · subst hne
        rw [batchLoop_nil_cons] at h
        obtain ⟨b', htail, rfl⟩ := Option.map_eq_some_iff.mp h
        obtain ⟨hit, hdrop, hold, hkicks, hnew, hfree⟩ := ih hidx htail
        exact ⟨Nat.succ_le_succ hit, hdrop, hold, hkicks, hnew, hfree⟩
      · by_cases hlt : r.freeCount < list.length
        · rw [batchLoop_cons_of_lt hne hlt] at h
          obtain rfl := Option.some.inj h
          exact ⟨Nat.zero_le _, rfl, rfl, rfl, (Nat.mod_eq_of_lt hidx).symm, rfl⟩
        · obtain ⟨list', b', htail, rfl⟩ := batchLoop_cons_of_le hne (Nat.le_of_not_lt hlt) h
          obtain ⟨hit, hdrop, hold, hkicks, hnew, hfree⟩ := ih (Nat.mod_lt _ (by decide)) htail
          rw [addChain_eq, List.length_map] at hold hkicks hfree
          have haccepted := accepted_cons hne rest b'.it
          refine ⟨Nat.succ_le_succ hit, hdrop, hold, hkicks, ?_, ?_⟩
          · show b'.availIdx = (availIdx + (accepted (list :: rest) (b'.it + 1)).length) % half
            rw [hnew, haccepted, List.length_cons, Nat.mod_add_mod, Nat.add_assoc,
              Nat.add_comm 1]
          · show b'.ring.freeCount + ((accepted (list :: rest) (b'.it + 1)).map List.length).sum = _
            have hcount : b'.ring.freeCount + ((accepted rest b'.it).map List.length).sum
                = r.freeCount - list.length := hfree
            rw [haccepted, List.map_cons, List.sum_cons]
            omega

/-- **When nothing is accepted.** A refused batch gets no list accepted exactly when the first list with
buffers is longer than the free list.
Source: `sys/virtio.hpp` `vring::add_writable_buffers`
Kind: L -/
theorem accepted_eq_nil_iff (h : batchLoop lists r availIdx = some b) (hit : b.it < lists.length) :
    accepted lists b.it = [] ↔
      ∃ list, lists.find? (fun list => !list.isEmpty) = some list ∧ r.freeCount < list.length := by
  induction lists generalizing b with
  | nil => exact absurd hit (Nat.not_lt_zero _)
  | cons list rest ih =>
      by_cases hne : list = []
      · subst hne
        rw [batchLoop_nil_cons] at h
        obtain ⟨b', htail, rfl⟩ := Option.map_eq_some_iff.mp h
        exact ih htail (Nat.lt_of_succ_lt_succ hit)
      · have hfind : (list :: rest).find? (fun list => !list.isEmpty) = some list := by
          apply List.find?_cons_of_pos
          simpa using hne
        by_cases hlt : r.freeCount < list.length
        · rw [batchLoop_cons_of_lt hne hlt] at h
          obtain rfl := Option.some.inj h
          exact ⟨fun _ => ⟨list, hfind, hlt⟩, fun _ => rfl⟩
        · obtain ⟨list', b', -, rfl⟩ := batchLoop_cons_of_le hne (Nat.le_of_not_lt hlt) h
          have haccepted : accepted (list :: rest) (b'.behind list').it ≠ [] := by
            show accepted (list :: rest) (b'.it + 1) ≠ []
            rw [accepted_cons hne]
            exact List.cons_ne_nil _ _
          constructor
          · intro hnil
            exact absurd hnil haccepted
          · rintro ⟨list'', hfind', hlt'⟩
            obtain rfl := Option.some.inj (hfind.symm.trans hfind')
            exact absurd hlt' hlt

/-- A refused call returns what the loop has reached.
Source: `sys/virtio.hpp` `vring::add_writable_buffers`
Kind: L -/
theorem batchLoop_of_refused (h : addMutableBuffers lists r = some b) (hit : b.it < lists.length) :
    batchLoop lists r r.availIdx = some b := by
  obtain ⟨b', hloop, hb⟩ := Option.map_eq_some_iff.mp h
  have hit' : b'.it < lists.length := by
    rw [← hb] at hit
    split at hit
    · assumption
    · exact hit
  rw [if_pos (Or.inr hit')] at hb
  rw [hloop, hb]

/-! ## The result -/

/-- **A refused batch leaves the ring consistent exactly when the first list with buffers is the one
that does not fit.**
Source: `sys/virtio.hpp` `vring::add_writable_buffers`
Kind: C
Hyps: `hidx`, `hcount`: 16-bit fields; `hrefused`: the batch did not fit -/
theorem addMutableBuffers_exactlyWhen (r : Vring) (lists : List (List MutableBuffer)) (b : Batch)
    (hidx : r.availIdx < half) (hcount : r.freeCount < half)
    (hcall : addMutableBuffers lists r = some b) (hrefused : b.it < lists.length) :
    Consistent r lists b ↔
      ∃ list, lists.find? (fun list => !list.isEmpty) = some list ∧ r.freeCount < list.length := by
  have hloop := batchLoop_of_refused hcall hrefused
  obtain ⟨-, hdrop, hold, hkicks, -, hfree⟩ := batchLoop_spec hidx hloop
  rw [← accepted_eq_nil_iff hloop hrefused]
  constructor
  · intro hconsistent
    by_contra hne
    -- the stored index is the old one, and there are fewer chains than index values
    have hindex := hconsistent.index
    rw [hold] at hindex
    have hpos := List.length_pos_iff.mpr hne
    have hchains : (accepted lists b.it).length ≤ ((accepted lists b.it).map List.length).sum := by
      apply length_le_sum_length
      intro list hlist
      have hnonempty := (List.mem_filter.mp hlist).2
      simpa using hnonempty
    have hmod : r.availIdx % half = (r.availIdx + (accepted lists b.it).length) % half := by
      rw [Nat.mod_eq_of_lt hidx]
      exact hindex
    have heq := eq_of_mod_eq (Nat.le_add_right _ _) (by omega) hmod
    omega
  · intro hnil
    have hmod : (r.availIdx + (accepted lists b.it).length) % half = r.availIdx := by
      rw [hnil, List.length_nil, Nat.add_zero, Nat.mod_eq_of_lt hidx]
    refine ⟨hold.trans hmod.symm, ?_, hdrop, hfree⟩
    rw [hmod, if_neg (not_crossed_self half r.availEvent r.availIdx)]
    exact hkicks

/-- A ring of two, and a list of three buffers.
Source: `sys/virtio.hpp` `vring::add_writable_buffers`
Kind: C -/
theorem addMutableBuffers_exactlyWhen_first :
    ∃ b, addMutableBuffers [[], [⟨4096, 8, 0⟩, ⟨8192, 8, 0⟩, ⟨12288, 8, 0⟩]]
        (Vring.init 2 fun _ => ⟨0, 0⟩) = some b ∧
      Consistent (Vring.init 2 fun _ => ⟨0, 0⟩)
        [[], [⟨4096, 8, 0⟩, ⟨8192, 8, 0⟩, ⟨12288, 8, 0⟩]] b :=
  ⟨_, rfl, (addMutableBuffers_exactlyWhen _ _ _ (by decide) (by decide) rfl (by decide)).mpr
    ⟨_, rfl, by decide⟩⟩

/-- A ring of two, and lists of one and of two buffers: the chain of the first list is not published.
Source: `sys/virtio.hpp` `vring::add_writable_buffers`
Kind: C -/
theorem addMutableBuffers_not_always :
    ¬ ∀ (r : Vring) (lists : List (List MutableBuffer)) (b : Batch), r.availIdx < half →
      r.freeCount < half → addMutableBuffers lists r = some b → b.it < lists.length →
      Consistent r lists b := by
  intro hall
  obtain ⟨b, hcall⟩ : ∃ b, addMutableBuffers [[⟨4096, 8, 0⟩], [⟨8192, 8, 0⟩, ⟨12288, 8, 0⟩]]
      (Vring.init 2 fun _ => ⟨0, 0⟩) = some b := ⟨_, rfl⟩
  obtain rfl := Option.some.inj hcall
  have hindex := (hall (Vring.init 2 fun _ => ⟨0, 0⟩)
    [[⟨4096, 8, 0⟩], [⟨8192, 8, 0⟩, ⟨12288, 8, 0⟩]] _ (by decide) (by decide) rfl (by decide)).index
  exact absurd hindex (by decide)

end Vring

end EbbRT
