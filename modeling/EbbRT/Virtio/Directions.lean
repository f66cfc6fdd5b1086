import EbbRT.Virtio.InFlight

/-!
# Which chains the device may write

`F_WRITE` tells the device that it may write to the buffer of a descriptor. `add_writable_buffers` ors it
into the flags, and nothing clears it again: a descriptor that was once in a chain of
`add_writable_buffers` keeps it when `add_readable_buffer` takes it from the free list.
`directions_exactlyWhen`: a chain is marked for the function that published it exactly when
`add_readable_buffer` takes descriptors without the flag.
-/

namespace EbbRT

open EbbRT.Lib

namespace Vring

/-! ## Both kinds of chains on one ring -/

/-- The queue with its used ring, and for every head whether the chain that was last published from it is
one of `add_writable_buffers`.
Source: `sys/virtio.hpp` `vring`
Kind: D -/
structure MixedState where
  used : UsedState
  writable : ℕ → Bool

/-- After the constructor. Source: `sys/virtio.hpp` `vring::vring`. Kind: D -/
def MixedState.init (qsize : ℕ) (beyond : ℕ → UsedElem) : MixedState :=
  ⟨UsedState.init qsize beyond, fun _ => false⟩

/-- The steps: the driver adds buffers of either kind, the device takes or completes a chain,
`process_used_buffers` or `clean_used_buffers` is called, and the one that runs goes one step on.
Source: `sys/virtio.hpp` `vring`
Kind: D -/
inductive MixedOp where
  | addWritableBuffers (lists : List (List MutableBuffer))
  | addReadableBuffer (bufs : List Buf)
  | take
  | complete (id len : ℕ)
  | call (clean : Bool)
  | run
  deriving DecidableEq, Repr

/-- Any batch may be added, and any readable list with a buffer; the device and the loop do what they do
with chains of one kind.
Source: `sys/virtio.hpp` `vring`
Kind: D -/
def MixedLegal (s : MixedState) : MixedOp → Prop
  | .addWritableBuffers _ => True
  | .addReadableBuffer bufs => bufs ≠ []
  | .take => UsedLegal s.used (.queue .take)
  | .complete id len => UsedLegal s.used (.complete id len)
  | .call clean => UsedLegal s.used (.call clean)
  | .run => UsedLegal s.used .run

instance : ∀ (s : MixedState) (op : MixedOp), Decidable (MixedLegal s op)
  | _, .addWritableBuffers _ => inferInstanceAs (Decidable True)
  | _, .addReadableBuffer _ => inferInstanceAs (Decidable (_ ≠ _))
  | s, .take => inferInstanceAs (Decidable (UsedLegal s.used (.queue .take)))
  | s, .complete id len => inferInstanceAs (Decidable (UsedLegal s.used (.complete id len)))
  | s, .call clean => inferInstanceAs (Decidable (UsedLegal s.used (.call clean)))
  | s, .run => inferInstanceAs (Decidable (UsedLegal s.used .run))

/-- A function that adds buffers has left the queue as `q`: the heads behind those that were pending are
its own.
Source: none: infrastructure
Kind: D -/
def MixedState.publish (s : MixedState) (writable : Bool) (q : State) : MixedState where
  used := { s.used with queue := q }
  writable head :=
    if head ∈ q.pending.drop s.used.queue.pending.length then writable else s.writable head

/-- Source: `sys/virtio.hpp` `vring`
Kind: D -/
def mixedStep (s : MixedState) : MixedOp → Option MixedState
  | .addWritableBuffers lists =>
      (bufferStep s.used.queue (.addWritableBuffers lists)).map (s.publish true)
  | .addReadableBuffer bufs =>
      (bufferStep s.used.queue (.addReadableBuffer bufs)).map (s.publish false)
  | .take => (usedStep s.used (.queue .take)).map fun u => { s with used := u }
  | .complete id len => (usedStep s.used (.complete id len)).map fun u => { s with used := u }
  | .call clean => (usedStep s.used (.call clean)).map fun u => { s with used := u }
  | .run => (usedStep s.used .run).map fun u => { s with used := u }

/-- The driver and the device. Source: `sys/virtio.hpp` `vring`. Kind: D -/
def mixedSystem : System MixedState MixedOp := ⟨MixedLegal, mixedStep⟩

instance (s : MixedState) (op : MixedOp) : Decidable (mixedSystem.legal s op) :=
  inferInstanceAs (Decidable (MixedLegal s op))

/-! ## What should hold -/

/-- The descriptors from a head are a chain, and `F_WRITE` of each of them is `writable`.
Source: `sys/virtio.hpp` `vring::desc`
Kind: D -/
def HasDirection (r : Vring) (head : ℕ) (writable : Bool) : Prop :=
  ∃ c, r.chain head = some c ∧ ∀ i ∈ c, (r.desc i).fWrite = writable

/-- In every chain in flight `F_WRITE` is set if `add_writable_buffers` published it, and clear if
`add_readable_buffer` did.
Source: none: infrastructure
Kind: D -/
def Directed (s : MixedState) : Prop :=
  ∀ head ∈ s.used.queue.inFlight, HasDirection s.used.queue.ring head (s.writable head)

/-- The steps that the code handles: the descriptors that `add_readable_buffer` takes from the free list
do not have the flag.
Source: `sys/virtio.hpp` `vring::add_readable_buffer`
Kind: D -/
def Clean (s : MixedState) : MixedOp → Prop
  | .addReadableBuffer bufs =>
      ∀ i ∈ s.used.queue.ring.free.take bufs.length, (s.used.queue.ring.desc i).fWrite = false
  | _ => True

instance : ∀ (s : MixedState) (op : MixedOp), Decidable (Clean s op)
  | _, .addReadableBuffer _ => inferInstanceAs (Decidable (∀ i ∈ _, _))
  | _, .addWritableBuffers _ => inferInstanceAs (Decidable True)
  | _, .take => inferInstanceAs (Decidable True)
  | _, .complete _ _ => inferInstanceAs (Decidable True)
  | _, .call _ => inferInstanceAs (Decidable True)
  | _, .run => inferInstanceAs (Decidable True)

/-- A used element is read when fewer than `qsize_` completions were processed before.
Source: `sys/virtio.hpp` `vring::process_used_buffers`
Kind: D -/
def InsideUsedRing (s : MixedState) (op : MixedOp) : Prop := op = .run → FirstRound s.used .run

instance (s : MixedState) (op : MixedOp) : Decidable (InsideUsedRing s op) :=
  inferInstanceAs (Decidable (_ → _))

/-! ## The flags of a chain -/

variable {r r' r'' : Vring} {heads lost : List ℕ} {h id : ℕ} {bufs : List Buf} {w : Bool}
  {s s' : MixedState} {u u' : UsedState} {q : State}

/-- The flags of a chain in flight depend only on its descriptors.
Source: none: infrastructure
Kind: L -/
theorem HasDirection.congr (hd : HasDirection r h w) (hr : RingInv r heads) (hh : h ∈ heads)
    (hq : r'.qsize = r.qsize) (hdesc : ∀ x ∈ r.chainOf h, r'.desc x = r.desc x) :
    HasDirection r' h w := by
  obtain ⟨c, hc, hflags⟩ := hd
  have hlen := hr.length_chainOf_le hh
  have hchain := hr.chains h hh
  obtain rfl : r.chainOf h = c := Option.some.inj ((chain_eq hchain hlen).symm.trans hc)
  refine ⟨_, chain_congr hchain hlen hq hdesc, fun i hi => ?_⟩
  rw [hdesc i hi]
  exact hflags i hi

/-- The loop ors the flag into the descriptors that it writes.
Source: `sys/virtio.hpp` `vring::add_writable_buffers`, `vring::add_readable_buffer`
Kind: L -/
theorem fWrite_writeDescs (writable : Bool) (bufs : List Buf) (r : Vring) (last : ℕ)
    (hnd : (walk r.next bufs.length r.freeHead).Nodup) {x : ℕ}
    (hx : x ∈ walk r.next bufs.length r.freeHead) :
    ((writeDescs writable bufs (r, last)).1.desc x).fWrite = ((r.desc x).fWrite || writable) := by
  induction bufs generalizing r last with
  | nil => exact absurd hx List.not_mem_nil
  | cons b bufs ih =>
      rw [List.length_cons, walk] at hnd hx
      obtain ⟨hout, hnd⟩ := List.nodup_cons.mp hnd
      rw [writeDescs_cons]
      rcases List.mem_cons.mp hx with rfl | hx
      · -- the first descriptor, which the later turns leave alone
        obtain ⟨-, -, hframe, -⟩ := writeDescs_spec writable bufs (r.writeDesc writable b) r.freeHead
        rw [next_writeDesc, freeHead_writeDesc] at hframe
        rw [hframe _ hout, desc_writeDesc]
      · have hne : x ≠ r.freeHead := by
          rintro rfl
          exact hout hx
        rw [ih (r.writeDesc writable b) r.freeHead (by rwa [next_writeDesc, freeHead_writeDesc])
          (by rwa [next_writeDesc, freeHead_writeDesc]), desc_writeDesc_of_ne writable b hne]

/-- Adding a chain ors the flag into its descriptors.
Source: `sys/virtio.hpp` `vring::add_writable_buffers`, `vring::add_readable_buffer`
Kind: L -/
theorem fWrite_addChain (writable : Bool) (hnd : (walk r.next bufs.length r.freeHead).Nodup) {x : ℕ}
    (hx : x ∈ walk r.next bufs.length r.freeHead) :
    ((addChain writable bufs r).1.desc x).fWrite = ((r.desc x).fWrite || writable) := by
  set r₀ : Vring := { r with freeCount := r.freeCount - bufs.length } with hr₀
  rw [← fWrite_writeDescs writable bufs r₀ r.freeHead hnd hx]
  simp only [addChain, Function.update_apply, ← hr₀]
  split
  · rename_i hlast
    rw [hlast]
  · rfl

/-- The first free descriptors are those of the next chain.
Source: none: infrastructure
Kind: L -/
theorem take_free (hfit : bufs.length ≤ r.freeCount) :
    r.free.take bufs.length = walk r.next bufs.length r.freeHead := by
  obtain ⟨m, hm⟩ := Nat.exists_eq_add_of_le hfit
  rw [free, hm, walk_add, List.take_left' (length_walk ..)]

/-! ## A batch -/

/-- From `r` to `r'` free descriptors were handed out with the flag; the others and the used ring are as they
were.
Source: none: infrastructure
Kind: D -/
structure HandsOut (r r' : Vring) : Prop where
  frame : ∀ x, x ∉ r.free → r'.desc x = r.desc x
  free : ∀ x ∈ r'.free, x ∈ r.free
  flagged : ∀ x ∈ r.free, x ∉ r'.free → (r'.desc x).fWrite = true
  used : SameUsed r r'

/-- Nothing is handed out. Source: none: infrastructure. Kind: L -/
theorem HandsOut.refl (r : Vring) : HandsOut r r :=
  ⟨fun _ _ => rfl, fun _ hx => hx, fun _ hx hout => absurd hx hout, rfl, rfl, rfl, rfl⟩

/-- Two steps. Source: none: infrastructure. Kind: L -/
theorem HandsOut.trans (h : HandsOut r r') (h' : HandsOut r' r'') : HandsOut r r'' where
  frame x hx := (h'.frame x fun hx' => hx (h.free x hx')).trans (h.frame x hx)
  free x hx := h.free x (h'.free x hx)
  flagged x hx hout := by
    by_cases hx' : x ∈ r'.free
    · exact h'.flagged x hx' hout
    · rw [h'.frame x hx']
      exact h.flagged x hx hx'
  used := h.used.trans h'.used

/-- A chain of `add_writable_buffers`. Source: `sys/virtio.hpp` `vring::add_writable_buffers`. Kind: L -/
theorem handsOut_addChain (hr : RingInv r heads) (hne : bufs ≠ []) (hfit : bufs.length ≤ r.freeCount) :
    HandsOut r (addChain true bufs r).1 := by
  have hnd := hr.nodup_walk hfit
  have hfree := free_addChain true hne hnd hfit
  refine ⟨fun x hx => desc_addChain_of_notMem hr true hne hfit hx, fun x hx => ?_, fun x hx hout => ?_,
    sameUsed_addChain true bufs r⟩
  · rw [hfree]
    exact List.mem_append_right _ hx
  · rw [hfree] at hx
    have hin := (List.mem_append.mp hx).resolve_right hout
    rw [fWrite_addChain true hnd hin, Bool.or_true]

/-- The loop over the lists. Source: `sys/virtio.hpp` `vring::add_writable_buffers`. Kind: L -/
theorem handsOut_batchLoop {lists : List (List MutableBuffer)} {availIdx : ℕ} {b : Batch}
    (hr : RingInv r heads) (hb : batchLoop lists r availIdx = some b) : HandsOut r b.ring := by
  induction lists generalizing r heads availIdx b with
  | nil =>
      obtain rfl := Option.some.inj hb
      exact HandsOut.refl r
  | cons list rest ih =>
      by_cases hne : list = []
      · subst hne
        rw [batchLoop_nil_cons] at hb
        obtain ⟨b', htail, rfl⟩ := Option.map_eq_some_iff.mp hb
        have hrest : HandsOut r b'.ring := ih hr htail
        exact hrest
      · by_cases hlt : r.freeCount < list.length
        · rw [batchLoop_cons_of_lt hne hlt] at hb
          obtain rfl := Option.some.inj hb
          exact HandsOut.refl r
        · have hle := Nat.le_of_not_lt hlt
          obtain ⟨list', b', htail, rfl⟩ := batchLoop_cons_of_le hne hle hb
          have hbne : list.map MutableBuffer.whole ≠ [] := by simpa using hne
          have hble : (list.map MutableBuffer.whole).length ≤ r.freeCount := by
            rwa [List.length_map]
          obtain ⟨hr', -⟩ := hr.addChain true hbne hble
          obtain ⟨hframe, hfree, hflagged, hused⟩ := handsOut_addChain hr hbne hble
          have hslot : HandsOut r ((addChain true (list.map MutableBuffer.whole) r).1.setAvail
              availIdx r.freeHead) :=
            ⟨hframe, hfree, hflagged, hused.ring, hused.idx, hused.event, hused.qsize⟩
          have hrslot : RingInv ((addChain true (list.map MutableBuffer.whole) r).1.setAvail
              availIdx r.freeHead) _ := ⟨hr'.chains, hr'.perm⟩
          have hrest : HandsOut _ b'.ring := ih hrslot htail
          exact hslot.trans hrest

/-- The whole function. Source: `sys/virtio.hpp` `vring::add_writable_buffers`. Kind: L -/
theorem handsOut_addMutableBuffers {lists : List (List MutableBuffer)} {b : Batch}
    (hr : RingInv r heads) (hb : addMutableBuffers lists r = some b) : HandsOut r b.ring := by
  obtain ⟨b', hloop, -, ⟨-, hring⟩ | ⟨-, hring⟩⟩ := addMutableBuffers_cases hb
  · rw [hring]
    exact handsOut_batchLoop hr hloop
  · have hout := handsOut_batchLoop hr hloop
    rw [hring]
    exact ⟨hout.frame, hout.free, hout.flagged, hout.used.ring, hout.used.idx, hout.used.event,
      hout.used.qsize⟩

/-- A chain made of descriptors that were handed out has the flag.
Source: `sys/virtio.hpp` `vring::add_writable_buffers`
Kind: L -/
theorem HandsOut.hasDirection {heads' : List ℕ} (hout : HandsOut r r') (hr : RingInv r heads)
    (hr' : RingInv r' heads') (hsub : ∀ h ∈ heads, h ∈ heads') (hh : h ∈ heads') (hnew : h ∉ heads) :
    HasDirection r' h true := by
  have hchain' := chain_eq (hr'.chains h hh) (hr'.length_chainOf_le hh)
  refine ⟨_, hchain', fun x hx => hout.flagged x ?_ (hr'.notMem_free hh hx)⟩
  have hrange : x ∈ List.range r.qsize := by
    rw [← hout.used.qsize]
    exact hr'.perm.mem_iff.mp (List.mem_append_right _ (List.mem_flatMap.mpr ⟨h, hh, hx⟩))
  rcases List.mem_append.mp (hr.perm.mem_iff.mpr hrange) with hfree | hold
  · exact hfree
  · -- a descriptor of an old chain is still in that chain, and the chains are disjoint
    exfalso
    obtain ⟨h₀, hh₀, hx₀⟩ := List.mem_flatMap.mp hold
    have hsame : r'.chainOf h₀ = r.chainOf h₀ := by
      have hkept := chain_congr (hr.chains h₀ hh₀) (hr.length_chainOf_le hh₀) hout.used.qsize
        fun y hy => hout.frame y (hr.notMem_free hh₀ hy)
      rw [chainOf, hkept, Option.getD_some]
    have hne : h ≠ h₀ := by
      rintro rfl
      exact hnew hh₀
    have hdis := hr'.notMem_chainOf (hsub h₀ hh₀) ((List.mem_erase_of_ne hne).mpr hh) hx
    rw [hsame] at hdis
    exact hdis hx₀

/-! ## Adding chains -/

/-- New chains are published and the old ones stay as they are: what is left to show is about the new ones.
Source: `sys/virtio.hpp` `vring::add_writable_buffers`, `vring::add_readable_buffer`
Kind: L -/
theorem directed_publish (hd : Directed s) {published : List ℕ}
    (hr : RingInv s.used.queue.ring (s.used.queue.pending ++ (s.used.queue.taken ++ lost)))
    (hpending : q.pending = s.used.queue.pending ++ published) (htaken : q.taken = s.used.queue.taken)
    (hsize : q.ring.qsize = s.used.queue.ring.qsize)
    (hframe : ∀ x, x ∉ s.used.queue.ring.free → q.ring.desc x = s.used.queue.ring.desc x) :
    Directed (s.publish w q) ↔ ∀ h ∈ published, HasDirection q.ring h w := by
  have hdrop : q.pending.drop s.used.queue.pending.length = published := by
    rw [hpending, List.drop_left]
  have hwritable : ∀ h, (s.publish w q).writable h = if h ∈ published then w else s.writable h := by
    intro h
    show (if h ∈ q.pending.drop s.used.queue.pending.length then w else s.writable h) = _
    rw [hdrop]
  have hflight : ∀ h, h ∈ q.inFlight ↔ h ∈ s.used.queue.inFlight ∨ h ∈ published := by
    intro h
    unfold State.inFlight
    rw [hpending, htaken]
    simp only [List.mem_append]
    tauto
  constructor
  · intro hd' h hh
    have hdir := hd' h ((hflight h).mpr (Or.inr hh))
    rwa [hwritable, if_pos hh] at hdir
  · intro hdir h hh
    rw [hwritable]
    by_cases hpub : h ∈ published
    · rw [if_pos hpub]
      exact hdir h hpub
    · rw [if_neg hpub]
      have hold := ((hflight h).mp hh).resolve_right hpub
      have hmem := mem_of_inFlight lost hold
      exact (hd h hold).congr hr hmem hsize fun x hx => hframe x (hr.notMem_free hmem hx)

/-- A batch: the chains in flight stay as they are, and if it comes to its end each list with buffers is
described by a new chain.
Source: `sys/virtio.hpp` `vring::add_writable_buffers`
Kind: L -/
theorem Kept.batch (hk : Kept u) {lists : List (List MutableBuffer)} {b : Batch}
    (hb : addMutableBuffers lists u.queue.ring = some b)
    (hq : q = { u.queue with
      ring := b.ring, pending := u.queue.pending ++ publishedBy u.queue.ring b.ring }) :
    Kept { u with queue := q } ∧
      (∀ h ∈ u.queue.inFlight, h ∈ q.inFlight ∧ q.ring.contents h = u.queue.ring.contents h) ∧
      (b.it = lists.length → List.Forall₂ (fun head list => q.ring.contents head = some (encoded list))
        (publishedBy u.queue.ring b.ring) (accepted lists lists.length)) := by
  obtain ⟨lost, hu⟩ := hk.used
  obtain ⟨lost', hinv, -, hsame, -, hchains⟩ := batch_spec hu.queue hb hq
  have hr : RingInv u.queue.ring (u.queue.pending ++ (u.queue.taken ++ lost)) := hu.queue.ring
  have hout := handsOut_addMutableBuffers hr hb
  subst hq
  refine ⟨⟨⟨lost', ?_⟩, hk.returned⟩, fun h hh => ⟨?_, hsame h (mem_of_inFlight lost hh)⟩, hchains⟩
  · exact hu.with_queue hinv hout.used fun id hid => List.mem_append_left lost' (hk.returned id hid)
  · rcases List.mem_append.mp hh with hp | ht
    · exact List.mem_append_left _ (List.mem_append_left _ hp)
    · exact List.mem_append_right _ ht

/-- **A batch** keeps the chains in flight and marks its own.
Source: `sys/virtio.hpp` `vring::add_writable_buffers`
Kind: P -/
theorem batch_directed (hk : Kept s.used) {lists : List (List MutableBuffer)}
    (hstep : mixedStep s (.addWritableBuffers lists) = some s') :
    Kept s'.used ∧ (Directed s → Directed s') := by
  obtain ⟨q, hq, rfl⟩ := Option.map_eq_some_iff.mp hstep
  obtain ⟨b, hb, rfl⟩ := Option.map_eq_some_iff.mp hq
  obtain ⟨hkept, -, -⟩ := hk.batch hb rfl
  refine ⟨hkept, fun hd => ?_⟩
  obtain ⟨lost, hu⟩ := hk.used
  obtain ⟨lost', hinv, hmem, -, hnew, -⟩ := batch_spec hu.queue hb rfl
  have hr : RingInv s.used.queue.ring (s.used.queue.pending ++ (s.used.queue.taken ++ lost)) :=
    hu.queue.ring
  have hout := handsOut_addMutableBuffers hr hb
  set q : State := { s.used.queue with
    ring := b.ring
    pending := s.used.queue.pending ++ publishedBy s.used.queue.ring b.ring } with hqb
  have hpublish := directed_publish (q := q) (w := true) hd hr rfl rfl hout.used.qsize hout.frame
  refine hpublish.mpr fun h hh => ?_
  refine hout.hasDirection hr hinv.ring hmem ?_ (hnew h hh)
  exact List.mem_append_left _ (List.mem_append_right _ hh)

/-- **A readable list** keeps the chains in flight, and its own is marked for reading exactly when its
descriptors did not have the flag before.
Source: `sys/virtio.hpp` `vring::add_readable_buffer`
Kind: P -/
theorem readable_directed (hk : Kept s.used) (hne : bufs ≠ [])
    (hstep : mixedStep s (.addReadableBuffer bufs) = some s') :
    Kept s'.used ∧ (Directed s → (Directed s' ↔ Clean s (.addReadableBuffer bufs))) := by
  obtain ⟨q, hq, rfl⟩ := Option.map_eq_some_iff.mp hstep
  have hq : step s.used.queue (.addReadableBuffer bufs) = some q := hq
  obtain ⟨hkept, hpending, htaken, -, -, -⟩ := hk.addReadable hne hq
  obtain ⟨lost, hu⟩ := hk.used
  have hr : RingInv s.used.queue.ring (s.used.queue.pending ++ (s.used.queue.taken ++ lost)) :=
    hu.queue.ring
  obtain ⟨a, ha, hqa⟩ := Option.map_eq_some_iff.mp hq
  have hfit : bufs.length ≤ s.used.queue.ring.freeCount := by
    by_contra hlt
    simp [addReadableBuffer, Nat.lt_of_not_le hlt] at ha
  rw [addReadableBuffer, if_neg (Nat.not_lt.mpr hfit), Option.some_inj] at ha
  have hnd := hr.nodup_walk hfit
  obtain ⟨hrec, -, -, -, hchain⟩ := addChain_spec (r := s.used.queue.ring) false hne hnd
  have hdesc : q.ring.desc = (addChain false bufs s.used.queue.ring).1.desc := by
    rw [← hqa, ← ha]
    rfl
  have hsize' : q.ring.qsize = (addChain false bufs s.used.queue.ring).1.qsize := by
    rw [← hqa, ← ha]
    rfl
  have hsize : q.ring.qsize = s.used.queue.ring.qsize := by rw [hsize', hrec]
  refine ⟨hkept, fun hd => ?_⟩
  have hframe : ∀ x, x ∉ s.used.queue.ring.free → q.ring.desc x = s.used.queue.ring.desc x :=
    fun x hx => (congrFun hdesc x).trans (desc_addChain_of_notMem hr false hne hfit hx)
  have hpublish := directed_publish (w := false) hd hr hpending htaken hsize hframe
  rw [hpublish, List.forall_mem_singleton]
  -- the chain is what was taken from the free list, and its flags are what they were
  have hfound : q.ring.chain s.used.queue.ring.freeHead =
      some (walk s.used.queue.ring.next bufs.length s.used.queue.ring.freeHead) := by
    have hlen : (walk s.used.queue.ring.next bufs.length s.used.queue.ring.freeHead).length
        ≤ (addChain false bufs s.used.queue.ring).1.qsize := by
      have hle := hr.length_le
      rw [length_walk, ← hsize', hsize]
      omega
    exact chain_congr hchain hlen hsize' fun x _ => congrFun hdesc x
  show (∃ c, _ ∧ _) ↔ ∀ i ∈ s.used.queue.ring.free.take bufs.length, _
  rw [hfound, take_free hfit]
  simp only [Option.some_inj, exists_eq_left', hdesc]
  refine forall₂_congr fun i hi => ?_
  rw [fWrite_addChain false hnd hi, Bool.or_false]

/-! ## The device and the loop -/

/-- **A step of the device or the loop** keeps the chains in flight.
Source: `sys/virtio.hpp` `vring::process_used_buffers`, `vring::clean_used_buffers`
Kind: P -/
theorem used_directed (hk : Kept s.used) {op : UsedOp} (hlegal : UsedLegal s.used op)
    (hop : ∀ op', op = .queue op' → op' = .take) (hstep : usedStep s.used op = some u')
    (hd : Directed s) : Directed { s with used := u' } := by
  obtain ⟨lost, hu⟩ := hk.used
  have hr : RingInv s.used.queue.ring (s.used.queue.pending ++ (s.used.queue.taken ++ lost)) :=
    hu.queue.ring
  have hp := hk.processes hlegal hop hstep
  intro h hh
  obtain ⟨hold, -⟩ := (hp.inFlight h).mp hh
  exact (hd h hold).congr hr (mem_of_inFlight lost hold) hp.qsize (hp.desc h hh)

/-- The same with the invariant. Source: `sys/virtio.hpp` `vring`. Kind: L -/
theorem used_step (hk : Kept s.used) (op : UsedOp) (hlegal : UsedLegal s.used op)
    (hok : FirstRound s.used op) (hop : ∀ op', op = .queue op' → op' = .take)
    (hstep : (usedStep s.used op).map (fun u => { s with used := u }) = some s') :
    Kept s'.used ∧ (Directed s → Directed s') := by
  obtain ⟨u, hu, rfl⟩ := Option.map_eq_some_iff.mp hstep
  exact ⟨hk.step hlegal hok hu, used_directed hk hlegal hop hu⟩

/-! ## The result -/

/-- No chain is in flight at the start. Source: `sys/virtio.hpp` `vring::vring`. Kind: L -/
theorem directed_init (k : ℕ) (beyond : ℕ → UsedElem) : Directed (MixedState.init (2 ^ k) beyond) := by
  intro h hh
  exact absurd hh (by simp [MixedState.init, UsedState.init, State.init, State.inFlight])

/-- Every step of the first round keeps the invariant, and the chains are marked afterwards exactly when
the step is one that the code handles.
Source: `sys/virtio.hpp` `vring`
Kind: P -/
theorem mixedStep_directed {op : MixedOp} (hk : Kept s.used) (hlegal : MixedLegal s op)
    (hok : InsideUsedRing s op) (hstep : mixedStep s op = some s') :
    Kept s'.used ∧ (Directed s → (Directed s' ↔ Clean s op)) := by
  -- only `add_readable_buffer` has a condition
  have htrue : ∀ {P Q : Prop}, (P → Q) → (P → (Q ↔ True)) := fun h hp => iff_true_intro (h hp)
  cases op with
  | addWritableBuffers lists => exact (batch_directed hk hstep).imp_right htrue
  | addReadableBuffer bufs => exact readable_directed hk hlegal hstep
  | take =>
      have hused := used_step hk (.queue .take) hlegal (fun h => nomatch h)
        (fun _ h => (UsedOp.queue.inj h).symm) hstep
      exact hused.imp_right htrue
  | complete id len =>
      have hused := used_step hk (.complete id len) hlegal (fun h => nomatch h)
        (fun _ h => nomatch h) hstep
      exact hused.imp_right htrue
  | call clean =>
      have hused := used_step hk (.call clean) hlegal (fun h => nomatch h)
        (fun _ h => nomatch h) hstep
      exact hused.imp_right htrue
  | run =>
      have hused := used_step hk .run hlegal (hok rfl) (fun _ h => nomatch h) hstep
      exact hused.imp_right htrue

/-- **Which chains the device may write, over whole runs.** For every power of two that is a queue size, in
any mix of the operations: while no used element is read past the end of the ring and every readable list
so far took descriptors without `F_WRITE`, a step leaves the flag set in the chains of
`add_writable_buffers` and clear in those of `add_readable_buffer` exactly when it is not an
`add_readable_buffer` that takes a descriptor with the flag.
Source: `sys/virtio.hpp` `vring::add_writable_buffers`, `vring::add_readable_buffer`,
`vring::process_used_buffers`, `vring::clean_used_buffers`
Kind: P -/
theorem directions_exactlyWhen (k : ℕ) (hk : k < 16) (beyond : ℕ → UsedElem) :
    (mixedSystem.guard InsideUsedRing).ExactlyWhen (MixedState.init (2 ^ k) beyond)
      (fun _ _ s' => Directed s') Clean := by
  intro as s op s' hrun hlegal hstep
  obtain ⟨hkept, hd⟩ : Kept s.used ∧ Directed s :=
    hrun.invariant (I := fun s => Kept s.used ∧ Directed s) ⟨kept_init hk beyond, directed_init k beyond⟩
      fun s op s' ⟨hkept, hd⟩ hlegal hstep => by
        obtain ⟨hkept', hd'⟩ := mixedStep_directed hkept hlegal.1.1 hlegal.1.2 hstep
        exact ⟨hkept', (hd' hd).mpr hlegal.2⟩
  exact (mixedStep_directed hkept hlegal.1 hlegal.2 hstep).2 hd

/-- A ring of four: while a batch with an empty list is with the device, a list of two is added, on
descriptors that were not used before.
Source: `sys/virtio.hpp` `vring`
Kind: C -/
theorem directions_exactlyWhen_four :
    ∃ s s', (mixedSystem.guard InsideUsedRing).Run (MixedState.init (2 ^ 2) fun _ => ⟨0, 0⟩)
        [.addWritableBuffers [[⟨4096, 2048, 0⟩], []], .take] s ∧
      mixedStep s (.addReadableBuffer [⟨8192, 12⟩, ⟨12288, 60⟩]) = some s' ∧ Directed s' ∧
      s'.used.queue.ring.chainOf 1 = [1, 2] := by
  have h : ((mixedSystem.guard InsideUsedRing).guard Clean).Admits
      (MixedState.init (2 ^ 2) fun _ => ⟨0, 0⟩)
      (([.addWritableBuffers [[⟨4096, 2048, 0⟩], []], .take] : List MixedOp) ++
        [.addReadableBuffer [⟨8192, 12⟩, ⟨12288, 60⟩]]) := by decide
  obtain ⟨s, s', hexec, hrun, hlegal, hstep⟩ := h.last
  refine ⟨s, s', hrun.of_guard, hstep,
    (directions_exactlyWhen 2 (by decide) _ _ _ _ _ hrun hlegal.1 hstep).mpr hlegal.2, ?_⟩
  obtain rfl := Option.some.inj hexec
  obtain rfl := Option.some.inj hstep
  decide

/-- A ring of two: the descriptor of a batch comes back, and the readable buffer that takes it next is
one that the device may write.
Source: `sys/virtio.hpp` `vring::add_readable_buffer`
Kind: P -/
theorem directions_not_always :
    ¬ ∀ k < 16, ∀ beyond, mixedSystem.Always (MixedState.init (2 ^ k) beyond)
      (fun _ _ s' => Directed s') := by
  intro hall
  have hadmits : mixedSystem.Admits (MixedState.init (2 ^ 1) fun _ => ⟨0, 0⟩)
      (([.addWritableBuffers [[⟨4096, 2048, 0⟩]], .take, .complete 0 60, .call false, .run, .run,
        .run, .run, .run] : List MixedOp) ++ [.addReadableBuffer [⟨8192, 60⟩]]) := by decide
  refine System.not_always_of_admits hadmits (fun s s' hs hs' hd => ?_)
    (hall 1 (by decide) fun _ => ⟨0, 0⟩)
  obtain rfl := Option.some.inj hs
  obtain rfl := Option.some.inj hs'
  obtain ⟨c, hc, hflags⟩ := hd 0 (by decide)
  obtain rfl : [0] = c := Option.some.inj hc
  exact absurd (hflags 0 List.mem_cons_self) (by decide)

end Vring

end EbbRT
