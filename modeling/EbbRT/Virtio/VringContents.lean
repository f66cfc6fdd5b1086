import EbbRT.Virtio.VringRuns

/-!
# What the device reads in a chain

`contents` is the list of buffers that the descriptors from a head describe. A new chain describes the
buffers it was made of, in their order (`contents_addChain_mod`), and goes on describing the same while
other chains are added (`contents_addChain_of_mem`) and recycled (`recycle_spec`).
-/

namespace EbbRT

open EbbRT.Lib

namespace Vring

/-- The buffer that a descriptor describes. Source: `sys/virtio.hpp` `vring::desc`. Kind: D -/
def buf (r : Vring) (i : ℕ) : Buf := ⟨(r.desc i).addr, (r.desc i).len⟩

/-- What the device finds when it walks from a head.
Source: `sys/virtio.hpp` `vring::desc`
Kind: D -/
def contents (r : Vring) (head : ℕ) : Option (List Buf) := (r.chain head).map fun c => c.map r.buf

variable {r r' : Vring} {heads : List ℕ} {h id : ℕ} {c : List ℕ} {bufs : List Buf}

/-- A chain whose descriptors are the same is found again.
Source: none: infrastructure
Kind: L -/
theorem chain_congr (hc : IsChain r.more r.next h c) (hlen : c.length ≤ r.qsize)
    (hq : r'.qsize = r.qsize) (hdesc : ∀ x ∈ c, r'.desc x = r.desc x) : r'.chain h = some c := by
  have hc' : IsChain r'.more r'.next h c := by
    apply hc.congr
    intro x hx
    unfold more next
    rw [hdesc x hx]
    exact ⟨rfl, rfl⟩
  exact chain_eq hc' (hlen.trans hq.ge)

/-- The contents of a chain depend only on its descriptors.
Source: none: infrastructure
Kind: L -/
theorem contents_congr (hc : IsChain r.more r.next h c) (hlen : c.length ≤ r.qsize)
    (hq : r'.qsize = r.qsize) (hdesc : ∀ x ∈ c, r'.desc x = r.desc x) :
    r'.contents h = r.contents h := by
  unfold contents
  rw [chain_eq hc hlen, chain_congr hc hlen hq hdesc, Option.map_some, Option.map_some]
  congr 1
  apply List.map_congr_left
  intro x hx
  unfold buf
  rw [hdesc x hx]

/-- The loop writes the buffers to the descriptors of the free list in their order.
Source: `sys/virtio.hpp` `vring::add_writable_buffers`, `vring::add_readable_buffer`
Kind: L -/
theorem buf_writeDescs (writable : Bool) (bufs : List Buf) (r : Vring) (last : ℕ)
    (hnd : (walk r.next bufs.length r.freeHead).Nodup) :
    (walk r.next bufs.length r.freeHead).map (writeDescs writable bufs (r, last)).1.buf =
      bufs.map fun b => ⟨b.addr, b.size % 2 ^ 32⟩ := by
  induction bufs generalizing r last with
  | nil => rfl
  | cons b bufs ih =>
      rw [List.length_cons, walk] at hnd
      obtain ⟨hout, hnd⟩ := List.nodup_cons.mp hnd
      obtain ⟨-, -, hframe, -⟩ := writeDescs_spec writable bufs (r.writeDesc writable b) r.freeHead
      rw [next_writeDesc, freeHead_writeDesc] at hframe
      have hrest := ih (r.writeDesc writable b) r.freeHead (by rwa [next_writeDesc, freeHead_writeDesc])
      rw [next_writeDesc, freeHead_writeDesc] at hrest
      rw [List.length_cons, walk, List.map_cons, List.map_cons, writeDescs_cons, hrest]
      congr 1
      -- the later turns of the loop do not come back to the first descriptor
      unfold buf
      rw [hframe _ hout, desc_writeDesc]

/-- **A new chain describes its buffers**, with sizes of 32 bits.
Source: `sys/virtio.hpp` `vring::add_writable_buffers`, `vring::add_readable_buffer`
Kind: P -/
theorem contents_addChain_mod (hr : RingInv r heads) (writable : Bool) (hne : bufs ≠ [])
    (hfit : bufs.length ≤ r.freeCount) :
    (addChain writable bufs r).1.contents r.freeHead
      = some (bufs.map fun b => ⟨b.addr, b.size % 2 ^ 32⟩) := by
  have hlnd := hr.nodup_walk hfit
  obtain ⟨hrec, -, -, -, hchain⟩ := addChain_spec (r := r) writable hne hlnd
  have hq : (addChain writable bufs r).1.qsize = r.qsize := by rw [hrec]
  have hlen : (walk r.next bufs.length r.freeHead).length ≤ (addChain writable bufs r).1.qsize := by
    have := hr.length_le
    rw [hq, length_walk]
    omega
  unfold contents
  rw [chain_eq hchain hlen, Option.map_some]
  congr 1
  set r₀ : Vring := { r with freeCount := r.freeCount - bufs.length } with hr₀
  have hwrite := buf_writeDescs writable bufs r₀ r.freeHead hlnd
  -- clearing the mark of the last descriptor changes no buffer
  have hbuf : (addChain writable bufs r).1.buf = (writeDescs writable bufs (r₀, r.freeHead)).1.buf := by
    funext x
    simp only [addChain, buf, Function.update_apply, ← hr₀]
    split
    · rename_i hx
      rw [hx]
    · rfl
  rw [hbuf]
  exact hwrite

/-- Sizes of 32 bits are written as they are. Source: `sys/virtio.hpp` `vring::desc`. Kind: L -/
theorem map_mod_eq (hsize : ∀ b ∈ bufs, b.size < 2 ^ 32) :
    bufs.map (fun b => (⟨b.addr, b.size % 2 ^ 32⟩ : Buf)) = bufs := by
  have hmod : bufs.map (fun b => (⟨b.addr, b.size % 2 ^ 32⟩ : Buf)) = bufs.map id := by
    apply List.map_congr_left
    intro b hb
    rw [Nat.mod_eq_of_lt (hsize b hb)]
    rfl
  rw [hmod, List.map_id]

/-- The descriptors of a chain in flight are not free. Source: none: infrastructure. Kind: L -/
theorem RingInv.notMem_free (hr : RingInv r heads) (hh : h ∈ heads) {x : ℕ}
    (hx : x ∈ r.chainOf h) : x ∉ r.free := fun hfree =>
  (List.nodup_append.mp hr.nodup).2.2 x hfree x (List.mem_flatMap.mpr ⟨h, hh, hx⟩) rfl

/-- Different chains in flight have no descriptor in common.
Source: none: infrastructure
Kind: L -/
theorem RingInv.notMem_chainOf (hr : RingInv r heads) (hid : id ∈ heads) (hh : h ∈ heads.erase id)
    {x : ℕ} (hx : x ∈ r.chainOf h) : x ∉ r.chainOf id := by
  intro hxid
  have hnd := (hr.of_perm (List.perm_cons_erase hid)).nodup
  rw [List.flatMap_cons, ← List.append_assoc] at hnd
  obtain ⟨-, -, hdis⟩ := List.nodup_append.mp hnd
  exact hdis x (List.mem_append_right _ hxid) x (List.mem_flatMap.mpr ⟨h, hh, hx⟩) rfl

/-- Adding a chain writes free descriptors only.
Source: `sys/virtio.hpp` `vring::add_writable_buffers`, `vring::add_readable_buffer`
Kind: L -/
theorem desc_addChain_of_notMem (hr : RingInv r heads) (writable : Bool) (hne : bufs ≠ [])
    (hfit : bufs.length ≤ r.freeCount) {x : ℕ} (hx : x ∉ r.free) :
    (addChain writable bufs r).1.desc x = r.desc x := by
  obtain ⟨-, -, -, hframe, -⟩ := addChain_spec (r := r) writable hne (hr.nodup_walk hfit)
  apply hframe
  intro hxl
  rw [free_addChain writable hne (hr.nodup_walk hfit) hfit] at hx
  exact hx (List.mem_append_left _ hxl)

/-- A chain in flight stays as it is when another one is added.
Source: `sys/virtio.hpp` `vring::add_writable_buffers`, `vring::add_readable_buffer`
Kind: L -/
theorem contents_addChain_of_mem (hr : RingInv r heads) (writable : Bool) (hne : bufs ≠ [])
    (hfit : bufs.length ≤ r.freeCount) (hh : h ∈ heads) :
    (addChain writable bufs r).1.contents h = r.contents h := by
  obtain ⟨hrec, -, -, -, -⟩ := addChain_spec (r := r) writable hne (hr.nodup_walk hfit)
  apply contents_congr (hr.chains h hh) (hr.length_chainOf_le hh)
  · rw [hrec]
  · intro x hx
    exact desc_addChain_of_notMem hr writable hne hfit (hr.notMem_free hh hx)

/-- Recycling a chain writes the last descriptor of this chain only.
Source: `sys/virtio.hpp` `vring::process_used_buffers`, `vring::clean_used_buffers`
Kind: L -/
theorem desc_recycle_of_mem (hr : RingInv r heads) (hid : id ∈ heads) (hh : h ∈ heads.erase id)
    {x : ℕ} (hx : x ∈ r.chainOf h) : (r.recycle id (r.chainOf id)).desc x = r.desc x := by
  apply Function.update_of_ne
  rintro rfl
  refine hr.notMem_chainOf hid hh hx ?_
  rw [List.getLastD_eq_getLast?, List.getLast?_eq_getLast_of_ne_nil (hr.chains id hid).ne_nil]
  exact List.getLast_mem _

/-! ## The steps of the driver and the device -/

/-- The chains in flight have different heads. Source: none: infrastructure. Kind: L -/
theorem RingInv.nodup_heads (hr : RingInv r heads) : heads.Nodup := by
  have hflat := (List.nodup_append.mp hr.nodup).2.1
  have hpair := (List.nodup_flatMap.mp hflat).2
  apply hpair.imp_of_mem
  rintro a b ha hb hdis rfl
  have hmem := (hr.chains a ha).head_mem
  exact hdis hmem hmem

/-- The next free descriptor is not the head of a chain in flight.
Source: none: infrastructure
Kind: L -/
theorem RingInv.freeHead_notMem (hr : RingInv r heads) (hpos : 0 < r.freeCount) :
    r.freeHead ∉ heads := by
  intro hmem
  obtain ⟨n, hn⟩ := Nat.exists_eq_succ_of_ne_zero hpos.ne'
  have hfree : r.freeHead ∈ r.free := by
    rw [free, hn, walk]
    exact List.mem_cons_self
  have hchain := (hr.chains _ hmem).head_mem
  exact (List.nodup_append.mp hr.nodup).2.2 _ hfree _ (List.mem_flatMap.mpr ⟨_, hmem, hchain⟩) rfl

variable {s s' : State}

/-- Adding a list: its chain starts at the free descriptor that was next, describes the list with sizes of
32 bits, and leaves the other chains alone.
Source: `sys/virtio.hpp` `vring::add_readable_buffer`
Kind: L -/
theorem add_spec (hi : Inv s) (hne : bufs ≠ [])
    (hstep : Vring.step s (.addReadableBuffer bufs) = some s') :
    Inv s' ∧ s'.pending = s.pending ++ [s.ring.freeHead] ∧ s'.taken = s.taken ∧
      s.ring.freeHead ∉ s.pending ++ s.taken ∧
      s'.ring.contents s.ring.freeHead = some (bufs.map fun b => ⟨b.addr, b.size % 2 ^ 32⟩) ∧
      ∀ h ∈ s.pending ++ s.taken, s'.ring.contents h = s.ring.contents h := by
  have hfit : bufs.length ≤ s.ring.freeCount := by
    by_contra hlt
    simp [Vring.step, addReadableBuffer, Nat.lt_of_not_le hlt] at hstep
  obtain ⟨t, ht, hinv⟩ := step_addReadableBuffer hi hne hfit
  obtain rfl : t = s' := Option.some.inj (ht.symm.trans hstep)
  have hpos : 0 < s.ring.freeCount := (List.length_pos_iff.mpr hne).trans_le hfit
  simp only [Vring.step, addReadableBuffer, if_neg (Nat.not_lt.mpr hfit), Option.map_some,
    Option.some_inj] at hstep
  have hcontents : ∀ h, t.ring.contents h = (addChain false bufs s.ring).1.contents h := by
    intro h
    rw [← hstep]
    rfl
  refine ⟨hinv, ?_, ?_, hi.ring.freeHead_notMem hpos, ?_, fun h hh => ?_⟩
  · rw [← hstep]
    rfl
  · rw [← hstep]
  · rw [hcontents]
    exact contents_addChain_mod hi.ring false hne hfit
  · rw [hcontents]
    exact contents_addChain_of_mem hi.ring false hne hfit hh

/-- Taking a chain: the same chains are in flight. Source: `sys/virtio.hpp` `vring::avail`. Kind: L -/
theorem take_spec (hi : Inv s) (hp : s.pending ≠ []) (hstep : Vring.step s .take = some s') :
    Inv s' ∧ (s'.pending ++ s'.taken).Perm (s.pending ++ s.taken) ∧ s'.ring = s.ring := by
  obtain ⟨t, ht, hinv⟩ := step_take hi hp
  obtain rfl : t = s' := Option.some.inj (ht.symm.trans hstep)
  obtain ⟨h, rest, hpend⟩ := List.exists_cons_of_ne_nil hp
  have hslot : s.ring.availRing (s.lastAvail % s.ring.qsize) = h := by
    have := hi.slots.slots 0 h (by rw [hpend]; rfl)
    rwa [Nat.add_zero, Nat.mod_eq_of_lt hi.index] at this
  simp only [Vring.step, Option.some_inj] at hstep
  rw [← hstep]
  refine ⟨hstep ▸ hinv, ?_, rfl⟩
  simp only [hslot, hpend, List.tail_cons]
  exact List.perm_middle

/-- What a recycled chain leaves of the descriptors does not depend on who recycles it.
Source: `sys/virtio.hpp` `vring::process_used_buffers`, `vring::clean_used_buffers`
Kind: L -/
theorem step_recycle_eq (clean : Bool) (hchain : s.ring.chain id = some c)
    (hstep : Vring.step s (.recycle clean id) = some s') :
    s'.pending = s.pending ∧ s'.taken = s.taken.erase id ∧
      s'.ring.desc = (s.ring.recycle id c).desc ∧ s'.ring.qsize = s.ring.qsize := by
  cases clean with
  | true =>
      have hchain' : ({ s.ring with
          bufReferences := Function.update s.ring.bufReferences id none } : Vring).chain id = some c :=
        hchain
      simp only [Vring.step, cleanUsed, hchain', if_true, Option.map_some, Option.some_inj] at hstep
      rw [← hstep]
      exact ⟨rfl, rfl, rfl, rfl⟩
  | false =>
      simp only [Vring.step, processUsed, hchain, Bool.false_eq_true, if_false, Option.map_some,
        Option.some_inj] at hstep
      rw [← hstep]
      exact ⟨rfl, rfl, rfl, rfl⟩

/-- Recycling a chain leaves the descriptors of the others alone.
Source: `sys/virtio.hpp` `vring::process_used_buffers`, `vring::clean_used_buffers`
Kind: L -/
theorem recycle_frame {clean : Bool} (hi : Inv s) (hid : id ∈ s.taken)
    (hstep : Vring.step s (.recycle clean id) = some s') :
    s'.pending = s.pending ∧ s'.taken = s.taken.erase id ∧ s'.ring.qsize = s.ring.qsize ∧
      ∀ h ∈ s.pending ++ s.taken, h ≠ id → ∀ x ∈ s.ring.chainOf h, s'.ring.desc x = s.ring.desc x := by
  have hmem : id ∈ s.pending ++ s.taken := List.mem_append_right _ hid
  have hchain : s.ring.chain id = some (s.ring.chainOf id) :=
    chain_eq (hi.ring.chains id hmem) (hi.ring.length_chainOf_le hmem)
  obtain ⟨hpending, htaken, hdesc, hqsize⟩ := step_recycle_eq clean hchain hstep
  refine ⟨hpending, htaken, hqsize, fun h hh hne x hx => ?_⟩
  rw [hdesc]
  exact desc_recycle_of_mem hi.ring hmem ((List.mem_erase_of_ne hne).mpr hh) hx

/-- Recycling a chain: the others stay in flight as they are.
Source: `sys/virtio.hpp` `vring::process_used_buffers`, `vring::clean_used_buffers`
Kind: L -/
theorem recycle_spec {clean : Bool} (hi : Inv s) (hid : id ∈ s.taken)
    (hstep : Vring.step s (.recycle clean id) = some s') :
    Inv s' ∧ (∀ h, h ∈ s'.pending ++ s'.taken ↔ h ∈ s.pending ++ s.taken ∧ h ≠ id) ∧
      ∀ h ∈ s.pending ++ s.taken, h ≠ id → s'.ring.contents h = s.ring.contents h := by
  obtain ⟨t, ht, hinv⟩ := step_recycle hi clean hid
  obtain rfl : t = s' := Option.some.inj (ht.symm.trans hstep)
  obtain ⟨hpending, htaken, hqsize, hframe⟩ := recycle_frame hi hid hstep
  have hnd := hi.ring.nodup_heads
  obtain ⟨-, hnd', hdis⟩ := List.nodup_append.mp hnd
  refine ⟨hinv, fun h => ?_, fun h hh hne => ?_⟩
  · rw [hpending, htaken]
    simp only [List.mem_append, hnd'.mem_erase_iff]
    constructor
    · rintro (hp | ⟨hne, ht⟩)
      · exact ⟨Or.inl hp, hdis h hp id hid⟩
      · exact ⟨Or.inr ht, hne⟩
    · rintro ⟨hp | ht, hne⟩
      · exact Or.inl hp
      · exact Or.inr ⟨hne, ht⟩
  · exact contents_congr (hi.ring.chains h hh) (hi.ring.length_chainOf_le hh) hqsize
      (hframe h hh hne)

end Vring

end EbbRT
