import EbbRT.Virtio.Vring

/-!
# Descriptor conservation

`RingInv r heads`: the free descriptors and the chains from `heads` are all descriptors, each once.
Every operation of the driver moves a chain between the two (`RingInv.addChain`,
`RingInv.recycle`), and `SlotInv` says that the device finds the heads it has not taken yet in the
slots where they were published. `vring_always` puts them together over whole runs with a device
that takes the published chains in order and gives them back in any order.
-/

namespace EbbRT

open EbbRT.Lib

namespace Vring

/-- The free descriptors: `free_count_` steps from `free_head_`.
Source: `sys/virtio.hpp` `vring`
Kind: D -/
def free (r : Vring) : List ℕ := walk r.next r.freeCount r.freeHead

/-- The descriptors of the chain from a head.
Source: `sys/virtio.hpp` `vring::desc`
Kind: D -/
def chainOf (r : Vring) (head : ℕ) : List ℕ := (r.chain head).getD []

/-- The free descriptors and the chains from `heads` are all descriptors, each once.
Source: none: infrastructure
Kind: D -/
structure RingInv (r : Vring) (heads : List ℕ) : Prop where
  chains : ∀ h ∈ heads, IsChain r.more r.next h (r.chainOf h)
  perm : (r.free ++ heads.flatMap r.chainOf).Perm (List.range r.qsize)

variable {r r' : Vring} {heads heads' : List ℕ} {h id : ℕ} {c : List ℕ} {bufs : List Buf}

/-- A chain that fits in the ring is found. Source: `sys/virtio.hpp` `vring`. Kind: L -/
theorem chain_eq (hc : IsChain r.more r.next h c) (hlen : c.length ≤ r.qsize) :
    r.chain h = some c := hc.follow_eq hlen

/-- A chain that fits in the ring is found. Source: `sys/virtio.hpp` `vring`. Kind: L -/
theorem chainOf_eq (hc : IsChain r.more r.next h c) (hlen : c.length ≤ r.qsize) :
    r.chainOf h = c := by
  rw [chainOf, chain_eq hc hlen, Option.getD_some]

/-- The order of the heads does not matter. Source: none: infrastructure. Kind: L -/
theorem RingInv.of_perm (hr : RingInv r heads) (hp : heads.Perm heads') : RingInv r heads' where
  chains h hh := hr.chains h (hp.mem_iff.mpr hh)
  perm := ((hp.flatMap_right r.chainOf).append_left r.free).symm.trans hr.perm

/-- Everything is one list without repetition. Source: none: infrastructure. Kind: L -/
theorem RingInv.nodup (hr : RingInv r heads) : (r.free ++ heads.flatMap r.chainOf).Nodup :=
  hr.perm.nodup_iff.mpr List.nodup_range

/-- The descriptors of the next chain are different ones. Source: none: infrastructure. Kind: L -/
theorem RingInv.nodup_walk {n : ℕ} (hr : RingInv r heads) (hle : n ≤ r.freeCount) :
    (walk r.next n r.freeHead).Nodup := by
  have hnd := hr.nodup
  obtain ⟨m, hm⟩ := Nat.exists_eq_add_of_le hle
  rw [free, hm, walk_add, List.append_assoc] at hnd
  exact (List.nodup_append.mp hnd).1

/-- A chain in flight fits in the ring. Source: none: infrastructure. Kind: L -/
theorem RingInv.length_chainOf_le (hr : RingInv r heads) (hh : h ∈ heads) :
    (r.chainOf h).length ≤ r.qsize := by
  have hlen := hr.perm.length_eq
  rw [List.length_append, List.length_range] at hlen
  have hsub : (r.chainOf h).length ≤ (heads.flatMap r.chainOf).length := by
    rw [List.length_flatMap]
    exact List.single_le_sum (by simp) _ (List.mem_map_of_mem hh)
  omega

/-- Lists that are not empty have at least as many elements as they are.
Source: none: infrastructure
Kind: L -/
theorem length_le_sum_length {α : Type*} {lists : List (List α)} (hne : ∀ l ∈ lists, l ≠ []) :
    lists.length ≤ (lists.map List.length).sum := by
  have hone : ∀ n ∈ lists.map List.length, 1 ≤ n := by
    intro n hn
    obtain ⟨l, hl, rfl⟩ := List.mem_map.mp hn
    exact List.length_pos_iff.mpr (hne l hl)
  have hle := List.length_le_sum_of_one_le _ hone
  rwa [List.length_map] at hle

/-- There are no more chains in flight than descriptors that are not free.
Source: none: infrastructure
Kind: L -/
theorem RingInv.length_le (hr : RingInv r heads) : heads.length + r.freeCount ≤ r.qsize := by
  have hlen := hr.perm.length_eq
  rw [List.length_append, List.length_range, free, length_walk] at hlen
  have hsum : heads.length ≤ (heads.flatMap r.chainOf).length := by
    have hne : ∀ l ∈ heads.map r.chainOf, l ≠ [] := by
      intro l hl
      obtain ⟨h, hh, rfl⟩ := List.mem_map.mp hl
      exact (hr.chains h hh).ne_nil
    have hle := length_le_sum_length hne
    rw [List.length_map, List.map_map] at hle
    rwa [List.length_flatMap]
  omega

/-! ## Adding a chain -/

/-- The ring after a turn of the loop that writes the descriptors.
Source: `sys/virtio.hpp` `vring::add_writable_buffers`, `vring::add_readable_buffer`
Kind: D -/
def writeDesc (writable : Bool) (b : Buf) (r : Vring) : Vring :=
  { r with
    desc := Function.update r.desc r.freeHead { r.desc r.freeHead with
      addr := b.addr
      len := b.size % 2 ^ 32
      fNext := true
      fWrite := (r.desc r.freeHead).fWrite || writable }
    freeHead := r.next r.freeHead }

/-- **One turn** of the loop. Source: `sys/virtio.hpp` `vring::add_writable_buffers`. Kind: L -/
theorem writeDescs_cons (writable : Bool) (b : Buf) (bufs : List Buf) (r : Vring) (last : ℕ) :
    writeDescs writable (b :: bufs) (r, last) =
      writeDescs writable bufs (r.writeDesc writable b, r.freeHead) := rfl

/-- Source: `sys/virtio.hpp` `vring::add_writable_buffers`. Kind: L -/
theorem desc_writeDesc (writable : Bool) (b : Buf) (r : Vring) :
    (r.writeDesc writable b).desc r.freeHead = { r.desc r.freeHead with
      addr := b.addr
      len := b.size % 2 ^ 32
      fNext := true
      fWrite := (r.desc r.freeHead).fWrite || writable } := Function.update_self ..

/-- Source: none: infrastructure. Kind: L -/
theorem desc_writeDesc_of_ne (writable : Bool) (b : Buf) {x : ℕ} (hx : x ≠ r.freeHead) :
    (r.writeDesc writable b).desc x = r.desc x := Function.update_of_ne hx ..

/-- It leaves the links alone. Source: `sys/virtio.hpp` `vring::add_writable_buffers`. Kind: L -/
theorem next_writeDesc (writable : Bool) (b : Buf) (r : Vring) : (r.writeDesc writable b).next = r.next := by
  funext x
  unfold next
  by_cases hx : x = r.freeHead
  · rw [hx, desc_writeDesc]
  · rw [desc_writeDesc_of_ne writable b hx]

/-- Source: `sys/virtio.hpp` `vring::add_writable_buffers`. Kind: L -/
theorem freeHead_writeDesc (writable : Bool) (b : Buf) (r : Vring) :
    (r.writeDesc writable b).freeHead = r.next r.freeHead := rfl

/-- **The loop that writes the descriptors.** It writes the first descriptors of the free list, as
many as there are buffers, marks them all, and leaves their links alone.
Source: `sys/virtio.hpp` `vring::add_writable_buffers`, `vring::add_readable_buffer`
Kind: P -/
theorem writeDescs_spec (writable : Bool) (bufs : List Buf) (r : Vring) (last : ℕ) :
    let w := writeDescs writable bufs (r, last)
    let l := walk r.next bufs.length r.freeHead
    w.1 = { r with desc := w.1.desc, freeHead := r.next^[bufs.length] r.freeHead } ∧
      w.1.next = r.next ∧ (∀ x, x ∉ l → w.1.desc x = r.desc x) ∧ (∀ x ∈ l, w.1.more x = true) ∧
      w.2 = l.getLastD last := by
  induction bufs generalizing r last with
  | nil => exact ⟨rfl, rfl, fun _ _ => rfl, fun x hx => by simp [walk] at hx, rfl⟩
  | cons b bufs ih =>
      obtain ⟨h1, h2, h3, h4, h5⟩ := ih (r.writeDesc writable b) r.freeHead
      rw [next_writeDesc] at h1 h2 h3 h4 h5
      rw [freeHead_writeDesc] at h3 h4 h5
      have hmore : (r.writeDesc writable b).more r.freeHead = true := by
        unfold more
        rw [desc_writeDesc]
      refine ⟨h1, h2, fun x hx => ?_, fun x hx => ?_, ?_⟩
      · rw [List.length_cons, walk, List.mem_cons, not_or] at hx
        exact (h3 x hx.2).trans (desc_writeDesc_of_ne writable b hx.1)
      · rw [List.length_cons, walk, List.mem_cons] at hx
        by_cases hin : x ∈ walk r.next bufs.length (r.next r.freeHead)
        · exact h4 x hin
        · have hxh : x = r.freeHead := hx.resolve_right hin
          rw [writeDescs_cons]
          unfold more
          rw [h3 x hin, hxh]
          exact hmore
      · rw [List.length_cons, walk, List.getLastD_cons]
        exact h5

/-- **Adding a chain.** The chain is made of the first descriptors of the free list.
Source: `sys/virtio.hpp` `vring::add_writable_buffers`, `vring::add_readable_buffer`
Kind: P -/
theorem addChain_spec (writable : Bool) (hne : bufs ≠ [])
    (hnd : (walk r.next bufs.length r.freeHead).Nodup) :
    let a := addChain writable bufs r
    let l := walk r.next bufs.length r.freeHead
    a.1 = { r with
      desc := a.1.desc
      freeHead := r.next^[bufs.length] r.freeHead
      freeCount := r.freeCount - bufs.length } ∧
      a.2 = r.freeHead ∧ a.1.next = r.next ∧ (∀ x, x ∉ l → a.1.desc x = r.desc x) ∧
      IsChain a.1.more a.1.next r.freeHead l := by
  obtain ⟨n, hn⟩ : ∃ n, bufs.length = n + 1 :=
    Nat.exists_eq_succ_of_ne_zero (by simpa using hne)
  intro a l
  set r₀ : Vring := { r with freeCount := r.freeCount - bufs.length } with hr₀
  have hr₀next : r₀.next = r.next := rfl
  obtain ⟨h1, h2, h3, h4, h5⟩ := writeDescs_spec writable bufs r₀ r.freeHead
  set w := writeDescs writable bufs (r₀, r.freeHead) with hw
  rw [hr₀next] at h1 h2 h3 h4 h5
  obtain ⟨last, hlast⟩ : ∃ last, l.getLast? = some last := by
    refine ⟨l.getLast ?_, List.getLast?_eq_getLast_of_ne_nil _⟩
    exact List.ne_nil_of_length_pos (by simp [l, hn])
  have hwlast : w.2 = last := by
    rw [h5, List.getLastD_eq_getLast?]
    show (l.getLast?).getD _ = _
    rw [hlast, Option.getD_some]
  have hlmem : last ∈ l := List.mem_of_getLast? hlast
  have hanext : a.1.next = r.next := by
    funext x
    show (Function.update w.1.desc w.2 _ x).next = r.next x
    by_cases hx : x = w.2
    · subst hx
      rw [Function.update_self]
      exact congrFun h2 _
    · rw [Function.update_of_ne hx]
      exact congrFun h2 x
  have hamore : a.1.more = Function.update w.1.more last false := by
    funext x
    show (Function.update w.1.desc w.2 _ x).fNext = _
    by_cases hx : x = w.2
    · subst hx
      rw [Function.update_self, hwlast, Function.update_self]
    · rw [Function.update_of_ne hx, Function.update_of_ne (hwlast ▸ hx)]
      rfl
  refine ⟨?_, rfl, hanext, fun x hx => ?_, ?_⟩
  · show ({ w.1 with desc := a.1.desc } : Vring) = _
    rw [h1]
  · show Function.update w.1.desc w.2 _ x = r.desc x
    rw [Function.update_of_ne (by rintro rfl; exact hx (hwlast ▸ hlmem))]
    exact h3 x hx
  · rw [hamore, hanext]
    simp only [l, hn] at hnd hlast h4 ⊢
    exact isChain_walk hnd h4 hlast

/-- The free descriptors behind those of a new chain stay free.
Source: `sys/virtio.hpp` `vring::add_writable_buffers`, `vring::add_readable_buffer`
Kind: L -/
theorem free_addChain (writable : Bool) (hne : bufs ≠ [])
    (hnd : (walk r.next bufs.length r.freeHead).Nodup) (hfit : bufs.length ≤ r.freeCount) :
    r.free = walk r.next bufs.length r.freeHead ++ (addChain writable bufs r).1.free := by
  obtain ⟨m, hm⟩ := Nat.exists_eq_add_of_le hfit
  obtain ⟨h1, -, h3, -, -⟩ := addChain_spec (r := r) writable hne hnd
  have hcount : (addChain writable bufs r).1.freeCount = m := by
    rw [h1]
    show r.freeCount - bufs.length = m
    omega
  have hhead : (addChain writable bufs r).1.freeHead = r.next^[bufs.length] r.freeHead := by
    rw [h1]
  rw [free, free, hcount, hhead, h3, hm, walk_add]

/-- **Adding a chain conserves the descriptors.**
Source: `sys/virtio.hpp` `vring::add_writable_buffers`, `vring::add_readable_buffer`
Kind: P -/
theorem RingInv.addChain (hr : RingInv r heads) (writable : Bool) (hne : bufs ≠ [])
    (hfit : bufs.length ≤ r.freeCount) :
    let a := Vring.addChain writable bufs r
    RingInv a.1 (heads ++ [a.2]) ∧ a.1.freeCount = r.freeCount - bufs.length := by
  intro a
  set l := walk r.next bufs.length r.freeHead with hl
  have hlnd := hr.nodup_walk hfit
  have hfree : r.free = l ++ a.1.free := free_addChain writable hne hlnd hfit
  have hnd := hr.nodup
  rw [hfree, List.append_assoc] at hnd
  obtain ⟨-, -, hldis⟩ := List.nodup_append.mp hnd
  obtain ⟨h1, h2, h3, h4, h5⟩ := addChain_spec (r := r) writable hne hlnd
  have hq : a.1.qsize = r.qsize := by rw [h1]
  have hcount : a.1.freeCount = r.freeCount - bufs.length := by rw [h1]
  have hlen := hr.perm.length_eq
  rw [hfree, List.length_append, List.length_append, List.length_range] at hlen
  have hnew : a.1.chainOf r.freeHead = l := chainOf_eq h5 (by rw [hq]; omega)
  have hold : ∀ h ∈ heads, IsChain a.1.more a.1.next h (r.chainOf h) := by
    intro h hh
    refine (hr.chains h hh).congr fun x hx => ?_
    have hxl : x ∉ l := fun hxl => hldis x hxl x
      (List.mem_append_right _ (List.mem_flatMap.mpr ⟨h, hh, hx⟩)) rfl
    refine ⟨?_, congrFun h3 x⟩
    show (a.1.desc x).fNext = (r.desc x).fNext
    rw [h4 x hxl]
  have holdeq : ∀ h ∈ heads, a.1.chainOf h = r.chainOf h := fun h hh =>
    chainOf_eq (hold h hh) (by rw [hq]; exact hr.length_chainOf_le hh)
  refine ⟨⟨fun h hh => ?_, ?_⟩, hcount⟩
  · rcases List.mem_append.mp hh with hh | hh
    · rw [holdeq h hh]
      exact hold h hh
    · rw [List.mem_singleton.mp hh, h2, hnew]
      exact h5
  · rw [hq, h2, List.flatMap_append, List.flatMap_singleton, hnew, List.flatMap_congr holdeq]
    refine List.Perm.trans ?_ hr.perm
    rw [hfree, List.append_assoc]
    have hcomm : (a.1.free ++ l).Perm (l ++ a.1.free) := List.perm_append_comm
    exact (List.perm_append_comm.append_left a.1.free).trans (by simpa using hcomm.append_right _)

/-! ## Recycling a chain -/

/-- **Recycling a chain conserves the descriptors.** The inner loop ends, and the chain comes to
stand in front of the free list, whatever the link of its last descriptor was.
Source: `sys/virtio.hpp` `vring::process_used_buffers`, `vring::clean_used_buffers`
Kind: P -/
theorem RingInv.recycle (hr : RingInv r heads) (hid : id ∈ heads) (hq : r.qsize < half) :
    ∃ c, r.chain id = some c ∧ RingInv (r.recycle id c) (heads.erase id) := by
  set c := r.chainOf id with hc
  have hchain := hr.chains id hid
  have hperm := hr.of_perm (List.perm_cons_erase hid)
  have hnd := hperm.nodup
  rw [List.flatMap_cons] at hnd
  have hnd' : (c ++ (r.free ++ (heads.erase id).flatMap r.chainOf)).Nodup := by
    refine (List.Perm.nodup_iff ?_).mp hnd
    rw [← List.append_assoc, ← List.append_assoc]
    exact List.perm_append_comm.append_right _
  obtain ⟨-, -, hdis⟩ := List.nodup_append.mp hnd'
  obtain ⟨last, hlast⟩ : ∃ last, c.getLast? = some last :=
    ⟨c.getLast hchain.ne_nil, List.getLast?_eq_getLast_of_ne_nil _⟩
  have hlastD : c.getLastD id = last := by
    rw [List.getLastD_eq_getLast?, hlast, Option.getD_some]
  have hlc : last ∈ c := List.mem_of_getLast? hlast
  refine ⟨c, chain_eq hchain (hr.length_chainOf_le hid), ?_⟩
  set r' := r.recycle id c with hr'
  have hmore : r'.more = r.more := by
    funext x
    show (Function.update r.desc (c.getLastD id) _ x).fNext = r.more x
    by_cases hx : x = c.getLastD id
    · subst hx
      rw [Function.update_self]
      rfl
    · rw [Function.update_of_ne hx]
      rfl
  have hnext : r'.next = Function.update r.next last r.freeHead := by
    funext x
    show (Function.update r.desc (c.getLastD id) _ x).next = _
    by_cases hx : x = c.getLastD id
    · subst hx
      rw [Function.update_self, hlastD, Function.update_self]
    · rw [Function.update_of_ne hx, Function.update_of_ne (hlastD ▸ hx)]
      rfl
  have hcount : r'.freeCount = c.length + r.freeCount := by
    have hlen := hperm.perm.length_eq
    rw [List.flatMap_cons, ← hc, List.length_append, List.length_append, List.length_range, free,
      length_walk] at hlen
    show (r.freeCount + c.length) % half = _
    rw [Nat.mod_eq_of_lt (by omega), Nat.add_comm]
  have hfree : r'.free = c ++ r.free := by
    rw [free, hcount, hnext]
    refine hchain.walk_update hlast ?_
    rw [← List.append_assoc] at hnd'
    exact (List.nodup_append.mp hnd').1
  have hold : ∀ h ∈ heads.erase id, IsChain r'.more r'.next h (r.chainOf h) := by
    intro h hh
    refine (hr.chains h (List.mem_of_mem_erase hh)).congr fun x hx => ⟨congrFun hmore x, ?_⟩
    rw [hnext, Function.update_of_ne]
    rintro rfl
    exact hdis x hlc x (List.mem_append_right _ (List.mem_flatMap.mpr ⟨h, hh, hx⟩)) rfl
  have holdeq : ∀ h ∈ heads.erase id, r'.chainOf h = r.chainOf h := fun h hh =>
    chainOf_eq (hold h hh) (hr.length_chainOf_le (List.mem_of_mem_erase hh))
  refine ⟨fun h hh => by rw [holdeq h hh]; exact hold h hh, ?_⟩
  rw [hfree, List.flatMap_congr holdeq]
  refine List.Perm.trans ?_ hperm.perm
  rw [List.flatMap_cons, ← List.append_assoc]
  exact List.perm_append_comm.append_right _

/-! ## The slots of the avail ring -/

/-- The device, which is to take the entry with index `lastAvail` next, finds the heads that it has
not taken yet in their slots, up to index `availIdx`.
Source: `sys/virtio.hpp` `vring::avail`
Kind: D -/
structure SlotInv (r : Vring) (lastAvail availIdx : ℕ) (pending : List ℕ) : Prop where
  index : availIdx = (lastAvail + pending.length) % half
  slots : ∀ i h, pending[i]? = some h → r.availRing ((lastAvail + i) % half % r.qsize) = h

variable {lastAvail availIdx : ℕ} {pending : List ℕ}

/-- Fewer than `qsize` consecutive indices have different slots, also where the index wraps.
Source: `sys/virtio.hpp` `vring::avail`
Kind: L -/
theorem slot_ne {q a i j : ℕ} (hq : q ∣ half) (hij : i < j) (hj : j < q) :
    (a + i) % half % q ≠ (a + j) % half % q := by
  rw [Nat.mod_mod_of_dvd _ hq, Nat.mod_mod_of_dvd _ hq]
  intro he
  have hdvd : q ∣ (a + j) - (a + i) := (Nat.modEq_iff_dvd' (by omega)).mp he
  have := Nat.le_of_dvd (by omega) hdvd
  omega

/-- Publishing one more head, when there is room, leaves the others in their slots.
Source: `sys/virtio.hpp` `vring::add_writable_buffers`, `vring::add_readable_buffer`
Kind: L -/
theorem SlotInv.setAvail (hs : SlotInv r lastAvail availIdx pending) (hq : r.qsize ∣ half)
    (hroom : pending.length < r.qsize) (head : ℕ) :
    SlotInv (r.setAvail availIdx head) lastAvail ((availIdx + 1) % half) (pending ++ [head]) := by
  refine ⟨?_, fun i h hi => ?_⟩
  · rw [hs.index, List.length_append, List.length_singleton, Nat.mod_add_mod, Nat.add_assoc]
  · show Function.update r.availRing (availIdx % r.qsize) head
      ((lastAvail + i) % half % r.qsize) = h
    rw [hs.index]
    rcases Nat.lt_trichotomy i pending.length with hlt | rfl | hgt
    · rw [Function.update_of_ne (slot_ne hq hlt hroom)]
      exact hs.slots i h (by rwa [List.getElem?_append_left hlt] at hi)
    · rw [Function.update_self]
      simpa using hi
    · rw [List.getElem?_eq_none (by simp; omega)] at hi
      cases hi

/-- **A chain put in its slot.** The free descriptors are handed over, and the head stands behind those
that the device has not taken yet.
Source: `sys/virtio.hpp` `vring::add_writable_buffers`, `vring::add_readable_buffer`
Kind: P -/
theorem addChain_setAvail {taken : List ℕ} (hr : RingInv r (pending ++ taken))
    (hs : SlotInv r lastAvail availIdx pending) (hq : r.qsize ∣ half) (writable : Bool)
    (hne : bufs ≠ []) (hle : bufs.length ≤ r.freeCount) :
    let a := Vring.addChain writable bufs r
    RingInv (a.1.setAvail availIdx a.2) (pending ++ [a.2] ++ taken) ∧
      SlotInv (a.1.setAvail availIdx a.2) lastAvail ((availIdx + 1) % half) (pending ++ [a.2]) ∧
      a.1.qsize = r.qsize ∧ a.1.freeCount = r.freeCount - bufs.length := by
  intro a
  obtain ⟨hr', hcount⟩ := hr.addChain writable hne hle
  obtain ⟨hrec, -⟩ := addChain_spec writable hne (hr.nodup_walk hle)
  have hqa : a.1.qsize = r.qsize := by rw [hrec]
  have hra : a.1.availRing = r.availRing := by rw [hrec]
  have hroom : pending.length < r.qsize := by
    have hlen := hr.length_le
    have hpos := List.length_pos_iff.mpr hne
    rw [List.length_append] at hlen
    omega
  have hs' : SlotInv a.1 lastAvail availIdx pending :=
    ⟨hs.index, by rw [hra, hqa]; exact hs.slots⟩
  have hperm : (pending ++ taken ++ [a.2]).Perm (pending ++ [a.2] ++ taken) := by
    rw [List.append_assoc, List.append_assoc]
    exact List.perm_append_comm.append_left pending
  have hr'' := hr'.of_perm hperm
  exact ⟨⟨hr''.chains, hr''.perm⟩, hs'.setAvail (hqa ▸ hq) (hqa ▸ hroom) a.2, hqa, hcount⟩

/-! ## Batches -/

/-- The loop of `add_writable_buffers` on lists that fit: it comes to the end, conserves the
descriptors and puts every head in its slot.
Source: `sys/virtio.hpp` `vring::add_writable_buffers`
Kind: P -/
theorem addLists_spec (lists : List (List Buf)) {taken : List ℕ}
    (hr : RingInv r (pending ++ taken)) (hs : SlotInv r lastAvail availIdx pending)
    (hq : r.qsize ∣ half) (hfit : (lists.map List.length).sum ≤ r.freeCount) :
    let l := addLists lists r availIdx
    l.2.2.2 = [] ∧ RingInv l.1 (pending ++ l.2.2.1 ++ taken) ∧
      SlotInv l.1 lastAvail l.2.1 (pending ++ l.2.2.1) ∧ l.1.qsize = r.qsize := by
  induction lists generalizing r availIdx pending with
  | nil => simpa [addLists] using ⟨hr, hs⟩
  | cons bufs rest ih =>
      rw [List.map_cons, List.sum_cons] at hfit
      by_cases hempty : bufs = []
      · simp only [addLists, hempty, if_true]
        exact ih hr hs hq (by omega)
      · have hle : bufs.length ≤ r.freeCount := by omega
        obtain ⟨hr', hs', hqa, hcount⟩ := addChain_setAvail hr hs hq true hempty hle
        simp only [addLists, hempty, if_false]
        rw [if_neg (by omega)]
        set a := Vring.addChain true bufs r with ha
        have hqs : (a.1.setAvail availIdx a.2).qsize = r.qsize := hqa
        have hgoal := ih hr' hs' (by rwa [hqs]) (by
          show _ ≤ a.1.freeCount
          omega)
        simpa [List.append_assoc, hqs] using hgoal

/-! ## Runs -/

/-- The ring, the device's position in the avail ring, the heads published and not yet taken by the
device, and the heads that it took and that are not recycled yet.
Source: `sys/virtio.hpp` `vring`
Kind: D -/
structure State where
  ring : Vring
  lastAvail : ℕ
  pending : List ℕ
  taken : List ℕ

/-- After the constructor. Source: `sys/virtio.hpp` `vring::vring`. Kind: D -/
def State.init (qsize : ℕ) (beyond : ℕ → UsedElem) : State := ⟨Vring.init qsize beyond, 0, [], []⟩

/-- What the driver and the device do. A chain is recycled by `process_used_buffers`, or by
`clean_used_buffers` (`clean`).
Source: `sys/virtio.hpp` `vring`
Kind: D -/
inductive Op where
  | addWritableBuffers (lists : List (List Buf))
  | addReadableBuffer (bufs : List Buf)
  | take
  | recycle (clean : Bool) (id : ℕ)
  deriving DecidableEq, Repr

/-- Callers add what fits in the free descriptors, the device takes what is published, and a chain
is recycled when the device, which took it, gives it back.
Source: `sys/virtio_net.cpp` `virtio_net_driver::fill_rx_ring`, `virtio_net_driver::send`
Kind: D -/
def Legal (s : State) : Op → Prop
  | .addWritableBuffers lists => (lists.map List.length).sum ≤ s.ring.freeCount
  | .addReadableBuffer bufs => bufs ≠ [] ∧ bufs.length ≤ s.ring.freeCount
  | .take => s.pending ≠ []
  | .recycle _ id => id ∈ s.taken

instance : ∀ (s : State) (op : Op), Decidable (Legal s op)
  | _, .addWritableBuffers _ => inferInstanceAs (Decidable (_ ≤ _))
  | _, .addReadableBuffer _ => inferInstanceAs (Decidable (_ ∧ _))
  | _, .take => inferInstanceAs (Decidable (_ ≠ _))
  | _, .recycle _ _ => inferInstanceAs (Decidable (_ ∈ _))

/-- One step; the device reads the head it takes from the avail ring.
Source: `sys/virtio.hpp` `vring`
Kind: D -/
def step (s : State) : Op → Option State
  | .addWritableBuffers lists =>
      let a := addWritableBuffers lists s.ring
      some { s with ring := a.1, pending := s.pending ++ a.2.1 }
  | .addReadableBuffer bufs =>
      (addReadableBuffer bufs s.ring).map fun a =>
        { s with ring := a.1, pending := s.pending ++ [a.2] }
  | .take =>
      some { s with
        lastAvail := (s.lastAvail + 1) % half
        pending := s.pending.tail
        taken := s.ring.availRing (s.lastAvail % s.ring.qsize) :: s.taken }
  | .recycle clean id =>
      (if clean then cleanUsed s.ring id else (processUsed s.ring id).map Prod.fst).map fun r =>
        { s with ring := r, taken := s.taken.erase id }

/-- The driver and the device.
Source: `sys/virtio.hpp` `vring`
Kind: D -/
def system : System State Op := ⟨Legal, step⟩

instance (s : State) (op : Op) : Decidable (system.legal s op) :=
  inferInstanceAs (Decidable (Legal s op))

/-- The descriptors are conserved, and the avail ring holds what was published.
Source: none: infrastructure
Kind: D -/
structure Conserved (s : State) : Prop where
  /-- `free_count_` steps from `free_head_` visit as many distinct descriptors. -/
  freeDistinct : s.ring.free.Nodup ∧ s.ring.free.length = s.ring.freeCount
  /-- From every head in flight the marks lead to the end of a chain. -/
  chains : ∀ h ∈ s.pending ++ s.taken, (s.ring.chain h).isSome
  /-- The free descriptors and the chains in flight are all descriptors, each once. -/
  partition : (s.ring.free ++ (s.pending ++ s.taken).flatMap s.ring.chainOf).Perm
    (List.range s.ring.qsize)
  /-- What is published and not taken is at the indices from the device's position to the avail
  index, each head in its slot. -/
  slots : SlotInv s.ring s.lastAvail s.ring.availIdx s.pending

/-- The invariant: the parts above, for a ring whose size divides the number of indices.
Source: none: infrastructure
Kind: D -/
structure Inv (s : State) : Prop where
  ring : RingInv s.ring (s.pending ++ s.taken)
  slots : SlotInv s.ring s.lastAvail s.ring.availIdx s.pending
  index : s.lastAvail < half
  size : s.ring.qsize ∣ half ∧ s.ring.qsize < half

variable {s s' : State} {op : Op}

/-- The invariant gives what should hold. Source: none: infrastructure. Kind: L -/
theorem Inv.conserved (hi : Inv s) : Conserved s where
  freeDistinct := ⟨(List.nodup_append.mp hi.ring.nodup).1, length_walk ..⟩
  chains h hh := by
    rw [chain_eq (hi.ring.chains h hh) (hi.ring.length_chainOf_le hh)]
    rfl
  partition := hi.ring.perm
  slots := hi.slots

/-- The descriptors from `i` on are linked in order at the start.
Source: `sys/virtio.hpp` `vring::vring`
Kind: L -/
theorem walk_init {qsize : ℕ} {beyond : ℕ → UsedElem} (n i : ℕ) (hin : i + n ≤ qsize) :
    walk (Vring.init qsize beyond).next n i = List.range' i n := by
  induction n generalizing i with
  | zero => rfl
  | succ n ih =>
      rw [walk, List.range'_succ]
      cases n with
      | zero => rfl
      | succ n =>
          have hnext : (Vring.init qsize beyond).next i = i + 1 := by
            show (if i = qsize - 1 then 0 else i + 1) = i + 1
            rw [if_neg (by omega)]
          rw [hnext, ih (i + 1) (by omega)]

/-- The invariant holds at the start. Source: `sys/virtio.hpp` `vring::vring`. Kind: L -/
theorem inv_init {k : ℕ} (hk : k < 16) (beyond : ℕ → UsedElem) : Inv (State.init (2 ^ k) beyond) := by
  refine ⟨⟨by simp [State.init], ?_⟩, ⟨rfl, by simp [State.init]⟩,
    show 0 < half by decide, ?_, ?_⟩
  · have : (State.init (2 ^ k) beyond).ring.free = List.range (2 ^ k) := by
      rw [List.range_eq_range']
      exact walk_init (2 ^ k) 0 (by omega)
    simp only [State.init] at this ⊢
    rw [this]
    simp [Vring.init]
  · exact Nat.pow_dvd_pow 2 hk.le
  · exact Nat.pow_lt_pow_right (by norm_num) hk

/-- Recycling a chain that the device took.
Source: `sys/virtio.hpp` `vring::process_used_buffers`, `vring::clean_used_buffers`
Kind: L -/
theorem step_recycle (hi : Inv s) (clean : Bool) {id : ℕ} (hid : id ∈ s.taken) :
    ∃ s', step s (.recycle clean id) = some s' ∧ Inv s' := by
  obtain ⟨c, hc, hr⟩ := hi.ring.recycle (List.mem_append_right s.pending hid) hi.size.2
  have hc' : ∀ refs, ({ s.ring with bufReferences := refs } : Vring).chain id = some c := fun _ => hc
  have hperm : ((s.pending ++ s.taken).erase id).Perm (s.pending ++ s.taken.erase id) := by
    by_cases hp : id ∈ s.pending
    · have h1 := (List.perm_cons_erase (List.mem_append_right s.pending hid)).symm
      have h2 := (List.perm_cons_erase hid).append_left s.pending
      exact (List.perm_cons id).mp (h1.trans (h2.trans List.perm_middle))
    · rw [List.erase_append_right _ hp]
  have hr' := hr.of_perm hperm
  cases clean with
  | true =>
      refine ⟨_, by simp only [step, cleanUsed, hc', if_true, Option.map_some]; rfl, ?_⟩
      exact ⟨⟨hr'.chains, hr'.perm⟩, ⟨hi.slots.index, hi.slots.slots⟩, hi.index, hi.size⟩
  | false =>
      refine ⟨_, by simp only [step, processUsed, hc, Option.map_some]; rfl, ?_⟩
      exact ⟨hr', ⟨hi.slots.index, hi.slots.slots⟩, hi.index, hi.size⟩

/-- Taking the next published head, which the device finds in its slot.
Source: `sys/virtio.hpp` `vring::avail`
Kind: L -/
theorem step_take (hi : Inv s) (hp : s.pending ≠ []) :
    ∃ s', step s .take = some s' ∧ Inv s' := by
  refine ⟨_, rfl, ?_⟩
  obtain ⟨h, rest, hpend⟩ := List.exists_cons_of_ne_nil hp
  have hslot : s.ring.availRing (s.lastAvail % s.ring.qsize) = h := by
    have := hi.slots.slots 0 h (by rw [hpend]; rfl)
    rwa [Nat.add_zero, Nat.mod_eq_of_lt hi.index] at this
  refine ⟨?_, ⟨?_, fun i h' hi' => ?_⟩, Nat.mod_lt _ (by decide), hi.size⟩
  · refine hi.ring.of_perm ?_
    simp only [hslot, hpend, List.tail_cons]
    exact List.perm_middle.symm
  · have := hi.slots.index
    simp only [hpend, List.tail_cons, List.length_cons] at this ⊢
    rw [this, Nat.mod_add_mod]
    congr 1
    omega
  · simp only [hpend, List.tail_cons] at hi'
    have := hi.slots.slots (i + 1) h' (by rw [hpend]; exact hi')
    rwa [show s.lastAvail + (i + 1) = s.lastAvail + 1 + i by omega, ← Nat.mod_add_mod] at this

/-- Publishing writes the index and notifies; nothing else changes.
Source: `sys/virtio.hpp` `vring::add_writable_buffers`, `vring::add_readable_buffer`
Kind: L -/
theorem inv_publish {ring : Vring} {idx : ℕ} (hr : RingInv ring (s.pending ++ s.taken))
    (hs : SlotInv ring s.lastAvail idx s.pending) (hl : s.lastAvail < half)
    (hq : ring.qsize ∣ half ∧ ring.qsize < half) : Inv { s with ring := ring.publish idx } :=
  ⟨⟨hr.chains, hr.perm⟩, ⟨hs.index, hs.slots⟩, hl, hq⟩

/-- Adding a batch that fits. Source: `sys/virtio.hpp` `vring::add_writable_buffers`. Kind: L -/
theorem step_addWritableBuffers (hi : Inv s) {lists : List (List Buf)}
    (hfit : (lists.map List.length).sum ≤ s.ring.freeCount) :
    ∃ s', step s (.addWritableBuffers lists) = some s' ∧ Inv s' := by
  refine ⟨_, rfl, ?_⟩
  obtain ⟨hend, hr, hs, hq⟩ := addLists_spec lists hi.ring hi.slots hi.size.1 hfit
  simp only [addWritableBuffers, hend, if_true]
  by_cases hnil : lists = []
  · subst hnil
    simpa [addLists] using hi
  · rw [if_neg hnil]
    exact inv_publish (s := { s with pending := s.pending ++ (addLists lists s.ring
      s.ring.availIdx).2.2.1 }) hr hs hi.index (hq ▸ hi.size)

/-- Adding a list that fits. Source: `sys/virtio.hpp` `vring::add_readable_buffer`. Kind: L -/
theorem step_addReadableBuffer (hi : Inv s) {bufs : List Buf} (hne : bufs ≠ [])
    (hfit : bufs.length ≤ s.ring.freeCount) :
    ∃ s', step s (.addReadableBuffer bufs) = some s' ∧ Inv s' := by
  -- the same loop as for a batch of one list, with descriptors the device only reads
  obtain ⟨hr, hs, hqa, -⟩ := addChain_setAvail hi.ring hi.slots hi.size.1 false hne hfit
  refine ⟨_, by simp only [step, addReadableBuffer]; rw [if_neg (by omega)]; rfl, ?_⟩
  set a := addChain false bufs s.ring with ha
  have hq' : a.1.qsize ∣ half ∧ a.1.qsize < half := hqa ▸ hi.size
  exact ⟨⟨hr.chains, hr.perm⟩, ⟨hs.index, hs.slots⟩, hi.index, hq'⟩

/-- Every step returns and keeps the invariant. Source: `sys/virtio.hpp` `vring`. Kind: P -/
theorem Inv.step (hi : Inv s) (hlegal : Legal s op) :
    ∃ s', Vring.step s op = some s' ∧ Inv s' := by
  cases op with
  | addWritableBuffers lists => exact step_addWritableBuffers hi hlegal
  | addReadableBuffer bufs => exact step_addReadableBuffer hi hlegal.1 hlegal.2
  | take => exact step_take hi hlegal
  | recycle clean id => exact step_recycle hi clean hlegal

/-- In every run the invariant holds. Source: `sys/virtio.hpp` `vring`. Kind: L -/
theorem inv_of_run {k : ℕ} (hk : k < 16) {beyond : ℕ → UsedElem} {as : List Op}
    (hrun : system.Run (State.init (2 ^ k) beyond) as s) : Inv s :=
  hrun.invariant (inv_init hk beyond) fun s op s' hi hlegal hstep => by
    obtain ⟨s'', hs'', hi'⟩ := hi.step hlegal
    obtain rfl : s'' = s' := Option.some.inj (hs''.symm.trans hstep)
    exact hi'

/-- **Descriptor conservation over whole runs.** For every power of two that is a queue size,
after every step of every run the free descriptors and the chains in flight are all descriptors,
each once, and what is published and not taken stands in its slot of the avail ring. No step
aborts.
Source: `sys/virtio.hpp` `vring::add_writable_buffers`, `vring::add_readable_buffer`,
`vring::process_used_buffers`, `vring::clean_used_buffers`
Kind: P
Fidelity: any chain in flight may be recycled; which one the code takes is in `Virtio.UsedRing`
Hyps: `hk`: queue sizes are powers of two of 16 bits -/
theorem vring_always (k : ℕ) (hk : k < 16) (beyond : ℕ → UsedElem) :
    Conserved (State.init (2 ^ k) beyond) ∧
      system.Always (State.init (2 ^ k) beyond) (fun _ _ s' => Conserved s') ∧
      ∀ as s op, system.Run (State.init (2 ^ k) beyond) as s → Legal s op →
        (Vring.step s op).isSome := by
  refine ⟨(inv_init hk beyond).conserved, fun as s op s' hrun hlegal hstep => ?_,
    fun as s op hrun hlegal => ?_⟩
  · obtain ⟨s'', hs'', hi'⟩ := (inv_of_run hk hrun).step hlegal
    obtain rfl : s'' = s' := Option.some.inj (hs''.symm.trans hstep)
    exact hi'.conserved
  · obtain ⟨s', hs', -⟩ := (inv_of_run hk hrun).step hlegal
    rw [hs']
    rfl

/-- A ring of four: a batch of a chain of two and one of one is taken, the second given back first,
and another list added.
Source: `sys/virtio.hpp` `vring`
Kind: C -/
theorem vring_always_four :
    ∃ s s', system.Run (State.init (2 ^ 2) fun _ => ⟨0, 0⟩)
        [.addWritableBuffers [[⟨1, 8⟩, ⟨2, 8⟩], [⟨3, 8⟩]], .take, .take, .recycle false 2] s ∧
      step s (.addReadableBuffer [⟨4, 8⟩, ⟨5, 8⟩]) = some s' ∧ Conserved s' ∧
      s'.ring.free = [] ∧ s'.ring.chainOf 0 = [0, 1] ∧ s'.ring.chainOf 2 = [2, 3] := by
  have h : system.Admits (State.init (2 ^ 2) fun _ => ⟨0, 0⟩)
      (([.addWritableBuffers [[⟨1, 8⟩, ⟨2, 8⟩], [⟨3, 8⟩]], .take, .take, .recycle false 2] :
        List Op) ++ [.addReadableBuffer [⟨4, 8⟩, ⟨5, 8⟩]]) := by decide
  obtain ⟨s, s', hexec, hrun, hlegal, hstep⟩ := h.last
  refine ⟨s, s', hrun, hstep, (vring_always 2 (by decide) _).2.1 _ _ _ _ hrun hlegal hstep, ?_⟩
  obtain rfl := Option.some.inj hexec
  obtain rfl := Option.some.inj hstep
  exact ⟨by decide, by decide, by decide⟩

end Vring

end EbbRT
