import EbbRT.Lib.System
import EbbRT.Lib.Walk
import EbbRT.Mem.Pfn

/-!
# The virtqueue

A `vring` is an array of `qsize_` descriptors, a ring in which the driver publishes the heads of
descriptor chains (`avail`) and one in which the device hands them back (`used`). The driver keeps
the free descriptors in the `next` links, from `free_head_` on and bounded by `free_count_` only:
the link of the last free descriptor means nothing. Chains in flight use the same links, bounded by
the flag `F_NEXT`. Indices are 16-bit and wrap; a slot is an index modulo `qsize_`.
-/

namespace EbbRT

open EbbRT.Lib

/-- The number of values of a 16-bit index.
Source: none: infrastructure
Kind: D -/
def half : ℕ := 2 ^ 16

/-- A descriptor, with the two flags that the driver writes.
Source: `sys/virtio.hpp` `vring::desc`
Kind: D -/
structure Desc where
  addr : ℕ
  len : ℕ
  /-- `flags & F_NEXT`. -/
  fNext : Bool
  /-- `flags & F_WRITE`. -/
  fWrite : Bool
  next : ℕ
  deriving DecidableEq, Repr

/-- A buffer as it is written to a descriptor: address and size.
Source: `sys/buffer.hpp` `mutable_buffer`, `const_buffer`
Kind: D -/
structure Buf where
  addr : ℕ
  size : ℕ
  deriving DecidableEq, Repr

/-- Source: `sys/virtio.hpp` `vring::used_elem`
Kind: D -/
structure UsedElem where
  id : ℕ
  len : ℕ
  deriving DecidableEq, Repr

/-- The ring in memory and the driver's fields.
Source: `sys/virtio.hpp` `vring`
Kind: D -/
structure Vring where
  /-- `qsize_`. -/
  qsize : ℕ
  /-- `desc_[i]`. -/
  desc : ℕ → Desc
  /-- `avail_->ring[i]`. -/
  availRing : ℕ → ℕ
  /-- `avail_->idx`. -/
  availIdx : ℕ
  /-- `used_->ring[i]`, also past the end of the ring. -/
  usedRing : ℕ → UsedElem
  /-- `used_->idx`. -/
  usedIdx : ℕ
  /-- `*avail_event_`. -/
  availEvent : ℕ
  /-- `*used_event_`. -/
  usedEvent : ℕ
  /-- `free_head_`. -/
  freeHead : ℕ
  /-- `free_count_`. -/
  freeCount : ℕ
  /-- `buf_references_`. -/
  bufReferences : ℕ → Option (List Buf)
  /-- How often the device was notified. -/
  kicks : ℕ

namespace Vring

/-- The links of the descriptors. Source: `sys/virtio.hpp` `vring::desc`. Kind: D -/
def next (r : Vring) (i : ℕ) : ℕ := (r.desc i).next

/-- The marks of the descriptors. Source: `sys/virtio.hpp` `vring::desc`. Kind: D -/
def more (r : Vring) (i : ℕ) : Bool := (r.desc i).fNext

/-- Everything is zeroed and the descriptors are linked in order; what is in memory past the used
ring is `beyond`.
Source: `sys/virtio.hpp` `vring::vring`
Kind: D -/
def init (qsize : ℕ) (beyond : ℕ → UsedElem) : Vring where
  qsize := qsize
  desc i := ⟨0, 0, false, false, if i = qsize - 1 then 0 else i + 1⟩
  availRing _ := 0
  availIdx := 0
  usedRing i := if i < qsize then ⟨0, 0⟩ else beyond i
  usedIdx := 0
  availEvent := 0
  usedEvent := 0
  freeHead := 0
  freeCount := qsize
  bufReferences _ := none
  kicks := 0

/-- The loop that writes one list of buffers to the free descriptors from `free_head_` on, with
`last_desc`.
Source: `sys/virtio.hpp` `vring::add_writable_buffers`, `vring::add_readable_buffer`
Kind: D -/
def writeDescs (writable : Bool) : List Buf → Vring × ℕ → Vring × ℕ
  | [], r => r
  | b :: bufs, (r, _) =>
      let d := r.desc r.freeHead
      let d' := { d with
        addr := b.addr
        len := b.size % 2 ^ 32
        fNext := true
        fWrite := d.fWrite || writable }
      writeDescs writable bufs
        ({ r with desc := Function.update r.desc r.freeHead d', freeHead := d.next }, r.freeHead)

/-- Allocate and write the descriptors of one list, and clear the mark of the last: the head of the
chain.
Source: `sys/virtio.hpp` `vring::add_writable_buffers`, `vring::add_readable_buffer`
Kind: D -/
def addChain (writable : Bool) (bufs : List Buf) (r : Vring) : Vring × ℕ :=
  let head := r.freeHead
  let w := writeDescs writable bufs ({ r with freeCount := r.freeCount - bufs.length }, r.freeHead)
  let last := { w.1.desc w.2 with fNext := false }
  ({ w.1 with desc := Function.update w.1.desc w.2 last }, head)

/-- `avail_->ring[avail_idx % qsize_] = head`.
Source: `sys/virtio.hpp` `vring::add_writable_buffers`, `vring::add_readable_buffer`
Kind: D -/
def setAvail (r : Vring) (availIdx head : ℕ) : Vring :=
  { r with availRing := Function.update r.availRing (availIdx % r.qsize) head }

/-- Store the new index and notify the device if it asked for it.
Source: `sys/virtio.hpp` `vring::add_writable_buffers`, `vring::add_readable_buffer`
Kind: D -/
def publish (r : Vring) (availIdx : ℕ) : Vring :=
  let origIdx := r.availIdx
  let since := (availIdx + 2 * half - r.availEvent - 1) % half
  let added := (availIdx + half - origIdx) % half
  { r with availIdx := availIdx, kicks := if since < added then r.kicks + 1 else r.kicks }

/-- The loop over the lists: the ring, the index reached, the heads written, and the lists from the
one that did not fit on.
Source: `sys/virtio.hpp` `vring::add_writable_buffers`
Kind: D -/
def addLists : List (List Buf) → Vring → ℕ → Vring × ℕ × List ℕ × List (List Buf)
  | [], r, availIdx => (r, availIdx, [], [])
  | bufs :: rest, r, availIdx =>
      if bufs = [] then addLists rest r availIdx
      else if r.freeCount < bufs.length then (r, availIdx, [], bufs :: rest)
      else
        let c := addChain true bufs r
        let l := addLists rest (c.1.setAvail availIdx c.2) ((availIdx + 1) % half)
        (l.1, l.2.1, c.2 :: l.2.2.1, l.2.2.2)

/-- The ring, the heads published, and the lists from the one that did not fit on: then the
function returns without storing the index.
Source: `sys/virtio.hpp` `vring::add_writable_buffers`
Kind: D -/
def addWritableBuffers (lists : List (List Buf)) (r : Vring) :
    Vring × List ℕ × List (List Buf) :=
  let l := addLists lists r r.availIdx
  if l.2.2.2 = [] then (if lists = [] then r else l.1.publish l.2.1, l.2.2.1, [])
  else (l.1, [], l.2.2.2)

/-- The ring and the head published; `none` is the `kbugon`.
Source: `sys/virtio.hpp` `vring::add_readable_buffer`
Kind: D -/
def addReadableBuffer (bufs : List Buf) (r : Vring) : Option (Vring × ℕ) :=
  if r.freeCount < bufs.length then none
  else
    let c := addChain false bufs r
    let p := (c.1.setAvail r.availIdx c.2).publish ((r.availIdx + 1) % half)
    some ({ p with bufReferences :=
      Function.update p.bufReferences c.2 ((p.bufReferences c.2).or (some bufs)) }, c.2)

/-- The descriptors that the `while` loop visits from a head; `none` when it does not end within
the descriptors there are.
Source: `sys/virtio.hpp` `vring::process_used_buffers`, `vring::clean_used_buffers`
Kind: D -/
def chain (r : Vring) (head : ℕ) : Option (List ℕ) := follow r.more r.next r.qsize head

/-- Put a visited chain in front of the free list.
Source: `sys/virtio.hpp` `vring::process_used_buffers`, `vring::clean_used_buffers`
Kind: D -/
def recycle (r : Vring) (id : ℕ) (c : List ℕ) : Vring :=
  let last := c.getLastD id
  { r with
    desc := Function.update r.desc last { r.desc last with next := r.freeHead }
    freeHead := id
    freeCount := (r.freeCount + c.length) % half }

/-- One turn of the loop of `process_used_buffers` on a used element, with the list handed to the
callback; `none` when the inner loop does not end.
Source: `sys/virtio.hpp` `vring::process_used_buffers`
Kind: D -/
def processUsed (r : Vring) (id : ℕ) : Option (Vring × List Buf) :=
  (r.chain id).map fun c => (r.recycle id c, c.map fun i => ⟨(r.desc i).addr, (r.desc i).len⟩)

/-- One turn of the loop of `clean_used_buffers` on a used element.
Source: `sys/virtio.hpp` `vring::clean_used_buffers`
Kind: D -/
def cleanUsed (r : Vring) (id : ℕ) : Option Vring :=
  let r := { r with bufReferences := Function.update r.bufReferences id none }
  (r.chain id).map fun c => r.recycle id c

end Vring

end EbbRT
