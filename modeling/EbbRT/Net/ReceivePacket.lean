import EbbRT.Virtio.Buffer
import EbbRT.Virtio.Transmit

/-!
# Receiving a packet

`ReceivePacket` copies a packet out of the receive buffer into the segments that lwIP allocates. The
first segment starts with the pad, so it takes that much less of the packet than it is long; the source
pointer is advanced by its whole length all the same. `receivePacket_exactlyWhen`: a packet in more than
one segment loses bytes after the first one and is read past its end.
-/

namespace EbbRT

namespace ReceivePacket

/-! ## The code -/

/-- The bytes of a segment; its `len` is their number.
Source: `sys/net.cpp` `NetworkManager::Interface::ReceivePacket` (`struct pbuf`)
Kind: D -/
abbrev Segment := List UInt8

/-- `n` bytes from `ptr` on.
Source: none: infrastructure
Kind: D -/
def bytesAt (mem : ℕ → UInt8) (ptr n : ℕ) : List UInt8 := (List.range' ptr n).map mem

/-- `memcpy` of `n` bytes from `ptr` to the place `add` in a segment.
Source: `sys/net.cpp` `NetworkManager::Interface::ReceivePacket`
Kind: D -/
def memcpy (mem : ℕ → UInt8) (q : Segment) (add ptr n : ℕ) : Segment :=
  q.take add ++ bytesAt mem ptr n ++ q.drop (add + n)

/-- The loop over the segments: the segments afterwards, and the addresses that were read.
Source: `sys/net.cpp` `NetworkManager::Interface::ReceivePacket`
Kind: D -/
def copyLoop (mem : ℕ → UInt8) : Bool → ℕ → List Segment → List Segment × List ℕ
  | _, _, [] => ([], [])
  | first, ptr, q :: rest =>
      let add := if first then Transmit.ethPadSize else 0
      let n := wsub q.length add
      let r := copyLoop mem false (ptr + q.length) rest
      (memcpy mem q add ptr n :: r.1, List.range' ptr n ++ r.2)

/-- The chain that is passed to lwIP, and the addresses that were read; `none` is the `kbugon`.
`pbufAlloc` is lwIP's `pbuf_alloc`.
Source: `sys/net.cpp` `NetworkManager::Interface::ReceivePacket`
Kind: D -/
def receivePacket (pbufAlloc : ℕ → Option (List Segment)) (mem : ℕ → UInt8) (buf : MutableBuffer)
    (len : ℕ) : Option (List Segment × List ℕ) :=
  (pbufAlloc ((len + Transmit.ethPadSize) % 2 ^ 32)).map fun p => copyLoop mem true buf.ptr p

/-- The callback of the receive queue: the header is skipped; `none` is the `kassert` on the size of
the list, or the `kbugon`.
Source: `sys/virtio_net.cpp` `virtio_net_driver::virtio_net_driver`
Kind: D -/
def receiveHandler (pbufAlloc : ℕ → Option (List Segment)) (mem : ℕ → UInt8)
    (list : List MutableBuffer) (len : ℕ) : Option (List Segment × List ℕ) :=
  match list with
  | [buf] =>
      receivePacket pbufAlloc mem (buf.advance Transmit.headerSize)
        (wsub len Transmit.headerSize % 2 ^ 32)
  | _ => none

/-! ## What should happen -/

/-- The bytes in front of the pad's end aside, the segments hold the packet of `len` bytes at `ptr`, and
nothing else is read.
Source: none: infrastructure
Kind: D -/
def Intact (mem : ℕ → UInt8) (ptr len : ℕ) (r : List Segment × List ℕ) : Prop :=
  r.1.flatten.drop Transmit.ethPadSize = bytesAt mem ptr len ∧ ∀ a ∈ r.2, ptr ≤ a ∧ a < ptr + len

/-- A chain for `n` bytes: the segments have positive lengths that add up to `n`, and the first one is
longer than the pad.
Source: `sys/net.cpp` `NetworkManager::Interface::ReceivePacket` (`pbuf_alloc`)
Kind: D -/
structure IsChainFor (n : ℕ) (p : List Segment) : Prop where
  positive : ∀ q ∈ p, 0 < q.length
  total : (p.map List.length).sum = n
  first : ∀ q ∈ p.head?, Transmit.ethPadSize < q.length

/-- A buffer with a header and a packet is received as the packet behind the header.
Source: `sys/virtio_net.cpp` `virtio_net_driver::virtio_net_driver`
Kind: L -/
theorem receiveHandler_eq (pbufAlloc : ℕ → Option (List Segment)) (mem : ℕ → UInt8)
    {buf : MutableBuffer} {len : ℕ} (hlen : len + Transmit.headerSize < 2 ^ 32) :
    receiveHandler pbufAlloc mem [buf] (len + Transmit.headerSize)
      = receivePacket pbufAlloc mem (buf.advance Transmit.headerSize) len := by
  have hsub : wsub (len + Transmit.headerSize) Transmit.headerSize = len := by
    rw [wsub_eq (Nat.le_add_left _ _) (hlen.trans (by decide)), Nat.add_sub_cancel]
  unfold receiveHandler
  dsimp only
  rw [hsub, Nat.mod_eq_of_lt (by omega)]

/-! ## The loop -/

variable {mem : ℕ → UInt8} {ptr len : ℕ} {q : Segment} {rest p : List Segment}

/-- Two adjacent pieces. Source: none: infrastructure. Kind: L -/
theorem bytesAt_append (mem : ℕ → UInt8) (ptr m n : ℕ) :
    bytesAt mem ptr m ++ bytesAt mem (ptr + m) n = bytesAt mem ptr (m + n) := by
  unfold bytesAt
  rw [← List.map_append, List.range'_append_1]

/-- Writing a whole segment behind a part that stays.
Source: `sys/net.cpp` `NetworkManager::Interface::ReceivePacket`
Kind: L -/
theorem memcpy_eq {add : ℕ} (h : add ≤ q.length) (hword : q.length < word) :
    memcpy mem q add ptr (wsub q.length add) = q.take add ++ bytesAt mem ptr (q.length - add) := by
  have hsub : wsub q.length add = q.length - add := wsub_eq h hword
  unfold memcpy
  rw [hsub, Nat.add_sub_cancel' h, List.drop_length, List.append_nil]

/-- **After the first segment** the loop copies what is at the pointer, without gaps.
Source: `sys/net.cpp` `NetworkManager::Interface::ReceivePacket`
Kind: L -/
theorem copyLoop_rest (mem : ℕ → UInt8) (ptr : ℕ) (hword : (p.map List.length).sum < word) :
    (copyLoop mem false ptr p).1.flatten = bytesAt mem ptr (p.map List.length).sum ∧
      (copyLoop mem false ptr p).2 = List.range' ptr (p.map List.length).sum := by
  induction p generalizing ptr with
  | nil => exact ⟨rfl, rfl⟩
  | cons q rest ih =>
      rw [List.map_cons, List.sum_cons] at hword ⊢
      have hq : q.length < word := by omega
      obtain ⟨hbytes, hreads⟩ := ih (ptr + q.length) (by omega)
      have hsub : wsub q.length 0 = q.length := wsub_eq (Nat.zero_le _) hq
      constructor
      · show (memcpy mem q 0 ptr (wsub q.length 0) :: _).flatten = _
        rw [List.flatten_cons, memcpy_eq (Nat.zero_le _) hq, List.take_zero, List.nil_append, hbytes,
          Nat.sub_zero, bytesAt_append]
      · show List.range' ptr (wsub q.length 0) ++ _ = _
        rw [hsub, hreads, List.range'_append_1]

/-- **The loop.** What it leaves behind the pad: the start of the packet in the first segment, and from
there on what is as much further on as the pad is long.
Source: `sys/net.cpp` `NetworkManager::Interface::ReceivePacket`
Kind: P -/
theorem copyLoop_spec (mem : ℕ → UInt8) (ptr : ℕ) (hpad : Transmit.ethPadSize ≤ q.length)
    (hword : q.length + (rest.map List.length).sum < word) :
    (copyLoop mem true ptr (q :: rest)).1.flatten.drop Transmit.ethPadSize
        = bytesAt mem ptr (q.length - Transmit.ethPadSize)
          ++ bytesAt mem (ptr + q.length) (rest.map List.length).sum ∧
      (copyLoop mem true ptr (q :: rest)).2
        = List.range' ptr (q.length - Transmit.ethPadSize)
          ++ List.range' (ptr + q.length) (rest.map List.length).sum := by
  have hrest : (rest.map List.length).sum < word := by omega
  obtain ⟨hbytes, hreads⟩ := copyLoop_rest mem (ptr + q.length) hrest
  have hq : q.length < word := by omega
  have hsub : wsub q.length Transmit.ethPadSize = q.length - Transmit.ethPadSize := wsub_eq hpad hq
  constructor
  · show (memcpy mem q Transmit.ethPadSize ptr (wsub q.length Transmit.ethPadSize) :: _).flatten.drop _
      = _
    rw [List.flatten_cons, memcpy_eq hpad hq, hbytes, List.append_assoc]
    apply List.drop_left'
    rw [List.length_take, Nat.min_eq_left hpad]
  · show List.range' ptr (wsub q.length Transmit.ethPadSize) ++ _ = _
    rw [hsub, hreads]

/-- **A packet is received intact exactly when it comes to lie in one segment.**
Source: `sys/net.cpp` `NetworkManager::Interface::ReceivePacket`
Kind: C
Fidelity: `pbuf_alloc` is any function that gives a chain of the length asked for
Hyps: `halloc`, `hp`: what lwIP documents of it; `hlen`: lengths have 32 bits -/
theorem receivePacket_exactlyWhen (pbufAlloc : ℕ → Option (List Segment)) (mem : ℕ → UInt8)
    (buf : MutableBuffer) (len : ℕ) (p : List Segment) (hlen : len + Transmit.ethPadSize < 2 ^ 32)
    (halloc : pbufAlloc (len + Transmit.ethPadSize) = some p)
    (hp : IsChainFor (len + Transmit.ethPadSize) p) :
    (∃ r, receivePacket pbufAlloc mem buf len = some r ∧ Intact mem buf.ptr len r) ↔
      p.length = 1 := by
  have hcall : receivePacket pbufAlloc mem buf len = some (copyLoop mem true buf.ptr p) := by
    unfold receivePacket
    rw [Nat.mod_eq_of_lt hlen, halloc, Option.map_some]
  obtain ⟨hpositive, htotal, hfirst⟩ := hp
  cases p with
  | nil =>
      rw [List.map_nil, List.sum_nil] at htotal
      exact absurd htotal (by simp [Transmit.ethPadSize])
  | cons q rest =>
      rw [List.map_cons, List.sum_cons] at htotal
      have hpad : Transmit.ethPadSize < q.length := hfirst q rfl
      have hword : q.length + (rest.map List.length).sum < word := by
        rw [htotal]
        exact hlen.trans (by decide)
      obtain ⟨hbytes, hreads⟩ := copyLoop_spec mem buf.ptr hpad.le hword
      rw [hcall]
      constructor
      · rintro ⟨r, hr, -, hinside⟩
        obtain rfl := Option.some.inj hr
        by_contra hmany
        have hne : rest ≠ [] := by
          rintro rfl
          exact hmany rfl
        obtain ⟨q', rest', rfl⟩ := List.exists_cons_of_ne_nil hne
        have hpos := hpositive q' (by simp)
        rw [List.map_cons, List.sum_cons] at htotal
        -- the last byte that is read lies behind the packet
        have hlast : buf.ptr + q.length + (q'.length + (rest'.map List.length).sum - 1)
            ∈ (copyLoop mem true buf.ptr (q :: q' :: rest')).2 := by
          rw [hreads, List.map_cons, List.sum_cons, List.mem_append, List.mem_range'_1,
            List.mem_range'_1]
          exact Or.inr ⟨by omega, by omega⟩
        have hlt := (hinside _ hlast).2
        have hpadPos : 0 < Transmit.ethPadSize := by decide
        omega
      · intro hone
        obtain rfl : rest = [] := List.eq_nil_of_length_eq_zero (Nat.succ.inj hone)
        have hq : q.length - Transmit.ethPadSize = len := by
          rw [List.map_nil, List.sum_nil] at htotal
          omega
        refine ⟨_, rfl, ?_, ?_⟩
        · rw [hbytes, hq, List.map_nil, List.sum_nil]
          exact List.append_nil _
        · intro a ha
          rw [hreads, hq, List.map_nil, List.sum_nil, List.range'_zero, List.append_nil,
            List.mem_range'_1] at ha
          exact ha

/-- A packet of four bytes in one segment. Source: `sys/net.cpp` `NetworkManager::Interface::ReceivePacket`.
Kind: C -/
theorem receivePacket_exactlyWhen_one :
    ∃ r, receivePacket (fun n => some [List.replicate n 0]) (fun a => UInt8.ofNat a)
      ⟨4096, 64, 0⟩ 4 = some r ∧ Intact (fun a => UInt8.ofNat a) 4096 4 r :=
  (receivePacket_exactlyWhen (fun n => some [List.replicate n 0]) (fun a => UInt8.ofNat a)
    ⟨4096, 64, 0⟩ 4 [List.replicate 6 0] (by decide) rfl
    { positive := by decide
      total := by decide
      first := by
        intro q hq
        obtain rfl := Option.some.inj hq
        decide }).mpr rfl

/-- A packet of four bytes in segments of four and two: the byte behind the packet is read.
Source: `sys/net.cpp` `NetworkManager::Interface::ReceivePacket`
Kind: C -/
theorem receivePacket_not_always :
    ¬ ∀ (pbufAlloc : ℕ → Option (List Segment)) (mem : ℕ → UInt8) (buf : MutableBuffer) (len : ℕ)
      (p : List Segment), len + Transmit.ethPadSize < 2 ^ 32 →
      pbufAlloc (len + Transmit.ethPadSize) = some p → IsChainFor (len + Transmit.ethPadSize) p →
      ∃ r, receivePacket pbufAlloc mem buf len = some r ∧ Intact mem buf.ptr len r := by
  intro hall
  have hchain : IsChainFor (4 + Transmit.ethPadSize) [[0, 0, 0, 0], [0, 0]] :=
    { positive := by decide
      total := by decide
      first := by
        intro q hq
        obtain rfl := Option.some.inj hq
        decide }
  obtain ⟨r, hr, -, hinside⟩ := hall (fun _ => some [[0, 0, 0, 0], [0, 0]]) (fun _ => 0)
    ⟨4096, 64, 0⟩ 4 [[0, 0, 0, 0], [0, 0]] (by decide) rfl hchain
  obtain rfl := Option.some.inj hr
  have hread := hinside 4101 (by decide)
  exact absurd hread.2 (by decide)

end ReceivePacket

end EbbRT
