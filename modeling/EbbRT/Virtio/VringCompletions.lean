import EbbRT.Virtio.Directions

/-!
# Chains decode to what was encoded

A chain describes the buffers that it was made of until the loop recycles it, whatever else is added,
taken, completed and processed in the meantime (`describes_run`). When the loop of
`process_used_buffers` comes to the completion of the chain, the callback gets these buffers if the used
element that was read is the one of that completion. `vring_decodes` proves it while no element is read
past the end of the used ring, and `vring_decodes_not_always` has the first read after that, which passes
another chain's buffers.
-/

namespace EbbRT

open EbbRT.Lib

namespace Vring

/-! ## What should hold -/

/-- If `process_used_buffers` is about to process the completion of the chain from `head`, then `f` gets
`bufs`.
Source: `sys/virtio.hpp` `vring::process_used_buffers`
Kind: D -/
def Passes (u : UsedState) (head : ℕ) (bufs : List Buf) : Prop :=
  ∀ i elem len, u.pc = .recycle false i elem → u.completions[u.delivered.length]? = some ⟨head, len⟩ →
    (u.queue.ring.processUsed elem.id).map Prod.snd = some bufs

/-- A batch of owned buffers that fits is published, and each of its chains is passed to `f` on its
completion with the original bases and full sizes in order; a readable list that fits is published, and
until its chain is processed the device finds the buffers in it. `M` has the steps that may follow.
Source: `sys/virtio.hpp` `vring::add_writable_buffers`, `vring::add_readable_buffer`,
`vring::process_used_buffers`
Kind: D -/
def Decodes (M : System MixedState MixedOp) (s : MixedState) : Prop :=
  (∀ lists : List (List MutableBuffer), (∀ list ∈ lists, ∀ buf ∈ list, buf.ptr ≠ 0) →
    (lists.map List.length).sum ≤ s.used.queue.ring.freeCount →
    ∃ s' heads, mixedStep s (.addWritableBuffers lists) = some s' ∧
      s'.used.queue.pending = s.used.queue.pending ++ heads ∧
      List.Forall₂ (fun head list => (∀ buf ∈ list, buf.size + buf.offset < 2 ^ 32) →
        ∀ bs t, M.Run s' bs t → head ∉ processedSince s'.used t.used →
          Passes t.used head (list.map fun buf => ⟨buf.base, buf.size + buf.offset⟩))
        heads (lists.filter fun list => !list.isEmpty)) ∧
  ∀ bufs : List Buf, bufs ≠ [] → bufs.length ≤ s.used.queue.ring.freeCount →
    ∃ s' head, mixedStep s (.addReadableBuffer bufs) = some s' ∧
      s'.used.queue.pending = s.used.queue.pending ++ [head] ∧
      ((∀ buf ∈ bufs, buf.size < 2 ^ 32) →
        ∀ bs t, M.Run s' bs t → head ∉ processedSince s'.used t.used →
          t.used.queue.ring.contents head = some bufs)

/-! ## A chain over whole runs -/

variable {s s' t : MixedState} {head : ℕ} {bufs : List Buf} {bs : List MixedOp}

/-- **One step.** A chain in flight that the step does not process goes on describing its buffers.
Source: `sys/virtio.hpp` `vring`
Kind: P -/
theorem mixedStep_describes {op : MixedOp} (hk : Kept s.used) (hlegal : MixedLegal s op)
    (hstep : mixedStep s op = some s') :
    ∃ new, s'.used.delivered = s.used.delivered ++ new ∧
      (Describes s.used.queue head bufs → head ∉ new.map UsedElem.id →
        Describes s'.used.queue head bufs) := by
  -- the device and the loop
  have hused : ∀ op', (∀ op'', op' = .queue op'' → op'' = .take) → UsedLegal s.used op' →
      (usedStep s.used op').map (fun u => { s with used := u }) = some s' →
      ∃ new, s'.used.delivered = s.used.delivered ++ new ∧
        (Describes s.used.queue head bufs → head ∉ new.map UsedElem.id →
          Describes s'.used.queue head bufs) := by
    intro op' hop hlegal' hstep'
    obtain ⟨u, hu, rfl⟩ := Option.map_eq_some_iff.mp hstep'
    have hp := hk.processes hlegal' hop hu
    exact ⟨_, hp.delivered, fun hd hnew => hd.processes hk hp hnew⟩
  cases op with
  | addWritableBuffers lists =>
      obtain ⟨q, hq, rfl⟩ := Option.map_eq_some_iff.mp hstep
      obtain ⟨b, hb, rfl⟩ := Option.map_eq_some_iff.mp hq
      obtain ⟨-, hsame, -⟩ := hk.batch hb rfl
      refine ⟨[], (List.append_nil _).symm, fun ⟨hh, hcontents⟩ _ => ?_⟩
      obtain ⟨hh', hcontents'⟩ := hsame head hh
      exact ⟨hh', hcontents'.trans hcontents⟩
  | addReadableBuffer list =>
      obtain ⟨q, hq, rfl⟩ := Option.map_eq_some_iff.mp hstep
      obtain ⟨-, hpending, htaken, -, -, hsame⟩ := hk.addReadable hlegal hq
      refine ⟨[], (List.append_nil _).symm, fun ⟨hh, hcontents⟩ _ => ⟨?_, ?_⟩⟩
      · show head ∈ q.pending ++ q.taken
        rw [hpending, htaken]
        rcases List.mem_append.mp hh with hp | ht
        · exact List.mem_append_left _ (List.mem_append_left _ hp)
        · exact List.mem_append_right _ ht
      · exact (hsame head hh).trans hcontents
  | take => exact hused (.queue .take) (fun _ h => (UsedOp.queue.inj h).symm) hlegal hstep
  | complete id len => exact hused (.complete id len) (fun _ h => nomatch h) hlegal hstep
  | call clean => exact hused (.call clean) (fun _ h => nomatch h) hlegal hstep
  | run => exact hused .run (fun _ h => nomatch h) hlegal hstep

/-- The invariant after a run. Source: `sys/virtio.hpp` `vring`. Kind: L -/
theorem kept_of_run (hk : Kept s.used) (hrun : (mixedSystem.guard InsideUsedRing).Run s bs t) :
    Kept t.used := by
  apply hrun.invariant (I := fun t => Kept t.used) hk
  intro t op t' hk hlegal hstep
  exact (mixedStep_directed hk hlegal.1 hlegal.2 hstep).1

/-- **A chain in flight describes the same buffers** in every run, until it is processed.
Source: `sys/virtio.hpp` `vring`
Kind: P -/
theorem describes_run (hk : Kept s.used) (hd : Describes s.used.queue head bufs)
    (hrun : (mixedSystem.guard InsideUsedRing).Run s bs t) :
    head ∉ processedSince s.used t.used → Describes t.used.queue head bufs := by
  suffices h : s.used.delivered.length ≤ t.used.delivered.length ∧
      (head ∉ processedSince s.used t.used → Describes t.used.queue head bufs) from h.2
  induction hrun with
  | nil => exact ⟨le_rfl, fun _ => hd⟩
  | @snoc bs t op t' run legal step ih =>
      obtain ⟨hle, hdt⟩ := ih
      obtain ⟨new, hnew, hkeep⟩ : ∃ new, t'.used.delivered = t.used.delivered ++ new ∧
          (Describes t.used.queue head bufs → head ∉ new.map UsedElem.id →
            Describes t'.used.queue head bufs) :=
        mixedStep_describes (kept_of_run hk run) legal.1 step
      rw [processedSince_append hnew hle, List.mem_append, not_or, hnew, List.length_append]
      exact ⟨hle.trans (Nat.le_add_right _ _), fun hout => hkeep (hdt hout.1) hout.2⟩

/-- The element that was read is the one of the next completion, so `f` gets what its chain describes.
Source: `sys/virtio.hpp` `vring::process_used_buffers`
Kind: L -/
theorem Describes.passes (hd : Describes t.used.queue head bufs) (hk : Kept t.used) :
    Passes t.used head bufs := by
  intro i elem len hpc hnext
  obtain ⟨lost, hu⟩ := hk.used
  have hp := hu.pc
  have hpclose : (t.used.lose lost).pc = .recycle false i elem := hpc
  simp only [PcInv, hpclose] at hp
  have hread : t.used.completions[t.used.delivered.length]? = some elem := hp.2.1
  obtain rfl : elem = ⟨head, len⟩ := Option.some.inj (hread.symm.trans hnext)
  rw [processUsed_eq]
  exact hd.2

/-! ## The result -/

/-- **Descriptor chains decode to what was encoded.** In every state of every run in which no used element
is read past the end of the ring, a batch of owned buffers that fits is published, and each of its chains,
in every such further run, is passed to the callback on its completion with the original bases and full
sizes in order; and a readable chain describes its buffers until it is processed.
Source: `sys/virtio.hpp` `vring::add_writable_buffers`, `vring::add_readable_buffer`,
`vring::process_used_buffers`
Kind: C
Fidelity: weaker than the code promises: `InsideUsedRing` leaves out reads past the end of the ring
Hyps: `hk`: queue sizes are powers of two of 16 bits -/
theorem vring_decodes (k : ℕ) (hk : k < 16) (beyond : ℕ → UsedElem) (as : List MixedOp) (s : MixedState)
    (hrun : (mixedSystem.guard InsideUsedRing).Run (MixedState.init (2 ^ k) beyond) as s) :
    Decodes (mixedSystem.guard InsideUsedRing) s := by
  have hkept : Kept s.used := kept_of_run (kept_init hk beyond) hrun
  constructor
  · intro lists howned hfit
    obtain ⟨b', hloop, hit⟩ := batchLoop_of_fits s.used.queue.ring s.used.queue.ring.availIdx howned hfit
    obtain ⟨b, hb⟩ : ∃ b, addMutableBuffers lists s.used.queue.ring = some b := by
      unfold addMutableBuffers
      rw [hloop]
      exact ⟨_, rfl⟩
    obtain ⟨b'', hloop', hit', -⟩ := addMutableBuffers_cases hb
    obtain rfl := Option.some.inj (hloop.symm.trans hloop')
    set q : State := { s.used.queue with
      ring := b.ring
      pending := s.used.queue.pending ++ publishedBy s.used.queue.ring b.ring } with hq
    obtain ⟨hkept', -, hchains⟩ := hkept.batch hb hq
    have hstep : mixedStep s (.addWritableBuffers lists) = some (s.publish true q) := by
      simp only [mixedStep, bufferStep, hb, Option.map_some, hq]
    have hnew : ∀ head ∈ publishedBy s.used.queue.ring b.ring, head ∈ q.inFlight :=
      fun head hhead => List.mem_append_left _ (List.mem_append_right _ hhead)
    have hchains' := hchains (hit'.symm.trans hit)
    unfold accepted at hchains'
    rw [List.take_length] at hchains'
    refine ⟨s.publish true q, publishedBy s.used.queue.ring b.ring, hstep, rfl, ?_⟩
    apply ((List.forall₂_and_left _ _).mpr ⟨hnew, hchains'⟩).imp
    rintro head list ⟨hin, hcontents⟩ hsize bs t hrun' hout
    rw [encoded_eq hsize] at hcontents
    have hkept' : Kept (s.publish true q).used := hkept'
    exact (describes_run hkept' ⟨hin, hcontents⟩ hrun' hout).passes (kept_of_run hkept' hrun')
  · intro bufs hne hfit
    obtain ⟨a, ha⟩ : ∃ a, addReadableBuffer bufs s.used.queue.ring = some a := by
      rw [addReadableBuffer, if_neg (Nat.not_lt.mpr hfit)]
      exact ⟨_, rfl⟩
    set q : State := { s.used.queue with ring := a.1, pending := s.used.queue.pending ++ [a.2] }
    have hq : step s.used.queue (.addReadableBuffer bufs) = some q :=
      Option.map_eq_some_iff.mpr ⟨a, ha, rfl⟩
    have hstep : mixedStep s (.addReadableBuffer bufs) = some (s.publish false q) :=
      Option.map_eq_some_iff.mpr ⟨q, hq, rfl⟩
    obtain ⟨hkept', hpending, -, -, hcontents, -⟩ := hkept.addReadable hne hq
    refine ⟨s.publish false q, s.used.queue.ring.freeHead, hstep, hpending, fun hsize bs t hrun' hout => ?_⟩
    rw [map_mod_eq hsize] at hcontents
    have hin : s.used.queue.ring.freeHead ∈ q.inFlight := by
      unfold State.inFlight
      rw [hpending]
      exact List.mem_append_left _ (List.mem_append_right _ (List.mem_singleton_self _))
    have hkept' : Kept (s.publish false q).used := hkept'
    exact (describes_run hkept' ⟨hin, hcontents⟩ hrun' hout).2

/-- A ring of four: a list of two buffers, the first of them advanced, is passed on as it was after another
list was added and the device has completed the chain.
Source: `sys/virtio.hpp` `vring`
Kind: C -/
theorem vring_decodes_four :
    ∃ s' t, mixedStep (MixedState.init (2 ^ 2) fun _ => ⟨0, 0⟩)
        (.addWritableBuffers [[], [⟨4108, 1988, 12⟩, ⟨8192, 2048, 0⟩]]) = some s' ∧
      mixedSystem.Run s' [.addReadableBuffer [⟨12288, 60⟩], .take, .complete 0 60, .call false, .run, .run] t ∧
      t.used.pc = .recycle false 0 ⟨0, 60⟩ ∧
      (t.used.queue.ring.processUsed 0).map Prod.snd = some [⟨4096, 2000⟩, ⟨8192, 2048⟩] := by
  obtain ⟨s', heads, hstep, hpending, hchains⟩ :=
    (vring_decodes 2 (by decide) (fun _ => ⟨0, 0⟩) [] _ System.Run.nil).1
      [[], [⟨4108, 1988, 12⟩, ⟨8192, 2048, 0⟩]] (by decide) (by decide)
  obtain ⟨head, rest, hdecode, -, rfl⟩ := List.forall₂_cons_right_iff.mp hchains
  have hadmits : (mixedSystem.guard InsideUsedRing).Admits (MixedState.init (2 ^ 2) fun _ => ⟨0, 0⟩)
      [.addWritableBuffers [[], [⟨4108, 1988, 12⟩, ⟨8192, 2048, 0⟩]],
        .addReadableBuffer [⟨12288, 60⟩], .take, .complete 0 60, .call false, .run, .run] := by decide
  obtain ⟨-, hrest⟩ := hadmits
  have hfirst : (mixedSystem.guard InsideUsedRing).step (MixedState.init (2 ^ 2) fun _ => ⟨0, 0⟩)
      (.addWritableBuffers [[], [⟨4108, 1988, 12⟩, ⟨8192, 2048, 0⟩]]) = some s' := hstep
  rw [hfirst] at hrest
  obtain ⟨t, hexec, ht⟩ := System.Run.of_admits hrest
  have hpasses := hdecode (by decide) _ _ ht
  obtain rfl := Option.some.inj hstep
  obtain rfl := Option.some.inj hexec
  obtain rfl : head = 0 := (List.cons.inj hpending).1.symm
  exact ⟨_, _, rfl, ht.of_guard, by decide, hpasses (by decide) 0 ⟨0, 60⟩ 60 (by decide) (by decide)⟩

/-- A ring of two: the third chain is completed, the element past the end of the used ring is read, and the
callback gets what the free descriptor 0 still describes.
Source: `sys/virtio.hpp` `vring::process_used_buffers`
Kind: P -/
theorem vring_decodes_not_always :
    ¬ ∀ k < 16, ∀ beyond as s, mixedSystem.Run (MixedState.init (2 ^ k) beyond) as s →
      Decodes mixedSystem s := by
  intro hall
  have hadmits : mixedSystem.Admits (MixedState.init (2 ^ 1) fun _ => ⟨0, 0⟩)
      (([.addWritableBuffers [[⟨4096, 2048, 0⟩], [⟨8192, 2048, 0⟩]], .take, .take, .complete 0 60,
        .complete 1 60, .call false, .run, .run, .run, .run, .run, .run] : List MixedOp) ++
        [.addWritableBuffers [[⟨12288, 2048, 0⟩]], .take, .complete 1 60, .run, .run]) := by decide
  obtain ⟨s, hexec, hrun, -, hrest⟩ := hadmits.append
  obtain ⟨hbatch, -⟩ := hall 1 (by decide) _ _ s hrun
  have hfree : (([[⟨12288, 2048, 0⟩]] : List (List MutableBuffer)).map List.length).sum
      ≤ s.used.queue.ring.freeCount := by
    obtain rfl := Option.some.inj hexec
    decide
  obtain ⟨s', heads, hstep, hpending, hchains⟩ := hbatch [[⟨12288, 2048, 0⟩]] (by decide) hfree
  obtain ⟨head, rest, hdecode, -, rfl⟩ := List.forall₂_cons_right_iff.mp hchains
  have hfirst : mixedSystem.step s (.addWritableBuffers [[⟨12288, 2048, 0⟩]]) = some s' := hstep
  rw [hfirst] at hrest
  obtain ⟨t, hexec', hrun'⟩ := System.Run.of_admits hrest
  obtain rfl := Option.some.inj hexec
  obtain rfl := Option.some.inj hstep
  obtain rfl : head = 1 := (List.cons.inj hpending).1.symm
  have hpasses := hdecode (by decide) _ _ hrun'
  obtain rfl := Option.some.inj hexec'
  -- the third completion is that of head 1, and the element that was read has the id 0
  have hpassed := hpasses (by decide) 2 ⟨0, 0⟩ 60 (by decide) (by decide)
  exact absurd hpassed (by decide)

end Vring

end EbbRT
