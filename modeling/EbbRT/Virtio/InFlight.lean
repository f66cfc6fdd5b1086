import EbbRT.Virtio.UsedRing
import EbbRT.Virtio.VringDecode

/-!
# The chains in flight

A batch may be refused, and then the chains in front of the refused list are lost. `Kept` is the
invariant of the used ring up to such chains; it holds while no used element is read past the end of the
ring (`Kept.step`). A step of the device or of the loop leaves the chains in flight as they are, except
for the one that the loop processes (`Kept.processes`).
-/

namespace EbbRT

open EbbRT.Lib

namespace Vring

/-- The heads published and not recycled. Source: none: infrastructure. Kind: D -/
def State.inFlight (s : State) : List ℕ := s.pending ++ s.taken

/-- The same when chains are lost. Source: none: infrastructure. Kind: D -/
def UsedState.lose (u : UsedState) (lost : List ℕ) : UsedState := { u with queue := u.queue.lose lost }

/-- What holds of the queue whatever is added to it: the descriptors are conserved, up to lost chains, and
the device completes only what was published.
Source: none: infrastructure
Kind: D -/
structure Kept (u : UsedState) : Prop where
  used : ∃ lost, UsedInv (u.lose lost)
  returned : ∀ id ∈ u.outstanding, id ∈ u.queue.taken

variable {u u' : UsedState} {q : State} {h head : ℕ} {bufs : List Buf}

/-- Lost chains come on top of those in flight. Source: none: infrastructure. Kind: L -/
theorem mem_of_inFlight (lost : List ℕ) (hh : h ∈ q.inFlight) :
    h ∈ q.pending ++ (q.taken ++ lost) := by
  rw [← List.append_assoc]
  exact List.mem_append_left lost hh

/-! ## The device and the loop -/

/-- One step of the loop moves the driver on, or recycles the chain of the element that was read.
Source: `sys/virtio.hpp` `vring::process_used_buffers`, `vring::clean_used_buffers`
Kind: L -/
theorem runStep_cases (hstep : runStep u = some u') :
    ((∀ clean i elem, u.pc ≠ .recycle clean i elem) ∧ ∃ pc event, u' = { u with
      queue := { u.queue with ring := { u.queue.ring with usedEvent := event } }, pc := pc }) ∨
    ∃ clean i elem q, u.pc = .recycle clean i elem ∧ step u.queue (.recycle clean elem.id) = some q ∧
      u' = { u with
        queue := q, pc := .check clean ((i + 1) % half), delivered := u.delivered ++ [elem] } := by
  cases hpc : u.pc with
  | idle =>
      simp only [runStep, hpc] at hstep
      cases hstep
  | check clean i =>
      simp only [runStep, hpc] at hstep
      split at hstep <;>
      · obtain rfl := Option.some.inj hstep
        exact Or.inl ⟨by simp, _, _, rfl⟩
  | recheck clean i =>
      simp only [runStep, hpc] at hstep
      split at hstep <;>
      · obtain rfl := Option.some.inj hstep
        exact Or.inl ⟨by simp, _, u.queue.ring.usedEvent, rfl⟩
  | fetch clean i =>
      simp only [runStep, hpc] at hstep
      obtain rfl := Option.some.inj hstep
      exact Or.inl ⟨by simp, _, u.queue.ring.usedEvent, rfl⟩
  | recycle clean i elem =>
      simp only [runStep, hpc] at hstep
      obtain ⟨q, hq, rfl⟩ := Option.map_eq_some_iff.mp hstep
      exact Or.inr ⟨clean, i, elem, q, rfl, hq, rfl⟩

/-- The element that was read was published. Source: none: infrastructure. Kind: L -/
theorem Kept.mem_taken (hk : Kept u) {clean : Bool} {i : ℕ} {elem : UsedElem}
    (hpc : u.pc = .recycle clean i elem) :
    elem.id ∈ u.queue.taken ∧ elem.id ∉ (u.completions.drop (u.delivered.length + 1)).map UsedElem.id ∧
      u.outstanding = elem.id :: (u.completions.drop (u.delivered.length + 1)).map UsedElem.id := by
  obtain ⟨lost, hu⟩ := hk.used
  have hout : u.outstanding = _ := hu.outstanding_eq hpc
  have hdistinct : u.outstanding.Nodup := hu.distinct
  rw [hout, List.nodup_cons] at hdistinct
  exact ⟨hk.returned _ (by rw [hout]; exact List.mem_cons_self), hdistinct.1, hout⟩

/-- A step of the device or the loop is the same when chains are lost.
Source: `sys/virtio.hpp` `vring`
Kind: L -/
theorem usedStep_lose (hk : Kept u) {op : UsedOp} (lost : List ℕ) (hlegal : UsedLegal u op)
    (hstep : usedStep u op = some u') :
    UsedLegal (u.lose lost) op ∧ usedStep (u.lose lost) op = some (u'.lose lost) := by
  cases op with
  | queue op =>
      obtain ⟨q, hq, rfl⟩ := Option.map_eq_some_iff.mp hstep
      have hadds : ∀ clean id, op = .recycle clean id → id ∈ u.queue.taken := by
        rintro clean id rfl
        exact hlegal.1.elim
      refine ⟨⟨hlegal.1, ?_⟩, Option.map_eq_some_iff.mpr ⟨_, step_lose op lost hadds hq, rfl⟩⟩
      cases op with
      | recycle clean id => exact hlegal.1.elim
      | _ => exact hlegal.2
  | complete id len =>
      obtain rfl := Option.some.inj hstep
      exact ⟨⟨List.mem_append_left lost hlegal.1, hlegal.2⟩, rfl⟩
  | call clean =>
      obtain rfl := Option.some.inj hstep
      exact ⟨hlegal, rfl⟩
  | run =>
      refine ⟨hlegal, ?_⟩
      show runStep (u.lose lost) = _
      have hstep : runStep u = some u' := hstep
      have hpclose : (u.lose lost).pc = u.pc := rfl
      cases hpc : u.pc with
      | recycle clean i elem =>
          simp only [runStep, hpc] at hstep
          obtain ⟨q, hq, rfl⟩ := Option.map_eq_some_iff.mp hstep
          have hlose := step_lose (.recycle clean elem.id) lost (fun clean' id' h => by
            obtain ⟨-, rfl⟩ := Op.recycle.inj h
            exact (hk.mem_taken hpc).1) hq
          simp only [runStep, hpclose, hpc]
          exact Option.map_eq_some_iff.mpr ⟨_, hlose, rfl⟩
      | idle =>
          simp only [runStep, hpc] at hstep
          cases hstep
      | check clean i =>
          simp only [runStep, hpclose, hpc] at hstep ⊢
          split at hstep <;> rename_i hi <;> obtain rfl := Option.some.inj hstep
          · exact if_pos hi
          · exact if_neg hi
      | recheck clean i =>
          simp only [runStep, hpclose, hpc] at hstep ⊢
          split at hstep <;> rename_i hi <;> obtain rfl := Option.some.inj hstep
          · exact if_pos hi
          · exact if_neg hi
      | fetch clean i =>
          simp only [runStep, hpclose, hpc] at hstep ⊢
          obtain rfl := Option.some.inj hstep
          rfl

/-- The device completes only what was published, after every step of the first round.
Source: `sys/virtio.hpp` `vring`
Kind: L -/
theorem Kept.step (hk : Kept u) {op : UsedOp} (hlegal : UsedLegal u op) (hok : FirstRound u op)
    (hstep : usedStep u op = some u') : Kept u' := by
  obtain ⟨lost, hu⟩ := hk.used
  obtain ⟨hlegal', hstep'⟩ := usedStep_lose hk lost hlegal hstep
  refine ⟨⟨lost, hu.step hlegal' hok hstep'⟩, ?_⟩
  cases op with
  | queue op =>
      obtain ⟨q, hq, rfl⟩ := Option.map_eq_some_iff.mp hstep
      exact fun id hid => taken_subset_of_adds hlegal.1 hq id (hk.returned id hid)
  | complete id len =>
      obtain rfl := Option.some.inj hstep
      have hle : u.delivered.length ≤ u.completions.length := hu.inOrder.length_le
      intro a ha
      simp only [UsedState.outstanding, List.drop_append_of_le_length hle, List.map_append,
        List.mem_append] at ha
      rcases ha with ha | ha
      · exact hk.returned a ha
      · rw [List.mem_singleton.mp ha]
        exact hlegal.1
  | call clean =>
      obtain rfl := Option.some.inj hstep
      exact hk.returned
  | run =>
      rcases runStep_cases hstep with ⟨-, pc, event, rfl⟩ | ⟨clean, i, elem, q, hpc, hq, rfl⟩
      · exact hk.returned
      · obtain ⟨-, hnew, hout⟩ := hk.mem_taken hpc
        have htaken : q.taken = u.queue.taken.erase elem.id := by
          obtain ⟨r, -, rfl⟩ := Option.map_eq_some_iff.mp hq
          rfl
        intro id hid
        have hid : id ∈ (u.completions.drop (u.delivered.length + 1)).map UsedElem.id := by
          simpa only [UsedState.outstanding, List.length_append, List.length_singleton] using hid
        show id ∈ q.taken
        rw [htaken]
        refine (List.mem_erase_of_ne ?_).mpr (hk.returned id ?_)
        · rintro rfl
          exact hnew hid
        · rw [hout]
          exact List.mem_cons_of_mem _ hid

/-- The invariant holds at the start. Source: `sys/virtio.hpp` `vring::vring`. Kind: L -/
theorem kept_init {k : ℕ} (hk : k < 16) (beyond : ℕ → UsedElem) : Kept (UsedState.init (2 ^ k) beyond) := by
  refine ⟨⟨[], usedInv_init hk beyond⟩, fun id hid => ?_⟩
  exact absurd hid (by simp [UsedState.init, UsedState.outstanding])

/-! ## What a step leaves in flight -/

/-- From `u` to `u'` the loop recycled the chains of `new`; the others stay in flight as they are.
Source: none: infrastructure
Kind: D -/
structure Processes (u u' : UsedState) (new : List UsedElem) : Prop where
  delivered : u'.delivered = u.delivered ++ new
  qsize : u'.queue.ring.qsize = u.queue.ring.qsize
  inFlight : ∀ h, h ∈ u'.queue.inFlight ↔ h ∈ u.queue.inFlight ∧ h ∉ new.map UsedElem.id
  desc : ∀ h ∈ u'.queue.inFlight, ∀ x ∈ u.queue.ring.chainOf h,
    u'.queue.ring.desc x = u.queue.ring.desc x

/-- No chain is recycled, and no descriptor is written. Source: none: infrastructure. Kind: L -/
theorem Processes.of_desc (hdelivered : u'.delivered = u.delivered)
    (hqsize : u'.queue.ring.qsize = u.queue.ring.qsize)
    (hflight : ∀ h, h ∈ u'.queue.inFlight ↔ h ∈ u.queue.inFlight)
    (hdesc : u'.queue.ring.desc = u.queue.ring.desc) : Processes u u' [] where
  delivered := by rw [hdelivered, List.append_nil]
  qsize := hqsize
  inFlight h := by simp [hflight]
  desc _ _ x _ := congrFun hdesc x

/-- The element that a step processes: the one that the loop has read, when it goes on.
Source: `sys/virtio.hpp` `vring::process_used_buffers`, `vring::clean_used_buffers`
Kind: D -/
def UsedState.processing (u : UsedState) : UsedOp → List UsedElem
  | .run =>
      match u.pc with
      | .recycle _ _ elem => [elem]
      | _ => []
  | _ => []

/-- Anywhere else in the loop nothing is processed. Source: none: infrastructure. Kind: L -/
theorem processing_run_eq_nil (hpc : ∀ clean i elem, u.pc ≠ .recycle clean i elem) :
    u.processing .run = [] := by
  unfold UsedState.processing
  cases hp : u.pc with
  | recycle clean i elem => exact absurd hp (hpc clean i elem)
  | _ => rfl

/-- **A step of the device or the loop** leaves the chains in flight as they are, except for the one that
it processes.
Source: `sys/virtio.hpp` `vring::process_used_buffers`, `vring::clean_used_buffers`
Kind: P -/
theorem Kept.processes (hk : Kept u) {op : UsedOp} (hlegal : UsedLegal u op)
    (hop : ∀ op', op = .queue op' → op' = .take) (hstep : usedStep u op = some u') :
    Processes u u' (u.processing op) := by
  obtain ⟨lost, hu⟩ := hk.used
  cases op with
  | queue op =>
      obtain ⟨q, hq, rfl⟩ := Option.map_eq_some_iff.mp hstep
      obtain rfl := hop op rfl
      have hlose := step_lose .take lost (fun _ _ h => nomatch h) hq
      obtain ⟨-, hperm, hring⟩ := take_spec hu.queue hlegal.2 hlose
      have hring : q.ring = u.queue.ring := hring
      have hperm : (q.pending ++ (q.taken ++ lost)).Perm (u.queue.pending ++ (u.queue.taken ++ lost)) :=
        hperm
      rw [← List.append_assoc, ← List.append_assoc, List.perm_append_right_iff] at hperm
      exact .of_desc rfl (congrArg qsize hring) (fun _ => hperm.mem_iff) (congrArg desc hring)
  | complete id len =>
      obtain rfl := Option.some.inj hstep
      exact .of_desc rfl rfl (fun _ => Iff.rfl) rfl
  | call clean =>
      obtain rfl := Option.some.inj hstep
      exact .of_desc rfl rfl (fun _ => Iff.rfl) rfl
  | run =>
      rcases runStep_cases hstep with ⟨hpc, pc, event, rfl⟩ | ⟨clean, i, elem, q, hpc, hq, rfl⟩
      · rw [processing_run_eq_nil hpc]
        exact .of_desc rfl rfl (fun _ => Iff.rfl) rfl
      · have hprocessing : u.processing .run = [elem] := by
          simp only [UsedState.processing, hpc]
        obtain ⟨hid, -, -⟩ := hk.mem_taken hpc
        have hlose := step_lose (.recycle clean elem.id) lost (fun clean' id' h => by
          obtain ⟨-, rfl⟩ := Op.recycle.inj h
          exact hid) hq
        obtain ⟨hpending, -, hsize, hframe⟩ :=
          recycle_frame hu.queue (List.mem_append_left lost hid) hlose
        have htaken : q.taken = u.queue.taken.erase elem.id := by
          obtain ⟨r, -, rfl⟩ := Option.map_eq_some_iff.mp hq
          rfl
        have hpending : q.pending = u.queue.pending := hpending
        have hnd : (u.queue.pending ++ (u.queue.taken ++ lost)).Nodup := hu.queue.ring.nodup_heads
        rw [← List.append_assoc] at hnd
        obtain ⟨-, hndtaken, hdis⟩ := List.nodup_append'.mp (List.nodup_append'.mp hnd).1
        -- the recycled chain is no longer in flight
        have hflight : ∀ h, h ∈ q.inFlight ↔ h ∈ u.queue.inFlight ∧ h ≠ elem.id := by
          intro h
          unfold State.inFlight
          rw [hpending, htaken, List.mem_append, List.mem_append, hndtaken.mem_erase_iff]
          constructor
          · rintro (hp | ⟨hne, ht⟩)
            · refine ⟨Or.inl hp, ?_⟩
              rintro rfl
              exact hdis hp hid
            · exact ⟨Or.inr ht, hne⟩
          · rintro ⟨hp | ht, hne⟩
            · exact Or.inl hp
            · exact Or.inr ⟨hne, ht⟩
        rw [hprocessing]
        refine ⟨rfl, hsize, fun h => ?_, fun h hh => ?_⟩
        · simp [hflight]
        · obtain ⟨hold, hne⟩ := (hflight h).mp hh
          exact hframe h (mem_of_inFlight lost hold) hne

/-- **Adding a list**: its chain starts at the free descriptor that was next, describes the list with sizes
of 32 bits, and leaves the chains in flight alone.
Source: `sys/virtio.hpp` `vring::add_readable_buffer`
Kind: P -/
theorem Kept.addReadable (hk : Kept u) (hne : bufs ≠ [])
    (hstep : Vring.step u.queue (.addReadableBuffer bufs) = some q) :
    Kept { u with queue := q } ∧ q.pending = u.queue.pending ++ [u.queue.ring.freeHead] ∧
      q.taken = u.queue.taken ∧ u.queue.ring.freeHead ∉ u.queue.inFlight ∧
      q.ring.contents u.queue.ring.freeHead = some (bufs.map fun b => ⟨b.addr, b.size % 2 ^ 32⟩) ∧
      ∀ h ∈ u.queue.inFlight, q.ring.contents h = u.queue.ring.contents h := by
  obtain ⟨lost, hu⟩ := hk.used
  have hlose := step_lose (.addReadableBuffer bufs) lost (fun _ _ h => nomatch h) hstep
  obtain ⟨hinv, hpending, -, hnew, hcontents, hsame⟩ := add_spec hu.queue hne hlose
  have htaken : q.taken = u.queue.taken := by
    obtain ⟨a, -, rfl⟩ := Option.map_eq_some_iff.mp hstep
    rfl
  refine ⟨⟨⟨lost, ?_⟩, fun id hid => ?_⟩, hpending, htaken, fun hh => ?_, hcontents, fun h hh => ?_⟩
  · have hused : SameUsed u.queue.ring q.ring := sameUsed_step hstep
    refine hu.with_queue hinv hused fun id hid => ?_
    show id ∈ q.taken ++ lost
    rw [htaken]
    exact List.mem_append_left lost (hk.returned id hid)
  · show id ∈ q.taken
    rw [htaken]
    exact hk.returned id hid
  · exact hnew (mem_of_inFlight lost hh)
  · exact hsame h (mem_of_inFlight lost hh)

/-! ## A chain in flight -/

/-- The chain from `head` is in flight and describes `bufs`.
Source: none: infrastructure
Kind: D -/
def Describes (q : State) (head : ℕ) (bufs : List Buf) : Prop :=
  head ∈ q.inFlight ∧ q.ring.contents head = some bufs

/-- The heads of the chains that the loop processed from `u` to `u'`.
Source: none: infrastructure
Kind: D -/
def processedSince (u u' : UsedState) : List ℕ :=
  (u'.delivered.drop u.delivered.length).map UsedElem.id

/-- The heads of the chains that the device completed from `u` to `u'`.
Source: none: infrastructure
Kind: D -/
def completedSince (u u' : UsedState) : List ℕ :=
  (u'.completions.drop u.completions.length).map UsedElem.id

/-- A chain that is not processed goes on describing its buffers.
Source: `sys/virtio.hpp` `vring::process_used_buffers`, `vring::clean_used_buffers`
Kind: L -/
theorem Describes.processes {new : List UsedElem} (hd : Describes u.queue head bufs) (hk : Kept u)
    (hp : Processes u u' new) (hnew : head ∉ new.map UsedElem.id) : Describes u'.queue head bufs := by
  obtain ⟨lost, hu⟩ := hk.used
  have hr : RingInv u.queue.ring (u.queue.pending ++ (u.queue.taken ++ lost)) := hu.queue.ring
  have hmem := mem_of_inFlight lost hd.1
  have hstill := (hp.inFlight head).mpr ⟨hd.1, hnew⟩
  refine ⟨hstill, ?_⟩
  rw [contents_congr (hr.chains head hmem) (hr.length_chainOf_le hmem) hp.qsize (hp.desc head hstill)]
  exact hd.2

/-- What a step processes comes on top of what was processed before.
Source: none: infrastructure
Kind: L -/
theorem processedSince_append {v : UsedState} {new : List UsedElem}
    (hnew : u'.delivered = u.delivered ++ new) (hle : v.delivered.length ≤ u.delivered.length) :
    processedSince v u' = processedSince v u ++ new.map UsedElem.id := by
  unfold processedSince
  rw [hnew, List.drop_append_of_le_length hle, List.map_append]

/-- Completions are only added. Source: `sys/virtio.hpp` `vring::used`. Kind: L -/
theorem completions_extend {op : UsedOp} (hstep : usedStep u op = some u') :
    u.completions <+: u'.completions := by
  cases op with
  | queue op =>
      obtain ⟨q, -, rfl⟩ := Option.map_eq_some_iff.mp hstep
      exact List.prefix_rfl
  | complete id len =>
      obtain rfl := Option.some.inj hstep
      exact List.prefix_append _ _
  | call clean =>
      obtain rfl := Option.some.inj hstep
      exact List.prefix_rfl
  | run =>
      rcases runStep_cases hstep with ⟨-, pc, event, rfl⟩ | ⟨clean, i, elem, q, -, -, rfl⟩
      · exact List.prefix_rfl
      · exact List.prefix_rfl

/-- The completions are processed in order. Source: none: infrastructure. Kind: L -/
theorem Kept.inOrder (hk : Kept u) : u.delivered <+: u.completions := by
  obtain ⟨lost, hu⟩ := hk.used
  exact hu.inOrder

/-- A chain that was not completed before is processed only after the device completed it.
Source: `sys/virtio.hpp` `vring::process_used_buffers`, `vring::clean_used_buffers`
Kind: L -/
theorem mem_completedSince (hk : Kept u) (hk' : Kept u') (hgrow : u.completions <+: u'.completions)
    (hnew : head ∉ u.outstanding) (hh : head ∈ processedSince u u') : head ∈ completedSince u u' := by
  obtain ⟨more, hmore⟩ := hgrow
  have hle := hk.inOrder.length_le
  have hsub := (hk'.inOrder.drop u.delivered.length).subset
  rw [← hmore, List.drop_append_of_le_length hle] at hsub
  obtain ⟨e, he, rfl⟩ := List.mem_map.mp hh
  rcases List.mem_append.mp (hsub he) with hold | hlater
  · exact absurd (List.mem_map_of_mem hold) hnew
  · unfold completedSince
    rw [← hmore, List.drop_left]
    exact List.mem_map_of_mem hlater

/-- When the loop returns, the chains completed so far are processed.
Source: `sys/virtio.hpp` `vring::process_used_buffers`, `vring::clean_used_buffers`
Kind: L -/
theorem Kept.delivered_eq (hk : Kept u) (hstep : runStep u = some u') (hidle : u'.pc = .idle) :
    u'.delivered = u'.completions := by
  obtain ⟨lost, hu⟩ := hk.used
  obtain ⟨clean, hpc, rfl⟩ := recheck_of_idle hstep hidle
  have hp := hu.pc
  have hpclose : (u.lose lost).pc = .recheck clean u.queue.ring.usedIdx := hpc
  simp only [PcInv, hpclose] at hp
  exact hu.index_eq_iff.mp hp.1.symm

end Vring

end EbbRT
