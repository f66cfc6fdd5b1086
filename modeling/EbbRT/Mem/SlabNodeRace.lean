import EbbRT.Lib.System

/-!
# Racing for a node's allocator

`get_node_allocator` creates the allocator of a node when it finds none, and stores it with a
compare-exchange against null. A CPU that loses the race finds the winner's allocator in the variable
that the compare-exchange has overwritten, and deletes that one; its own stays forgotten.
`nodeAllocator_always`: as long as nobody loses, all callers get the allocator that is stored, and
nothing is deleted; the first CPU that loses deletes the allocator that everybody uses.
-/

namespace EbbRT

namespace NodeAllocator

open EbbRT.Lib

/-! ## The code -/

/-- Where a CPU is in `get_node_allocator(nid)`, with the locals that are still used: at the first
load, at the creation, at the compare-exchange, at the `delete` and at the load after it. The
allocators are numbered in the order of their creation.
Source: `sys/slab_allocator.cpp` `SlabAllocatorRoot::get_node_allocator`
Kind: D -/
inductive Pc
  | idle
  | load (nid : ℕ)
  | construct (nid : ℕ)
  | compareExchange (nid newAllocator : ℕ)
  | delete (nid newAllocator allocator : ℕ)
  | reload (nid : ℕ)
  deriving DecidableEq, Repr

/-- `node_allocators`, the CPUs, how many allocators were created, and what has been deleted and
returned so far (a call's node, and its result).
Source: `sys/slab_allocator.hpp` `SlabAllocatorRoot::node_allocators`
Kind: D -/
structure State where
  nodeAllocators : ℕ → Option ℕ
  pc : ℕ → Pc
  constructed : ℕ
  deleted : List ℕ
  returned : List (ℕ × ℕ)

/-- Source: `sys/slab_allocator.cpp` `SlabAllocatorRoot::SlabAllocatorRoot`
Kind: D -/
def State.init : State := ⟨fun _ => none, fun _ => .idle, 0, [], []⟩

namespace State

/-- Source: none: infrastructure
Kind: D -/
def goto (s : State) (k : ℕ) (pc : Pc) : State := { s with pc := Function.update s.pc k pc }

/-- `return *allocator`
Source: `sys/slab_allocator.cpp` `SlabAllocatorRoot::get_node_allocator`
Kind: D -/
def ret (s : State) (k nid allocator : ℕ) : State :=
  { s.goto k .idle with returned := (nid, allocator) :: s.returned }

/-- The next step of a CPU. If `operator new` finds no memory, it throws.
Source: `sys/slab_allocator.cpp` `SlabAllocatorRoot::get_node_allocator`
Kind: D -/
def run (s : State) (k : ℕ) (memory : Bool) : Option State :=
  match s.pc k with
  | .idle => none
  | .load nid =>
      match s.nodeAllocators nid with
      | none => some (s.goto k (.construct nid))
      | some allocator => some (s.ret k nid allocator)
  | .construct nid =>
      if memory then
        some { s.goto k (.compareExchange nid s.constructed) with constructed := s.constructed + 1 }
      else some (s.goto k .idle)
  | .compareExchange nid newAllocator =>
      match s.nodeAllocators nid with
      | none =>
          some { s.ret k nid newAllocator with
            nodeAllocators := Function.update s.nodeAllocators nid (some newAllocator) }
      | some allocator =>
          -- the value found goes to `allocator`, the expected value
          some (s.goto k (.delete nid newAllocator allocator))
  | .delete nid _ allocator =>
      some { s.goto k (.reload nid) with deleted := allocator :: s.deleted }
  | .reload nid => (s.nodeAllocators nid).map fun allocator => s.ret k nid allocator

end State

/-! ## The system -/

/-- Source: none: infrastructure
Kind: D -/
inductive Op
  | call (k nid : ℕ)
  | run (k : ℕ) (memory : Bool)
  deriving DecidableEq, Repr

/-- Source: none: infrastructure
Kind: D -/
def Legal (s : State) : Op → Prop
  | .call k _ => s.pc k = .idle
  | .run k _ => s.pc k ≠ .idle

/-- Source: none: infrastructure
Kind: D -/
def step (s : State) : Op → Option State
  | .call k nid => some (s.goto k (.load nid))
  | .run k memory => s.run k memory

/-- Any number of CPUs, each with any number of calls for any nodes.
Source: `sys/slab_allocator.cpp` `SlabAllocatorRoot::get_node_allocator`
Kind: D -/
def system : System State Op := ⟨Legal, step⟩

instance (s : State) : ∀ op : Op, Decidable (system.legal s op)
  | .call k _ => inferInstanceAs (Decidable (s.pc k = .idle))
  | .run k _ => inferInstanceAs (Decidable (s.pc k ≠ .idle))

/-- A CPU has created the allocator, and has neither stored nor deleted anything yet.
Source: none: infrastructure
Kind: D -/
def InHand (s : State) (k allocator : ℕ) : Prop :=
  (∃ nid, s.pc k = .compareExchange nid allocator) ∨ ∃ nid found, s.pc k = .delete nid allocator found

/-- All calls for a node have returned the allocator that is stored for it, which is not deleted, and
an allocator that is neither stored nor in the hands of its creator is deleted once.
Source: none: infrastructure
Kind: D -/
structure State.Safe (s : State) : Prop where
  same : ∀ r ∈ s.returned, s.nodeAllocators r.1 = some r.2
  kept : ∀ nid allocator, s.nodeAllocators nid = some allocator → allocator ∉ s.deleted
  lost : ∀ allocator < s.constructed, (∀ nid, s.nodeAllocators nid ≠ some allocator) →
    (∀ k, ¬ InHand s k allocator) → s.deleted.count allocator = 1

/-- The steps that the code handles: a compare-exchange that finds null.
Source: `sys/slab_allocator.cpp` `SlabAllocatorRoot::get_node_allocator`
Kind: D -/
def NotLost (s : State) : Op → Prop
  | .call _ _ => True
  | .run k _ => ∀ nid newAllocator, s.pc k = .compareExchange nid newAllocator →
      s.nodeAllocators nid = none

instance (s : State) : ∀ op : Op, Decidable (NotLost s op)
  | .call _ _ => isTrue trivial
  | .run k _ =>
      match h : s.pc k with
      | .compareExchange nid newAllocator =>
          decidable_of_iff (s.nodeAllocators nid = none) (by simp [NotLost, h])
      | .idle | .load _ | .construct _ | .delete _ _ _ | .reload _ => isTrue (by simp [NotLost, h])

/-! ## The invariant -/

/-- As long as nobody has lost: nothing is deleted, and every allocator is stored, or about to be.
Source: `sys/slab_allocator.cpp` `SlabAllocatorRoot::get_node_allocator`
Kind: D -/
structure Inv (s : State) : Prop where
  same : ∀ r ∈ s.returned, s.nodeAllocators r.1 = some r.2
  deleted : s.deleted = []
  place : ∀ allocator < s.constructed, (∃ nid, s.nodeAllocators nid = some allocator) ∨
    ∃ k nid, s.pc k = .compareExchange nid allocator
  won : ∀ k nid, s.pc k ≠ .reload nid ∧ ∀ newAllocator allocator, s.pc k ≠ .delete nid newAllocator allocator

variable {s s' : State} {k nid : ℕ}

/-- Source: none: infrastructure. Kind: L -/
theorem goto_self (s : State) (k : ℕ) (pc : Pc) : (s.goto k pc).pc k = pc := Function.update_self _ _ _

/-- Source: none: infrastructure. Kind: L -/
theorem goto_of_ne {k' : ℕ} (h : k' ≠ k) (s : State) (pc : Pc) : (s.goto k pc).pc k' = s.pc k' :=
  Function.update_of_ne h _ _

namespace Inv

/-- Source: `sys/slab_allocator.cpp` `SlabAllocatorRoot::SlabAllocatorRoot`
Kind: L -/
theorem init : Inv State.init :=
  ⟨fun _ hr => absurd hr List.not_mem_nil, rfl, fun _ h => absurd h (Nat.not_lt_zero _),
    fun _ _ => ⟨nofun, nofun⟩⟩

/-- The invariant is more than is asked for. Source: none: infrastructure. Kind: L -/
theorem safe (h : Inv s) : s.Safe where
  same := h.same
  kept _ _ _ := by
    rw [h.deleted]
    exact List.not_mem_nil
  lost allocator hlt hstored hhand := by
    rcases h.place allocator hlt with ⟨nid, hnid⟩ | ⟨k, nid, hk⟩
    · exact absurd hnid (hstored nid)
    · exact absurd (Or.inl ⟨nid, hk⟩) (hhand k)

/-- A CPU goes on, with no allocator in its hands before or after.
Source: none: infrastructure
Kind: L -/
theorem goto (h : Inv s) {pc : Pc} (hbefore : ∀ nid allocator, s.pc k ≠ .compareExchange nid allocator)
    (hafter : ∀ nid, pc ≠ .reload nid ∧ ∀ newAllocator allocator, pc ≠ .delete nid newAllocator allocator) :
    Inv (s.goto k pc) := by
  refine ⟨h.same, h.deleted, ?_, ?_⟩
  · intro allocator hlt
    refine (h.place allocator hlt).imp_right ?_
    rintro ⟨k', nid, hk'⟩
    have hne : k' ≠ k := by
      rintro rfl
      exact hbefore nid allocator hk'
    exact ⟨k', nid, (goto_of_ne hne s pc).trans hk'⟩
  · intro k' nid
    by_cases hk : k' = k
    · rw [hk, goto_self]
      exact hafter nid
    · rw [goto_of_ne hk]
      exact h.won k' nid

/-- A call returns what is stored.
Source: `sys/slab_allocator.cpp` `SlabAllocatorRoot::get_node_allocator`
Kind: L -/
theorem ret (h : Inv s) {allocator : ℕ} (hbefore : ∀ nid allocator, s.pc k ≠ .compareExchange nid allocator)
    (hstored : s.nodeAllocators nid = some allocator) : Inv (s.ret k nid allocator) := by
  have h' : Inv (s.goto k .idle) := h.goto hbefore fun _ => ⟨nofun, nofun⟩
  refine ⟨?_, h'.deleted, h'.place, h'.won⟩
  exact List.forall_mem_cons.mpr ⟨hstored, h.same⟩

/-- The winner stores its allocator.
Source: `sys/slab_allocator.cpp` `SlabAllocatorRoot::get_node_allocator`
Kind: L -/
theorem store (h : Inv s) {newAllocator : ℕ} (hpc : s.pc k = .compareExchange nid newAllocator)
    (hnull : s.nodeAllocators nid = none) :
    Inv { s.ret k nid newAllocator with
      nodeAllocators := Function.update s.nodeAllocators nid (some newAllocator) } := by
  have hold : ∀ nid' allocator, s.nodeAllocators nid' = some allocator →
      Function.update s.nodeAllocators nid (some newAllocator) nid' = some allocator := by
    intro nid' allocator hstored
    have hne : nid' ≠ nid := by
      rintro rfl
      rw [hnull] at hstored
      cases hstored
    rw [Function.update_of_ne hne, hstored]
  refine ⟨?_, h.deleted, ?_, ?_⟩
  · refine List.forall_mem_cons.mpr ⟨Function.update_self _ _ _, fun r hr => ?_⟩
    exact hold _ _ (h.same r hr)
  · intro allocator hlt
    rcases h.place allocator hlt with ⟨nid', hstored⟩ | ⟨k', nid', hk'⟩
    · exact Or.inl ⟨nid', hold _ _ hstored⟩
    · by_cases hk : k' = k
      · rw [hk, hpc] at hk'
        cases hk'
        exact Or.inl ⟨nid, Function.update_self _ _ _⟩
      · exact Or.inr ⟨k', nid', (goto_of_ne hk s .idle).trans hk'⟩
  · intro k' nid'
    by_cases hk : k' = k
    · refine ⟨?_, fun p q => ?_⟩
      · rw [hk]
        exact (goto_self s k .idle).trans_ne nofun
      · rw [hk]
        exact (goto_self s k .idle).trans_ne nofun
    · have hsame := goto_of_ne hk s .idle
      exact ⟨hsame.trans_ne (h.won k' nid').1, fun p q => hsame.trans_ne ((h.won k' nid').2 p q)⟩

/-- A new allocator. Source: `sys/slab_allocator.cpp` `SlabAllocatorRoot::get_node_allocator`. Kind: L -/
theorem construct (h : Inv s) (hpc : s.pc k = .construct nid) :
    Inv { s.goto k (.compareExchange nid s.constructed) with constructed := s.constructed + 1 } := by
  have h' : Inv (s.goto k (.compareExchange nid s.constructed)) := by
    refine h.goto (fun _ _ => ?_) fun _ => ⟨nofun, nofun⟩
    rw [hpc]
    exact nofun
  refine ⟨h'.same, h'.deleted, ?_, h'.won⟩
  intro allocator hlt
  rcases Nat.lt_succ_iff_lt_or_eq.mp hlt with hlt | heq
  · exact h'.place allocator hlt
  · rw [heq]
    exact Or.inr ⟨k, nid, goto_self _ _ _⟩

/-- **A step that does not lose keeps the invariant.**
Source: `sys/slab_allocator.cpp` `SlabAllocatorRoot::get_node_allocator`
Kind: P -/
theorem step {op : Op} (h : Inv s) (hlegal : system.legal s op) (hok : NotLost s op)
    (hstep : step s op = some s') : Inv s' := by
  cases op with
  | call k nid =>
      cases hstep
      refine h.goto (fun _ _ => ?_) fun _ => ⟨nofun, nofun⟩
      rw [show s.pc k = .idle from hlegal]
      exact nofun
  | run k memory =>
      have hrun : s.run k memory = some s' := hstep
      unfold State.run at hrun
      cases hpc : s.pc k with
      | idle => exact absurd hpc hlegal
      | load nid =>
          rw [hpc] at hrun
          dsimp only at hrun
          have hbefore : ∀ nid allocator, s.pc k ≠ .compareExchange nid allocator := by
            rw [hpc]
            exact nofun
          cases hstored : s.nodeAllocators nid with
          | none =>
              rw [hstored] at hrun
              cases hrun
              exact h.goto hbefore fun _ => ⟨nofun, nofun⟩
          | some allocator =>
              rw [hstored] at hrun
              cases hrun
              exact h.ret hbefore hstored
      | construct nid =>
          rw [hpc] at hrun
          dsimp only at hrun
          cases memory with
          | true =>
              cases hrun
              exact h.construct hpc
          | false =>
              cases hrun
              refine h.goto (fun _ _ => ?_) fun _ => ⟨nofun, nofun⟩
              rw [hpc]
              exact nofun
      | compareExchange nid newAllocator =>
          have hnull := hok nid newAllocator hpc
          rw [hpc] at hrun
          dsimp only at hrun
          rw [hnull] at hrun
          cases hrun
          exact h.store hpc hnull
      | delete nid newAllocator allocator => exact absurd hpc ((h.won k nid).2 newAllocator allocator)
      | reload nid => exact absurd hpc (h.won k nid).1

/-- Source: `sys/slab_allocator.cpp` `SlabAllocatorRoot::get_node_allocator`
Kind: P -/
theorem of_run {ops : List Op} (h : (system.guard NotLost).Run State.init ops s) : Inv s :=
  h.invariant Inv.init fun _ _ _ hs hlegal hstep => hs.step hlegal.1 hlegal.2 hstep

end Inv

/-! ## The race -/

/-- A CPU that loses the race deletes the winner's allocator.
Source: `sys/slab_allocator.cpp` `SlabAllocatorRoot::get_node_allocator`
Kind: L -/
theorem not_safe_of_lost {newAllocator allocator : ℕ} {memory memory' : Bool} {t : State}
    (hpc : s.pc k = .compareExchange nid newAllocator) (hlost : s.nodeAllocators nid = some allocator)
    (hstep : s.run k memory = some s') (hstep' : s'.run k memory' = some t) : ¬ t.Safe := by
  unfold State.run at hstep
  rw [hpc] at hstep
  dsimp only at hstep
  rw [hlost] at hstep
  cases hstep
  unfold State.run at hstep'
  rw [goto_self] at hstep'
  cases hstep'
  intro hsafe
  exact hsafe.kept nid allocator hlost List.mem_cons_self

/-- **Racing creation of a node's allocator.** In every interleaving of any calls by any CPUs in which
no compare-exchange fails, every state is safe; where one fails, the CPU's next step deletes the
allocator that is stored.
Source: `sys/slab_allocator.cpp` `SlabAllocatorRoot::get_node_allocator`
Kind: C
Fidelity: weaker than the code promises: `NotLost`; allocators are numbered, so that one that is created at
the address of a deleted one is another -/
theorem nodeAllocator_always (ops : List Op) (s : State)
    (hrun : (system.guard NotLost).Run State.init ops s) :
    s.Safe ∧ ∀ k memory s' memory' t, ¬ NotLost s (.run k memory) → s.run k memory = some s' →
      s'.run k memory' = some t → ¬ t.Safe := by
  refine ⟨(Inv.of_run hrun).safe, ?_⟩
  intro k memory s' memory' t hlost hstep hstep'
  unfold NotLost at hlost
  push Not at hlost
  obtain ⟨nid, newAllocator, hpc, hne⟩ := hlost
  obtain ⟨allocator, hallocator⟩ := Option.ne_none_iff_exists'.mp hne
  exact not_safe_of_lost hpc hallocator hstep hstep'

/-- CPU 1 calls while CPU 0 is creating the allocator, and loads when it is stored.
Source: none: infrastructure
Kind: D -/
def secondIsLate : List Op :=
  [.call 0 3, .run 0 true, .run 0 true, .call 1 3, .run 0 true, .run 1 true]

/-- Both CPUs get the allocator that CPU 0 has created.
Source: `sys/slab_allocator.cpp` `SlabAllocatorRoot::get_node_allocator`
Kind: C -/
theorem nodeAllocator_always_late :
    ∃ s, (system.guard NotLost).Run State.init secondIsLate s ∧
      s.returned = [(3, 0), (3, 0)] ∧ s.Safe := by
  have hadmits : (system.guard NotLost).Admits State.init secondIsLate := by decide +kernel
  have hend : (system.exec State.init secondIsLate).map (fun s => s.returned) =
      some [(3, 0), (3, 0)] := by
    decide +kernel
  obtain ⟨s, hexec, hrun⟩ := System.Run.of_admits hadmits
  rw [show system.exec State.init secondIsLate = some s from hexec] at hend
  exact ⟨s, hrun, Option.some.inj hend, (nodeAllocator_always _ s hrun).1⟩

/-- Both CPUs find null, and CPU 1 loses.
Source: none: infrastructure
Kind: D -/
def bothFindNull : List Op :=
  [.call 0 3, .call 1 3, .run 0 true, .run 1 true, .run 0 true, .run 1 true, .run 0 true, .run 1 true,
    .run 1 true]

/-- CPU 1 deletes the allocator that CPU 0 has stored and returned.
Source: `sys/slab_allocator.cpp` `SlabAllocatorRoot::get_node_allocator`
Kind: C -/
theorem nodeAllocator_not_always :
    ¬ ∀ (ops : List Op) (s : State), system.Run State.init ops s → s.Safe := by
  intro hall
  have hadmits : system.Admits State.init bothFindNull := by decide +kernel
  have hend : (system.exec State.init bothFindNull).map
      (fun s => (s.nodeAllocators 3, s.deleted)) = some (some 0, [0]) := by
    decide +kernel
  obtain ⟨s, hexec, hrun⟩ := System.Run.of_admits hadmits
  rw [hexec] at hend
  have hend : (s.nodeAllocators 3, s.deleted) = (some 0, [0]) := Option.some.inj hend
  simp only [Prod.mk.injEq] at hend
  refine (hall _ s hrun).kept 3 0 hend.1 ?_
  rw [hend.2]
  exact List.mem_singleton_self 0

end NodeAllocator

end EbbRT
