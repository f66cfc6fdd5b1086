import EbbRT.Lib.System

/-!
# Which root an allocator belongs to

Every allocator has a cache with a reference to the root that it allocates for. `slab_init` makes the
allocators of three roots by hand, since allocators are themselves allocated from two of them; all
others are made where they are missing, by `get_cpu_allocator` and `get_node_allocator`, which may ask
each other for the memory. `slab_init` gives the CPU allocators of `slab_node_allocator` a reference to
`slab_cpu_allocator`. `slabRoots_exactlyWhen`: in every state after it, an allocator belongs to the
root that it is reached through unless it is one of these.
-/

namespace EbbRT

namespace SlabRoots

open EbbRT.Lib

/-! ## The code -/

/-- The three roots of `slab_init`, and the ones that are made afterwards.
Source: `sys/slab_allocator.cpp` `slab_root_allocator`, `slab_node_allocator`, `slab_cpu_allocator`
Kind: D -/
inductive Root
  | slabRootAllocator
  | slabNodeAllocator
  | slabCpuAllocator
  | dynamic (n : ℕ)
  deriving DecidableEq, Repr

/-- `cache_.root_` of an allocator.
Source: `sys/slab_allocator.hpp` `SlabAllocator`
Kind: D -/
structure SlabAllocator where
  root : Root
  deriving DecidableEq, Repr

/-- `cache_.root_` and `nid_` of a node's allocator.
Source: `sys/slab_allocator.hpp` `SlabAllocatorNode`
Kind: D -/
structure SlabAllocatorNode where
  root : Root
  nid : ℕ
  deriving DecidableEq, Repr

/-- `cpus` and `numa_nodes`: how many there are, and the node of each CPU.
Source: `sys/cpu.hpp` `cpus`, `sys/numa.hpp` `numa_nodes`
Kind: D -/
structure Machine where
  numCpus : ℕ
  numNodes : ℕ
  cpuNid : ℕ → ℕ

/-- The arrays of every root, and the number of roots that were made after `slab_init`; no allocator
is the null pointer.
Source: `sys/slab_allocator.hpp` `SlabAllocatorRoot`
Kind: D -/
structure State where
  nodeAllocators : Root → ℕ → Option SlabAllocatorNode
  cpuAllocators : Root → ℕ → Option SlabAllocator
  dynamicRoots : ℕ

namespace State

/-- Source: none: infrastructure. Kind: D -/
def setNode (s : State) (root : Root) (i : ℕ) (a : SlabAllocatorNode) : State :=
  { s with nodeAllocators :=
      Function.update s.nodeAllocators root (Function.update (s.nodeAllocators root) i (some a)) }

/-- Source: none: infrastructure. Kind: D -/
def setCpu (s : State) (root : Root) (i : ℕ) (a : SlabAllocator) : State :=
  { s with cpuAllocators :=
      Function.update s.cpuAllocators root (Function.update (s.cpuAllocators root) i (some a)) }

/-- The three roots are constructed. Source: `sys/slab_allocator.cpp` `slab_init`. Kind: D -/
def constructed : State := ⟨fun _ _ => none, fun _ _ => none, 0⟩

end State

/-- The body of the loop over the nodes.
Source: `sys/slab_allocator.cpp` `slab_init`
Kind: D -/
def slabInitNode (s : State) (i : ℕ) : State :=
  let s := s.setNode .slabRootAllocator i ⟨.slabRootAllocator, i⟩
  let s := s.setNode .slabNodeAllocator i ⟨.slabNodeAllocator, i⟩
  s.setNode .slabCpuAllocator i ⟨.slabCpuAllocator, i⟩

/-- The body of the loop over the CPUs.
Source: `sys/slab_allocator.cpp` `slab_init`
Kind: D -/
def slabInitCpu (s : State) (i : ℕ) : State :=
  let s := s.setCpu .slabRootAllocator i ⟨.slabRootAllocator⟩
  let s := s.setCpu .slabNodeAllocator i ⟨.slabCpuAllocator⟩
  s.setCpu .slabCpuAllocator i ⟨.slabCpuAllocator⟩

/-- Source: `sys/slab_allocator.cpp` `slab_init`. Kind: D -/
def slabInit (m : Machine) : State :=
  (List.range m.numCpus).foldl slabInitCpu
    ((List.range m.numNodes).foldl slabInitNode State.constructed)

/-- What a call comes to: `none` while its recursion is not at its end, and then the result and the
state; no result is a `std::bad_alloc`.
Source: none: infrastructure
Kind: D -/
abbrev Result (α : Type) := Option (Option α × State)

/-- `allocator.Alloc()` in `operator new`, for a CPU of its own node: whether there is memory. It does
not look at the arrays of the roots.
Source: `sys/slab_allocator.cpp` `SlabAllocator::operator new`
Kind: D -/
def allocFrom {α : Type} (memory : Bool) (r : Result α) : Result Unit :=
  r.map fun (a, s) => (if memory then a.map fun _ => () else none, s)

mutual

/-- `my` is the CPU that makes the call; `memory` says of each `Alloc` whether it finds memory.
Source: `sys/slab_allocator.cpp` `SlabAllocatorRoot::get_cpu_allocator`
Kind: D -/
def getCpuAllocator (m : Machine) (my : ℕ) (memory : ℕ → Bool) :
    ℕ → Root → ℕ → State → Result SlabAllocator
  | 0, _, _, _ => none
  | fuel + 1, root, cpuIndex, s =>
      match s.cpuAllocators root cpuIndex with
      | some allocator => some (some allocator, s)
      | none =>
          match operatorNew m my memory fuel .slabCpuAllocator (m.cpuNid cpuIndex) s with
          | none => none
          | some (none, s) => some (none, s)
          | some (some (), s) => some (some ⟨root⟩, s.setCpu root cpuIndex ⟨root⟩)

/-- The compare-exchange is against null; where it fails, the allocator that it finds is deleted.
Source: `sys/slab_allocator.cpp` `SlabAllocatorRoot::get_node_allocator`
Kind: D -/
def getNodeAllocator (m : Machine) (my : ℕ) (memory : ℕ → Bool) :
    ℕ → Root → ℕ → State → Result SlabAllocatorNode
  | 0, _, _, _ => none
  | fuel + 1, root, nid, s =>
      match s.nodeAllocators root nid with
      | some allocator => some (some allocator, s)
      | none =>
          match operatorNew m my memory fuel .slabNodeAllocator nid s with
          | none => none
          | some (none, s) => some (none, s)
          | some (some (), s) =>
              match s.nodeAllocators root nid with
              | none => some (some ⟨root, nid⟩, s.setNode root nid ⟨root, nid⟩)
              | some _ =>
                  -- `operator delete` asks for the allocator to free it to
                  match getCpuAllocator m my memory fuel .slabNodeAllocator my s with
                  | none => none
                  | some (none, s) => some (none, s)
                  | some (some _, s) => some (s.nodeAllocators root nid, s)

/-- The memory for an allocator on a node comes from `pool`.
Source: `sys/slab_allocator.cpp` `SlabAllocator::operator new`, `SlabAllocatorNode::operator new`
Kind: D -/
def operatorNew (m : Machine) (my : ℕ) (memory : ℕ → Bool) : ℕ → Root → ℕ → State → Result Unit
  | 0, _, _, _ => none
  | fuel + 1, pool, nid, s =>
      if nid = m.cpuNid my then
        allocFrom (memory fuel) (getCpuAllocator m my memory fuel pool my s)
      else allocFrom (memory fuel) (getNodeAllocator m my memory fuel pool nid s)

end

/-! ## The system -/

/-- A call on a CPU: for an allocator of a root, or for a new root.
Source: `sys/slab_allocator.hpp` `SlabAllocatorRoot`
Kind: D -/
inductive Op
  | getCpuAllocator (my : ℕ) (root : Root) (cpuIndex : ℕ) (memory : ℕ → Bool)
  | getNodeAllocator (my : ℕ) (root : Root) (nid : ℕ) (memory : ℕ → Bool)
  | newRoot (my : ℕ) (memory : ℕ → Bool)

/-- The root has been made. Source: `sys/slab_allocator.hpp` `SlabAllocatorRoot`. Kind: D -/
def State.Made (s : State) : Root → Prop
  | .dynamic n => n < s.dynamicRoots
  | _ => True

instance (s : State) : ∀ root, Decidable (s.Made root)
  | .dynamic _ => inferInstanceAs (Decidable (_ < _))
  | .slabRootAllocator | .slabNodeAllocator | .slabCpuAllocator => inferInstanceAs (Decidable True)

/-- Source: `sys/numa.hpp` `MAX_NUMA_NODES`. Kind: D -/
def maxNumaNodes : ℕ := 256

/-- The CPUs are there, the root has been made, and the node has a place in the array.
Source: `sys/slab_allocator.hpp` `SlabAllocatorRoot`
Kind: D -/
def Legal (m : Machine) (s : State) : Op → Prop
  | .getCpuAllocator my root cpuIndex _ => my < m.numCpus ∧ s.Made root ∧ cpuIndex < m.numCpus
  | .getNodeAllocator my root nid _ => my < m.numCpus ∧ s.Made root ∧ nid < maxNumaNodes
  | .newRoot my _ => my < m.numCpus

/-- `new SlabAllocatorRoot`: the arrays are filled with null pointers.
Source: `sys/slab_allocator.cpp` `SlabAllocatorRoot::operator new`, `SlabAllocatorRoot::SlabAllocatorRoot`
Kind: D -/
def newRoot (m : Machine) (my : ℕ) (memory : ℕ → Bool) (fuel : ℕ) (s : State) : Option State :=
  match allocFrom (memory fuel) (getCpuAllocator m my memory fuel .slabRootAllocator my s) with
  | none => none
  | some (none, s) => some s
  | some (some (), s) =>
      some
        { nodeAllocators :=
            Function.update s.nodeAllocators (.dynamic s.dynamicRoots) fun _ => none
          cpuAllocators := Function.update s.cpuAllocators (.dynamic s.dynamicRoots) fun _ => none
          dynamicRoots := s.dynamicRoots + 1 }

/-- The calls, on any CPUs, one after another; a call whose recursion goes deeper than `fuel` does
not return.
Source: `sys/slab_allocator.cpp` `SlabAllocatorRoot`
Kind: D -/
def system (m : Machine) (fuel : ℕ) : System State Op where
  legal := Legal m
  step s
    | .getCpuAllocator my root cpuIndex memory =>
        (getCpuAllocator m my memory fuel root cpuIndex s).map Prod.snd
    | .getNodeAllocator my root nid memory =>
        (getNodeAllocator m my memory fuel root nid s).map Prod.snd
    | .newRoot my memory => newRoot m my memory fuel s

instance (m : Machine) (fuel : ℕ) (s : State) : ∀ op : Op, Decidable ((system m fuel).legal s op)
  | .getCpuAllocator _ _ _ _ => inferInstanceAs (Decidable (_ ∧ _ ∧ _))
  | .getNodeAllocator _ _ _ _ => inferInstanceAs (Decidable (_ ∧ _ ∧ _))
  | .newRoot _ _ => inferInstanceAs (Decidable (_ < _))

/-! ## The invariant -/

/-- The root that a CPU allocator reached through `root` belongs to.
Source: `sys/slab_allocator.cpp` `slab_init`
Kind: D -/
def cpuRoot : Root → Root
  | .slabNodeAllocator => .slabCpuAllocator
  | root => root

/-- The allocators belong to the roots that `slab_init` gives them, and the CPU allocators of
`slab_node_allocator` are there for every CPU, so that none of them is ever made later.
Source: `sys/slab_allocator.cpp` `slab_init`
Kind: D -/
structure Inv (m : Machine) (s : State) : Prop where
  node : ∀ root i a, s.nodeAllocators root i = some a → a.root = root
  cpu : ∀ root i a, s.cpuAllocators root i = some a → a.root = cpuRoot root
  filled : ∀ i, i < m.numCpus → s.cpuAllocators .slabNodeAllocator i ≠ none

variable {m : Machine} {my fuel i : ℕ} {memory : ℕ → Bool} {s s' : State} {root : Root}

/-- An allocator in a table of which one entry has been set. Source: none: infrastructure. Kind: L -/
theorem update_eq_some {α : Type*} {table : Root → ℕ → Option α} {r : Root} {j : ℕ} {a b : α}
    (h : Function.update table root (Function.update (table root) i (some a)) r j = some b) :
    r = root ∧ b = a ∨ table r j = some b := by
  by_cases hr : r = root
  · subst hr
    rw [Function.update_self] at h
    by_cases hj : j = i
    · subst hj
      rw [Function.update_self] at h
      exact Or.inl ⟨rfl, (Option.some.inj h).symm⟩
    · rw [Function.update_of_ne hj] at h
      exact Or.inr h
  · rw [Function.update_of_ne hr] at h
    exact Or.inr h

/-- Source: none: infrastructure. Kind: L -/
theorem State.setNode_eq_some {r : Root} {j : ℕ} {a b : SlabAllocatorNode}
    (h : (s.setNode root i a).nodeAllocators r j = some b) :
    r = root ∧ b = a ∨ s.nodeAllocators r j = some b := update_eq_some h

/-- Source: none: infrastructure. Kind: L -/
theorem State.setCpu_eq_some {r : Root} {j : ℕ} {a b : SlabAllocator}
    (h : (s.setCpu root i a).cpuAllocators r j = some b) :
    r = root ∧ b = a ∨ s.cpuAllocators r j = some b := update_eq_some h

/-- What is not null stays so. Source: none: infrastructure. Kind: L -/
theorem State.setCpu_ne_none {r : Root} {j : ℕ} {a : SlabAllocator}
    (h : s.cpuAllocators r j ≠ none ∨ r = root ∧ j = i) :
    (s.setCpu root i a).cpuAllocators r j ≠ none := by
  unfold State.setCpu
  dsimp only
  by_cases hr : r = root
  · subst hr
    rw [Function.update_self]
    by_cases hj : j = i
    · subst hj
      rw [Function.update_self]
      simp
    · rw [Function.update_of_ne hj]
      exact h.resolve_right fun h => hj h.2
  · rw [Function.update_of_ne hr]
    exact h.resolve_right fun h => hr h.1

/-- Source: `sys/slab_allocator.cpp` `SlabAllocatorRoot::get_cpu_allocator`. Kind: L -/
theorem Inv.setCpu (h : Inv m s) {a : SlabAllocator} (ha : a.root = cpuRoot root) :
    Inv m (s.setCpu root i a) where
  node := h.node
  cpu r j b hb := by
    rcases State.setCpu_eq_some hb with ⟨rfl, rfl⟩ | hb
    · exact ha
    · exact h.cpu r j b hb
  filled j hj := State.setCpu_ne_none (Or.inl (h.filled j hj))

/-- Source: `sys/slab_allocator.cpp` `SlabAllocatorRoot::get_node_allocator`. Kind: L -/
theorem Inv.setNode (h : Inv m s) {a : SlabAllocatorNode} (ha : a.root = root) :
    Inv m (s.setNode root i a) where
  node r j b hb := by
    rcases State.setNode_eq_some hb with ⟨rfl, rfl⟩ | hb
    · exact ha
    · exact h.node r j b hb
  cpu := h.cpu
  filled := h.filled

/-- What a call leaves. Source: none: infrastructure. Kind: L -/
theorem allocFrom_eq_some {α : Type} {b : Bool} {r : Result α} {q : Option Unit × State}
    (h : allocFrom b r = some q) : ∃ a, r = some (a, q.2) := by
  obtain ⟨⟨a, s⟩, hr, rfl⟩ := Option.map_eq_some_iff.mp h
  exact ⟨a, hr⟩

/-- **Every call keeps the invariant**, however deep the calls inside it are.
Source: `sys/slab_allocator.cpp` `SlabAllocatorRoot::get_cpu_allocator`,
`SlabAllocatorRoot::get_node_allocator`
Kind: L -/
theorem calls_inv (hmy : my < m.numCpus) (fuel : ℕ) :
    (∀ root i s r, Inv m s → i < m.numCpus →
      getCpuAllocator m my memory fuel root i s = some r → Inv m r.2) ∧
    (∀ root nid s r, Inv m s → getNodeAllocator m my memory fuel root nid s = some r → Inv m r.2) ∧
    (∀ pool nid s r, Inv m s → operatorNew m my memory fuel pool nid s = some r → Inv m r.2) := by
  induction fuel with
  | zero =>
      refine ⟨fun _ _ _ _ _ _ h => ?_, fun _ _ _ _ _ h => ?_, fun _ _ _ _ _ h => ?_⟩
      · rw [getCpuAllocator] at h
        cases h
      · rw [getNodeAllocator] at h
        cases h
      · rw [operatorNew] at h
        cases h
  | succ fuel ih =>
      obtain ⟨ihCpu, ihNode, ihNew⟩ := ih
      refine ⟨fun root i s r hs hi h => ?_, fun root nid s r hs h => ?_, fun pool nid s r hs h => ?_⟩
      · rw [getCpuAllocator] at h
        split at h
        · obtain rfl := Option.some.inj h
          exact hs
        · rename_i hnull
          -- the allocators of `slab_node_allocator` are all there
          have hroot : cpuRoot root = root := by
            cases root with
            | slabNodeAllocator => exact absurd hnull (hs.filled i hi)
            | slabRootAllocator => rfl
            | slabCpuAllocator => rfl
            | dynamic n => rfl
          split at h
          · cases h
          · rename_i s₁ hnew
            obtain rfl := Option.some.inj h
            exact ihNew _ _ _ _ hs hnew
          · rename_i s₁ hnew
            obtain rfl := Option.some.inj h
            exact (ihNew _ _ _ _ hs hnew).setCpu hroot.symm
      · rw [getNodeAllocator] at h
        split at h
        · obtain rfl := Option.some.inj h
          exact hs
        · split at h
          · cases h
          · rename_i s₁ hnew
            obtain rfl := Option.some.inj h
            exact ihNew _ _ _ _ hs hnew
          · rename_i s₁ hnew
            have hs₁ : Inv m s₁ := ihNew _ _ _ _ hs hnew
            split at h
            · obtain rfl := Option.some.inj h
              exact hs₁.setNode rfl
            · split at h
              · cases h
              · rename_i hdelete
                obtain rfl := Option.some.inj h
                exact ihCpu _ _ _ _ hs₁ hmy hdelete
              · rename_i hdelete
                obtain rfl := Option.some.inj h
                exact ihCpu _ _ _ _ hs₁ hmy hdelete
      · rw [operatorNew] at h
        split at h
        · obtain ⟨a, hget⟩ := allocFrom_eq_some h
          exact ihCpu _ _ _ _ hs hmy hget
        · obtain ⟨a, hget⟩ := allocFrom_eq_some h
          exact ihNode _ _ _ _ hs hget

/-! ## After `slab_init` -/

/-- Source: `sys/slab_allocator.cpp` `slab_init`. Kind: L -/
theorem inv_slabInitNode (n : ℕ) {s : State} (hnode : ∀ root i a, s.nodeAllocators root i = some a →
    a.root = root) : ∀ root i a, ((List.range n).foldl slabInitNode s).nodeAllocators root i = some a →
      a.root = root := by
  induction n with
  | zero => exact hnode
  | succ n ih =>
      intro root i a h
      rw [List.range_succ, List.foldl_append, List.foldl_cons, List.foldl_nil] at h
      rcases State.setNode_eq_some h with ⟨rfl, rfl⟩ | h
      · rfl
      rcases State.setNode_eq_some h with ⟨rfl, rfl⟩ | h
      · rfl
      rcases State.setNode_eq_some h with ⟨rfl, rfl⟩ | h
      · rfl
      exact ih root i a h

/-- The loop over the nodes does not touch the CPU allocators, and that over the CPUs not the nodes'.
Source: `sys/slab_allocator.cpp` `slab_init`
Kind: L -/
theorem slabInit_frame (l : List ℕ) (s : State) :
    (l.foldl slabInitNode s).cpuAllocators = s.cpuAllocators ∧
      (l.foldl slabInitCpu s).nodeAllocators = s.nodeAllocators := by
  induction l generalizing s with
  | nil => exact ⟨rfl, rfl⟩
  | cons i l ih =>
      rw [List.foldl_cons, List.foldl_cons, (ih _).1, (ih _).2]
      exact ⟨rfl, rfl⟩

/-- Source: `sys/slab_allocator.cpp` `slab_init`. Kind: L -/
theorem inv_slabInitCpu (n : ℕ) {s : State} (hcpu : ∀ root i a, s.cpuAllocators root i = some a →
    a.root = cpuRoot root) :
    (∀ root i a, ((List.range n).foldl slabInitCpu s).cpuAllocators root i = some a →
      a.root = cpuRoot root) ∧
    ∀ i < n, ((List.range n).foldl slabInitCpu s).cpuAllocators .slabNodeAllocator i ≠ none := by
  induction n with
  | zero => exact ⟨hcpu, fun i hi => absurd hi (Nat.not_lt_zero i)⟩
  | succ n ih =>
      rw [List.range_succ, List.foldl_append, List.foldl_cons, List.foldl_nil]
      refine ⟨fun root i a h => ?_, fun i hi => ?_⟩
      · rcases State.setCpu_eq_some h with ⟨rfl, rfl⟩ | h
        · rfl
        rcases State.setCpu_eq_some h with ⟨rfl, rfl⟩ | h
        · rfl
        rcases State.setCpu_eq_some h with ⟨rfl, rfl⟩ | h
        · rfl
        exact ih.1 root i a h
      · refine State.setCpu_ne_none (Or.inl (State.setCpu_ne_none ?_))
        rcases Nat.lt_succ_iff_lt_or_eq.mp hi with hlt | rfl
        · exact Or.inl (State.setCpu_ne_none (Or.inl (ih.2 i hlt)))
        · exact Or.inr ⟨rfl, rfl⟩

/-- Source: `sys/slab_allocator.cpp` `slab_init`. Kind: L -/
theorem inv_slabInit (m : Machine) : Inv m (slabInit m) := by
  have hnode := inv_slabInitNode m.numNodes (s := State.constructed) fun _ _ _ h => by cases h
  have hcpu := inv_slabInitCpu m.numCpus
    (s := (List.range m.numNodes).foldl slabInitNode State.constructed) fun root i a h => by
      rw [(slabInit_frame _ _).1] at h
      cases h
  refine ⟨fun root i a h => ?_, hcpu.1, hcpu.2⟩
  rw [slabInit, (slabInit_frame _ _).2] at h
  exact hnode root i a h

/-- The arrays of a new root are empty. Source: `sys/slab_allocator.cpp` `SlabAllocatorRoot::SlabAllocatorRoot`.
Kind: L -/
theorem Inv.newRoot (h : Inv m s) (hmy : my < m.numCpus)
    (hstep : SlabRoots.newRoot m my memory fuel s = some s') : Inv m s' := by
  unfold SlabRoots.newRoot at hstep
  split at hstep
  · cases hstep
  · rename_i s₁ halloc
    obtain rfl := Option.some.inj hstep
    obtain ⟨a, hget⟩ := allocFrom_eq_some halloc
    exact (calls_inv hmy fuel).1 _ _ _ _ h hmy hget
  · rename_i s₁ halloc
    obtain rfl := Option.some.inj hstep
    obtain ⟨a, hget⟩ := allocFrom_eq_some halloc
    have hs₁ : Inv m s₁ := (calls_inv hmy fuel).1 _ _ _ _ h hmy hget
    refine ⟨fun root i a h => ?_, fun root i a h => ?_, fun i hi => ?_⟩
    · dsimp only at h
      by_cases hroot : root = .dynamic s₁.dynamicRoots
      · rw [hroot, Function.update_self] at h
        cases h
      · rw [Function.update_of_ne hroot] at h
        exact hs₁.node root i a h
    · dsimp only at h
      by_cases hroot : root = .dynamic s₁.dynamicRoots
      · rw [hroot, Function.update_self] at h
        cases h
      · rw [Function.update_of_ne hroot] at h
        exact hs₁.cpu root i a h
    · dsimp only
      rw [Function.update_of_ne (by simp)]
      exact hs₁.filled i hi

/-- Every run keeps the invariant. Source: `sys/slab_allocator.cpp` `SlabAllocatorRoot`. Kind: L -/
theorem inv_of_run {as : List Op} (hrun : (system m fuel).Run (slabInit m) as s) : Inv m s := by
  refine hrun.invariant (inv_slabInit m) fun s op s' hs hlegal hstep => ?_
  cases op with
  | getCpuAllocator my root cpuIndex memory =>
      obtain ⟨r, hr, rfl⟩ := Option.map_eq_some_iff.mp hstep
      exact (calls_inv hlegal.1 fuel).1 _ _ _ _ hs hlegal.2.2 hr
  | getNodeAllocator my root nid memory =>
      obtain ⟨r, hr, rfl⟩ := Option.map_eq_some_iff.mp hstep
      exact (calls_inv hlegal.1 fuel).2.1 _ _ _ _ hs hr
  | newRoot my memory => exact hs.newRoot hlegal hstep

/-- **Allocators belong to the root that they are reached through exactly when** they are not the CPU
allocators of `slab_node_allocator`.
Source: `sys/slab_allocator.cpp` `slab_init`, `SlabAllocatorRoot`
Kind: P -/
theorem slabRoots_exactlyWhen (m : Machine) (fuel : ℕ) (as : List Op) (s : State)
    (hrun : (system m fuel).Run (slabInit m) as s) (root : Root) (i : ℕ) :
    (∀ a, s.nodeAllocators root i = some a → a.root = root) ∧
      ∀ a, s.cpuAllocators root i = some a → (a.root = root ↔ root ≠ .slabNodeAllocator) := by
  have hinv := inv_of_run hrun
  refine ⟨hinv.node root i, fun a ha => ?_⟩
  rw [hinv.cpu root i a ha]
  cases root with
  | slabNodeAllocator => exact iff_of_false (by rw [cpuRoot]; simp) (not_not.mpr rfl)
  | slabRootAllocator => exact iff_of_true rfl (by simp)
  | slabCpuAllocator => exact iff_of_true rfl (by simp)
  | dynamic n => exact iff_of_true rfl (by simp)

/-- Two CPUs on two nodes. Source: `sys/numa.hpp` `numa_nodes`. Kind: D -/
def twoNodes : Machine := ⟨2, 2, id⟩

/-- A new root, and an allocator of it for the CPU of the other node.
Source: `sys/slab_allocator.cpp` `SlabAllocatorRoot::get_cpu_allocator`
Kind: P -/
theorem slabRoots_exactlyWhen_dynamic : ∃ s a,
    (system twoNodes 8).Run (slabInit twoNodes)
      [.newRoot 0 fun _ => true, .getCpuAllocator 0 (.dynamic 0) 1 fun _ => true] s ∧
    s.cpuAllocators (.dynamic 0) 1 = some a ∧ a.root = .dynamic 0 := by
  have hadmits : (system twoNodes 8).Admits (slabInit twoNodes)
      [.newRoot 0 fun _ => true, .getCpuAllocator 0 (.dynamic 0) 1 fun _ => true] := by
    decide
  obtain ⟨s, hexec, hrun⟩ := System.Run.of_admits hadmits
  have hthere : (s.cpuAllocators (.dynamic 0) 1).isSome = true := by
    obtain rfl := Option.some.inj hexec
    decide
  obtain ⟨a, ha⟩ := Option.isSome_iff_exists.mp hthere
  exact ⟨s, a, hrun, ha, ((slabRoots_exactlyWhen twoNodes 8 _ s hrun (.dynamic 0) 1).2 a ha).mpr
    (by decide)⟩

/-- After `slab_init`, the CPU allocator of `slab_node_allocator` belongs to `slab_cpu_allocator`.
Source: `sys/slab_allocator.cpp` `slab_init`
Kind: P -/
theorem not_own_root : ¬ ∀ (m : Machine) (fuel : ℕ) (as : List Op) (s : State),
    (system m fuel).Run (slabInit m) as s → ∀ root i,
      (∀ a, s.nodeAllocators root i = some a → a.root = root) ∧
        ∀ a, s.cpuAllocators root i = some a → a.root = root := by
  intro hclaim
  have h := (hclaim twoNodes 0 [] _ System.Run.nil .slabNodeAllocator 0).2 ⟨.slabCpuAllocator⟩
    (by decide)
  exact absurd h (by decide)

end SlabRoots

end EbbRT
