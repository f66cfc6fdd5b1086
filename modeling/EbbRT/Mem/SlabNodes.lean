import EbbRT.Lib.Refinement
import EbbRT.Mem.SlabNodeRace
import EbbRT.Mem.SlabProgress
import EbbRT.Mem.SlabUntouched

/-!
# The slab allocator with its nodes' allocators

`Alloc` of another node's memory goes through `get_node_allocator`, which creates the node's allocator
when there is none. As long as no CPU loses the race for that, the runs are those of a root whose node
allocators are all there (`projects`): the objects are conserved (`slabNodes_always`) and no step fails
(`slabNodes_progress`). A CPU that loses deletes the allocator that is in use; in the build without
assertions the objects on the lists of its cache are in no place any more (`lost_conserves_iff`).
-/

namespace EbbRT

namespace SlabNodes

open EbbRT.Lib

/-! ## The code -/

/-- The root with its caches and CPUs, and where the CPUs are in `get_node_allocator`. The cache of a node is
that of the allocator stored for it; of the other allocators of a node nothing is used.
Source: `sys/slab_allocator.hpp` `SlabAllocatorRoot`
Kind: D -/
structure State where
  slab : Slab.State
  nodes : NodeAllocator.State

/-- Before the first call. Source: `sys/slab_allocator.cpp` `SlabAllocatorRoot::SlabAllocatorRoot`. Kind: D -/
def State.init (boot : ℕ → Slab.SlabData) : State := ⟨Slab.State.init boot, NodeAllocator.State.init⟩

/-- A client calls, a CPU goes on in `get_node_allocator`, or in the functions of a cache.
Source: `sys/slab_allocator.cpp` `SlabAllocator`
Kind: D -/
inductive Step
  | call (k : ℕ) (op : Slab.Op)
  | create (k : ℕ) (memory : Bool)
  | run (k : ℕ) (page : Option ℕ)
  deriving DecidableEq, Repr

variable (root : SlabAllocatorRoot) (topo : Slab.Topology) (ndebug : Bool)

/-- The destructor of a cache. Unless the assertions are compiled out, two of its lists must be empty; the
destructors of the lists unlink what is on them.
Source: `sys/slab_allocator.cpp` `SlabCache::~SlabCache`
Kind: D -/
def destroyCache (c : Slab.CacheId) (s : Slab.State) : Option Slab.State :=
  if ndebug = false ∧ ((s.caches c).objectList ≠ [] ∨ (s.caches c).remote ≠ []) then none
  else some (s.setCache c ⟨[], [], [], false⟩)

/-- Begin a call; `Alloc` of another node's memory begins with `get_node_allocator`.
Source: `sys/slab_allocator.cpp` `SlabAllocator::Alloc`
Kind: D -/
def start (k : ℕ) (s : State) : Slab.Op → State
  | .alloc nid =>
      if nid = topo.nodeOf k then { s with slab := Slab.start root k topo s.slab (.alloc nid) }
      else { s with nodes := s.nodes.goto k (.load nid) }
  | op => { s with slab := Slab.start root k topo s.slab op }

/-- After a step of `get_node_allocator`. If it has returned, `node_allocator.Alloc()` begins.
Source: `sys/slab_allocator.cpp` `SlabAllocator::Alloc`
Kind: D -/
def goOn (k : ℕ) (s : State) (nodes : NodeAllocator.State) : State :=
  match nodes.returned with
  | [] => { s with nodes := nodes }
  | (nid, _) :: before =>
      if before = s.nodes.returned then ⟨Slab.start root k topo s.slab (.alloc nid), nodes⟩
      else { s with nodes := nodes }

/-- A step of `get_node_allocator`. Storing an allocator brings its new cache, and `delete` destroys the cache
of the one that is stored.
Source: `sys/slab_allocator.cpp` `SlabAllocatorRoot::get_node_allocator`
Kind: D -/
def create (k : ℕ) (memory : Bool) (s : State) : Option State :=
  match s.nodes.pc k with
  | .compareExchange nid _ =>
      let slab :=
        if s.nodes.nodeAllocators nid = none then s.slab.setCache (.node nid) Slab.SlabCache.construct
        else s.slab
      (s.nodes.run k memory).map (goOn root topo k { s with slab := slab })
  | .delete nid _ _ =>
      (destroyCache ndebug (.node nid) s.slab).bind fun slab =>
        (s.nodes.run k memory).map (goOn root topo k { s with slab := slab })
  | _ => (s.nodes.run k memory).map (goOn root topo k s)

/-- A CPU that is in neither kind of functions may call, and a CPU goes on where it is.
Source: `sys/slab_allocator.cpp` `SlabAllocator`
Kind: D -/
def Legal (s : State) : Step → Prop
  | .call k op => s.nodes.pc k = .idle ∧ Slab.Legal root s.slab (.call k op)
  | .create k _ => s.nodes.pc k ≠ .idle
  | .run k page => Slab.Legal root s.slab (.run k page)

/-- After a `delete` any step may go through freed memory: none is followed.
Source: `sys/slab_allocator.cpp` `SlabAllocator`, `SlabAllocatorRoot::get_node_allocator`
Kind: D -/
def step (s : State) (a : Step) : Option State :=
  if s.nodes.deleted ≠ [] then none
  else
    match a with
    | .call k op => some (start root topo k s op)
    | .create k memory => create root topo ndebug k memory s
    | .run k page => (Slab.step root topo s.slab (.run k page)).map fun slab => { s with slab := slab }

/-- The clients, the CPUs and the page allocator around one root, in the build with or without assertions.
Source: `sys/slab_allocator.cpp` `SlabAllocator`
Kind: D -/
def system : System State Step := ⟨Legal root, step root topo ndebug⟩

instance (s : State) : ∀ a : Step, Decidable ((system root topo ndebug).legal s a)
  | .call k op => inferInstanceAs (Decidable (s.nodes.pc k = .idle ∧ Slab.Legal root s.slab (.call k op)))
  | .create k _ => inferInstanceAs (Decidable (s.nodes.pc k ≠ .idle))
  | .run k page => inferInstanceAs (Decidable (Slab.Legal root s.slab (.run k page)))

/-- The steps that the code handles: a compare-exchange that finds null.
Source: `sys/slab_allocator.cpp` `SlabAllocatorRoot::get_node_allocator`
Kind: D -/
def NotLost (s : State) : Step → Prop
  | .create k memory => NodeAllocator.NotLost s.nodes (.run k memory)
  | _ => True

instance (s : State) : ∀ a : Step, Decidable (NotLost s a)
  | .create k memory => inferInstanceAs (Decidable (NodeAllocator.NotLost s.nodes (.run k memory)))
  | .call _ _ => isTrue trivial
  | .run _ _ => isTrue trivial

/-! ## Steps of `get_node_allocator` -/

variable {root topo ndebug} {s s' : State} {nodes nodes' : NodeAllocator.State} {k nid o : ℕ}
  {memory : Bool}

/-- It is a step of one CPU. Source: `sys/slab_allocator.cpp` `SlabAllocatorRoot::get_node_allocator`. Kind: L -/
theorem run_pc_of_ne {k' : ℕ} (hk : k' ≠ k) (h : nodes.run k memory = some nodes') :
    nodes'.pc k' = nodes.pc k' := by
  unfold NodeAllocator.State.run at h
  split at h
  · cases h
  · split at h <;>
    · cases h
      exact NodeAllocator.goto_of_ne hk _ _
  · split at h <;>
    · cases h
      exact NodeAllocator.goto_of_ne hk _ _
  · split at h <;>
    · cases h
      exact NodeAllocator.goto_of_ne hk _ _
  · cases h
    exact NodeAllocator.goto_of_ne hk _ _
  · obtain ⟨a, -, rfl⟩ := Option.map_eq_some_iff.mp h
    exact NodeAllocator.goto_of_ne hk _ _

/-- The call goes on, or it has returned.
Source: `sys/slab_allocator.cpp` `SlabAllocatorRoot::get_node_allocator`
Kind: L -/
theorem returned_cases (h : nodes.run k memory = some nodes') :
    nodes'.returned = nodes.returned ∨
      nodes'.pc k = .idle ∧ ∃ r, nodes'.returned = r :: nodes.returned := by
  unfold NodeAllocator.State.run at h
  split at h
  · cases h
  · split at h
    · cases h
      exact Or.inl rfl
    · cases h
      exact Or.inr ⟨NodeAllocator.goto_self _ _ _, _, rfl⟩
  · split at h <;>
    · cases h
      exact Or.inl rfl
  · split at h
    · cases h
      exact Or.inr ⟨NodeAllocator.goto_self _ _ _, _, rfl⟩
    · cases h
      exact Or.inl rfl
  · cases h
    exact Or.inl rfl
  · obtain ⟨a, -, rfl⟩ := Option.map_eq_some_iff.mp h
    exact Or.inr ⟨NodeAllocator.goto_self _ _ _, _, rfl⟩

/-- What is stored stays. Source: `sys/slab_allocator.cpp` `SlabAllocatorRoot::get_node_allocator`. Kind: L -/
theorem run_nodeAllocators (h : nodes.run k memory = some nodes')
    (hnull : nodes'.nodeAllocators nid = none) : nodes.nodeAllocators nid = none := by
  unfold NodeAllocator.State.run at h
  split at h
  · cases h
  · split at h <;>
    · cases h
      exact hnull
  · split at h <;>
    · cases h
      exact hnull
  · split at h
    · rename_i nid' newAllocator _ _ hstored
      cases h
      by_cases hnid : nid = nid'
      · rw [hnid, hstored]
      · exact (Function.update_of_ne hnid _ _).symm.trans hnull
    · cases h
      exact hnull
  · cases h
    exact hnull
  · obtain ⟨a, -, rfl⟩ := Option.map_eq_some_iff.mp h
    exact hnull

/-- A call that goes on leaves the root alone. Source: `sys/slab_allocator.cpp` `SlabAllocator::Alloc`. Kind: L -/
theorem goOn_of_eq (h : nodes.returned = s.nodes.returned) :
    goOn root topo k s nodes = { s with nodes := nodes } := by
  unfold goOn
  cases hr : nodes.returned with
  | nil => rfl
  | cons r before =>
      dsimp only
      rw [← h, hr, if_neg (List.cons_ne_self _ _).symm]

/-- A call that has returned goes on with the allocator's own `Alloc`.
Source: `sys/slab_allocator.cpp` `SlabAllocator::Alloc`
Kind: L -/
theorem goOn_of_cons {r : ℕ × ℕ} (h : nodes.returned = r :: s.nodes.returned) :
    goOn root topo k s nodes = ⟨Slab.start root k topo s.slab (.alloc r.1), nodes⟩ := by
  unfold goOn
  rw [h]
  exact if_pos rfl

/-! ## While nobody loses -/

/-- As long as nobody has lost: what holds of the race, a CPU is in one kind of functions only, and nothing
leads to the cache of a node without an allocator.
Source: `sys/slab_allocator.cpp` `SlabAllocator::Alloc`
Kind: D -/
structure Inv (root : SlabAllocatorRoot) (s : State) : Prop where
  nodes : NodeAllocator.Inv s.nodes
  good : Slab.Good root s.slab
  idle : ∀ k, s.nodes.pc k ≠ .idle → (s.slab.cpus k).stack = []
  untouched : ∀ nid, s.nodes.nodeAllocators nid = none → Slab.Untouched root (.node nid) s.slab

/-- Before the first call. Source: `sys/slab_allocator.cpp` `SlabAllocatorRoot::SlabAllocatorRoot`. Kind: L -/
theorem Inv.init (boot : ℕ → Slab.SlabData) : Inv root (State.init boot) :=
  ⟨NodeAllocator.Inv.init, Slab.Good.init boot, fun _ _ => rfl,
    fun _ _ => Slab.Untouched.init boot fun _ => nofun⟩

/-- A step of one CPU in the functions of a cache, which leaves the race alone.
Source: `sys/slab_allocator.cpp` `SlabAllocator`
Kind: L -/
theorem Inv.slab {slab : Slab.State} {a : Slab.Step} (h : Inv root s) (hidle : s.nodes.pc k = .idle)
    (hlegal : Slab.Legal root s.slab a) (hstep : Slab.step root topo s.slab a = some slab)
    (hhome : ∀ k nid, a = .call k (.alloc nid) → nid = topo.nodeOf k)
    (hcpus : ∀ k', k' ≠ k → slab.cpus k' = s.slab.cpus k') : Inv root { s with slab := slab } := by
  refine ⟨h.nodes, h.good.step hlegal hstep, fun k' hpc => ?_, fun nid hnull => ?_⟩
  · have hk : k' ≠ k := by
      rintro rfl
      exact hpc hidle
    show (slab.cpus k').stack = []
    rw [hcpus k' hk]
    exact h.idle k' hpc
  · apply (h.untouched nid hnull).step h.good (fun _ => nofun) hlegal ?_ hstep
    exact fun k' nid' heq hnode => absurd (hhome k' nid' heq) hnode

/-- Nothing is deleted, so every step is followed. Source: none: infrastructure. Kind: L -/
theorem Inv.step_eq (h : Inv root s) (a : Step) : step root topo ndebug s a =
    match a with
    | .call k op => some (start root topo k s op)
    | .create k memory => create root topo ndebug k memory s
    | .run k page => (Slab.step root topo s.slab (.run k page)).map fun slab => { s with slab := slab } :=
  if_neg (not_not.mpr h.nodes.deleted)

/-- A step of `get_node_allocator` deletes nothing, and the cache of a new allocator is as the root has it.
Source: `sys/slab_allocator.cpp` `SlabAllocatorRoot::get_node_allocator`
Kind: L -/
theorem Inv.create_eq (h : Inv root s) (memory : Bool) :
    create root topo ndebug k memory s = (s.nodes.run k memory).map (goOn root topo k s) := by
  unfold create
  split
  · rename_i nid newAllocator hpc
    have hslab : (if s.nodes.nodeAllocators nid = none then
        s.slab.setCache (.node nid) Slab.SlabCache.construct else s.slab) = s.slab := by
      split
      · rename_i hnull
        unfold Slab.State.setCache
        rw [← (h.untouched nid hnull).fresh, Function.update_eq_self]
      · rfl
    rw [hslab]
  · rename_i nid newAllocator allocator hpc
    exact absurd hpc ((h.nodes.won k nid).2 newAllocator allocator)
  · rfl

/-- **A step while nobody loses** is a step of the root, or none of it, and keeps the invariant.
Source: `sys/slab_allocator.cpp` `SlabAllocator::Alloc`
Kind: P -/
theorem Inv.step {a : Step} (h : Inv root s) (hlegal : Legal root s a) (hok : NotLost s a)
    (hstep : step root topo ndebug s a = some s') :
    Inv root s' ∧ (s'.slab = s.slab ∨
      ∃ b, Slab.Legal root s.slab b ∧ Slab.step root topo s.slab b = some s'.slab) := by
  rw [h.step_eq] at hstep
  cases a with
  | call k op =>
      obtain ⟨hidle, hcall⟩ := hlegal
      have hslab : (∀ nid, op = .alloc nid → nid = topo.nodeOf k) →
          Inv root { s with slab := Slab.start root k topo s.slab op } := by
        intro hhome
        apply h.slab hidle hcall rfl
        · rintro k' nid heq
          obtain ⟨rfl, rfl⟩ := Slab.Step.call.inj heq
          exact hhome nid rfl
        · exact fun k' hk => Slab.start_cpus hk op
      obtain rfl := Option.some.inj hstep
      cases op with
      | alloc nid =>
          unfold start
          dsimp only
          split
          · rename_i hnode
            refine ⟨hslab fun nid' heq => ?_, Or.inr ⟨_, hcall, rfl⟩⟩
            rw [← Slab.Op.alloc.inj heq]
            exact hnode
          · refine ⟨⟨?_, h.good, fun k' hpc => ?_, h.untouched⟩, Or.inl rfl⟩
            · have hlegal : NodeAllocator.system.legal s.nodes (.call k nid) := hidle
              have hcall : NodeAllocator.step s.nodes (.call k nid) = some (s.nodes.goto k (.load nid)) := rfl
              exact h.nodes.step hlegal trivial hcall
            · by_cases hk : k' = k
              · rw [hk]
                exact hcall.1
              · have hsame : (s.nodes.goto k (.load nid)).pc k' = s.nodes.pc k' :=
                  NodeAllocator.goto_of_ne hk _ _
                exact h.idle k' fun hpc' => hpc (hsame.trans hpc')
      | _ => exact ⟨hslab nofun, Or.inr ⟨_, hcall, rfl⟩⟩
  | create k memory =>
      dsimp only at hstep
      rw [h.create_eq] at hstep
      obtain ⟨nodes, hrun, rfl⟩ := Option.map_eq_some_iff.mp hstep
      have hnext : NodeAllocator.step s.nodes (.run k memory) = some nodes := hrun
      have hlegal' : NodeAllocator.system.legal s.nodes (.run k memory) := hlegal
      have hnodes : NodeAllocator.Inv nodes := h.nodes.step hlegal' hok hnext
      have hidle : (s.slab.cpus k).stack = [] := h.idle k hlegal
      rcases returned_cases hrun with hsame | ⟨hpc, r, hr⟩
      · rw [goOn_of_eq hsame]
        refine ⟨⟨hnodes, h.good, fun k' hpc' => ?_, fun nid hnull => ?_⟩, Or.inl rfl⟩
        · by_cases hk : k' = k
          · rw [hk]
            exact hidle
          · exact h.idle k' ((run_pc_of_ne hk hrun).symm.trans_ne hpc')
        · exact h.untouched nid (run_nodeAllocators hrun hnull)
      · rw [goOn_of_cons hr]
        have hcall : Slab.Legal root s.slab (.call k (.alloc r.1)) := ⟨hidle, trivial⟩
        refine ⟨⟨hnodes, h.good.step hcall rfl, fun k' hpc' => ?_, fun nid hnull => ?_⟩, Or.inr ⟨_, hcall, rfl⟩⟩
        · have hk : k' ≠ k := by
            rintro rfl
            exact hpc' hpc
          show ((Slab.start root k topo s.slab (.alloc r.1)).cpus k').stack = []
          rw [Slab.start_cpus hk]
          exact h.idle k' ((run_pc_of_ne hk hrun).symm.trans_ne hpc')
        · -- the node that the call has returned for has an allocator
          have hstored : nodes.nodeAllocators r.1 = some r.2 := by
            apply hnodes.same
            rw [hr]
            exact List.mem_cons_self
          have hne : nid ≠ r.1 := by
            rintro rfl
            have hnull' : nodes.nodeAllocators r.1 = none := hnull
            rw [hstored] at hnull'
            cases hnull'
          have huntouched := h.untouched nid (run_nodeAllocators hrun hnull)
          have hop : Slab.OpLegal s.slab (.alloc r.1) := trivial
          apply huntouched.start h.good (fun _ => nofun) hop
          rintro nid' heq - hnode
          exact hne ((Slab.CacheId.node.inj hnode).symm.trans (Slab.Op.alloc.inj heq).symm)
  | run k page =>
      obtain ⟨slab, hslab, rfl⟩ := Option.map_eq_some_iff.mp hstep
      have hpc : s.nodes.pc k = .idle := by
        by_contra hpc
        exact hlegal.1 (h.idle k hpc)
      obtain ⟨frame, frames, -, hran⟩ := Slab.ran_of_step hslab
      have hlegal : Slab.Legal root s.slab (.run k page) := hlegal
      exact ⟨h.slab hpc hlegal hslab nofun fun k' hk => Slab.ran_cpus hran hk, Or.inr ⟨_, hlegal, hslab⟩⟩

/-- **The runs in which nobody loses** are runs of a root whose node allocators are there.
Source: `sys/slab_allocator.cpp` `SlabAllocator::Alloc`
Kind: P -/
theorem projects : System.Projects ((system root topo ndebug).guard NotLost) (Slab.slabSystem root topo)
    State.slab (Inv root) where
  keep _ _ _ h hlegal hstep := (h.step hlegal.1 hlegal.2 hstep).1
  step _ _ _ h hlegal hstep := (h.step hlegal.1 hlegal.2 hstep).2

/-! ## The objects are conserved -/

/-- No step conserves the objects. Source: none: infrastructure. Kind: L -/
theorem conserves_refl {slab : Slab.State} (h : Slab.Good root slab) : Slab.Conserves root slab slab := by
  refine ⟨fun b hb o ho => h.inv.inOnePlace hb ho, fun o ho => ?_, fun b hb hb' => absurd hb hb'⟩
  exact absurd ho.symm (List.cons_ne_self _ _)

/-- **Slab object conservation, with the creation of the nodes' allocators.** Whatever the CPUs and nodes, the
order of their steps, the memory that `operator new` finds and the blocks that the page allocator returns,
with or without assertions: in every run in which no compare-exchange fails, every step conserves the
objects.
Source: `sys/slab_allocator.cpp` `SlabAllocator`, `SlabAllocatorRoot::get_node_allocator`
Kind: C
Fidelity: weaker than the code promises: `NotLost` leaves out a failed compare-exchange, after which the
allocator in use is deleted -/
theorem slabNodes_always (root : SlabAllocatorRoot) (topo : Slab.Topology) (ndebug : Bool)
    (boot : ℕ → Slab.SlabData) :
    ((system root topo ndebug).guard NotLost).Always (State.init boot)
      fun s _ s' => Slab.Conserves root s.slab s'.slab := by
  apply projects.always (Inv.init boot)
  · exact Slab.slab_always root topo boot
  · exact fun bs slab hrun => conserves_refl (Slab.Good.of_run hrun)

/-- CPUs 1 and 2 allocate from node 0, whose allocator CPU 1 creates; CPU 1 frees what it got, and flushes it to
the node's cache.
Source: none: infrastructure
Kind: D -/
def remoteFree : List Step :=
  [.call 1 (.alloc 0), .create 1 true, .create 1 true, .create 1 true, .run 1 none, .run 1 none,
    .run 1 (some 64), .run 1 none, .call 2 (.alloc 0), .create 2 true, .run 2 none, .run 2 none,
    .run 2 (some 128), .run 2 none, .call 1 (.free 262144), .call 1 .flushRemoteList]

/-- The flush brings the object to the node's `remote_.list`, and conserves both objects.
Source: `sys/slab_allocator.cpp` `SlabAllocator::FlushRemoteList`
Kind: C -/
theorem slabNodes_always_remoteFree :
    ∃ s s', (system Slab.rootOf256K Slab.spread false).Run (State.init Slab.blank) remoteFree s ∧
      step Slab.rootOf256K Slab.spread false s (.run 1 none) = some s' ∧
      (s'.slab.caches (.node 0)).remote = [262144] ∧ s'.slab.held = [524288] ∧
      Slab.Conserves Slab.rootOf256K s.slab s'.slab := by
  have hadmits : ((system Slab.rootOf256K Slab.spread false).guard NotLost).Admits (State.init Slab.blank)
      (remoteFree ++ [.run 1 none]) := by decide +kernel
  have hend : (((system Slab.rootOf256K Slab.spread false).exec (State.init Slab.blank) remoteFree).bind
      fun s => (step Slab.rootOf256K Slab.spread false s (.run 1 none)).map
        fun s' => ((s'.slab.caches (.node 0)).remote, s'.slab.held)) = some ([262144], [524288]) := by
    decide +kernel
  obtain ⟨s, s', hexec, hrun, hlegal, hstep⟩ := hadmits.last
  have hexec : (system Slab.rootOf256K Slab.spread false).exec (State.init Slab.blank) remoteFree = some s :=
    hexec
  have hstep : step Slab.rootOf256K Slab.spread false s (.run 1 none) = some s' := hstep
  rw [hexec, Option.bind_some, hstep, Option.map_some, Option.some_inj, Prod.mk.injEq] at hend
  exact ⟨s, s', hrun.of_guard, hstep, hend.1, hend.2,
    slabNodes_always Slab.rootOf256K Slab.spread false Slab.blank _ s (.run 1 none) s' hrun hlegal hstep⟩

/-! ## The assertions hold -/

/-- A CPU in `get_node_allocator` can go on.
Source: `sys/slab_allocator.cpp` `SlabAllocatorRoot::get_node_allocator`
Kind: L -/
theorem Inv.isSome_run (h : Inv root s) (hpc : s.nodes.pc k ≠ .idle) (memory : Bool) :
    (s.nodes.run k memory).isSome := by
  unfold NodeAllocator.State.run
  split
  · contradiction
  · split <;> rfl
  · split <;> rfl
  · split <;> rfl
  · rfl
  · rename_i nid hreload
    exact absurd hreload (h.nodes.won k nid).1

/-- **The assertions of the slab allocator hold, with the creation of the nodes' allocators.** Whatever the CPUs
and nodes, the order of their steps, the memory that `operator new` finds and what the page allocator
returns: in every state reached without a failed compare-exchange, every step that can be taken and does not
fail a compare-exchange succeeds.
Source: `sys/slab_allocator.cpp` `SlabAllocator::Alloc`, `SlabAllocatorNode::Alloc`, `SlabCache::Alloc`
Kind: C
Fidelity: weaker than the code promises: `NotLost`, as in `slabNodes_always` -/
theorem slabNodes_progress (root : SlabAllocatorRoot) (topo : Slab.Topology) (ndebug : Bool)
    (boot : ℕ → Slab.SlabData) (as : List Step) (s : State)
    (hrun : ((system root topo ndebug).guard NotLost).Run (State.init boot) as s) (a : Step)
    (hlegal : ((system root topo ndebug).guard NotLost).legal s a) : (step root topo ndebug s a).isSome := by
  obtain ⟨hinv, bs, hbs⟩ := projects.run (Inv.init boot) hrun
  obtain ⟨hlegal, -⟩ := hlegal
  rw [hinv.step_eq]
  cases a with
  | call k op => rfl
  | create k memory =>
      dsimp only
      rw [hinv.create_eq, Option.isSome_map]
      exact hinv.isSome_run hlegal memory
  | run k page =>
      dsimp only
      rw [Option.isSome_map]
      exact Slab.slab_progress root topo boot bs s.slab hbs (.run k page) hlegal

/-- The second call of `SlabCache::Alloc` on the new allocator of node 0 finds the new slab.
Source: `sys/slab_allocator.cpp` `SlabAllocatorNode::Alloc`
Kind: C -/
theorem slabNodes_progress_second :
    ∃ s, ((system Slab.rootOf256K Slab.spread false).guard NotLost).Run (State.init Slab.blank)
        (remoteFree.take 7) s ∧
      s.nodes.nodeAllocators 0 = some 0 ∧ (s.slab.cpus 1).stack = [.alloc true] ∧
      (step Slab.rootOf256K Slab.spread false s (.run 1 none)).isSome := by
  have hadmits : ((system Slab.rootOf256K Slab.spread false).guard NotLost).Admits (State.init Slab.blank)
      (remoteFree.take 7 ++ [.run 1 none]) := by decide +kernel
  have hend : ((system Slab.rootOf256K Slab.spread false).exec (State.init Slab.blank)
      (remoteFree.take 7)).map (fun s => (s.nodes.nodeAllocators 0, (s.slab.cpus 1).stack)) =
        some (some 0, [.alloc true]) := by decide +kernel
  obtain ⟨s, s', hexec, hrun, hlegal, -⟩ := hadmits.last
  have hexec : (system Slab.rootOf256K Slab.spread false).exec (State.init Slab.blank)
      (remoteFree.take 7) = some s := hexec
  rw [hexec, Option.map_some, Option.some_inj, Prod.mk.injEq] at hend
  refine ⟨s, hrun, hend.1, hend.2, ?_⟩
  exact slabNodes_progress Slab.rootOf256K Slab.spread false Slab.blank (remoteFree.take 7) s hrun
    (.run 1 none) hlegal

/-! ## The first CPU that loses -/

/-- **Destroying a cache that is in use** loses the objects on its lists, and no others.
Source: `sys/slab_allocator.cpp` `SlabCache::~SlabCache`
Kind: P -/
theorem conserves_destroyed_iff {slab : Slab.State} {c : Slab.CacheId} (h : Slab.Good root slab) :
    Slab.Conserves root slab (slab.setCache c ⟨[], [], [], false⟩) ↔
      (slab.caches c).objectList = [] ∧ (slab.caches c).remote = [] := by
  obtain ⟨slab', hslab⟩ : ∃ t, slab.setCache c ⟨[], [], [], false⟩ = t := ⟨_, rfl⟩
  have hother : ∀ p, p ≠ .objectList c → p ≠ .remote c → slab'.contents p = slab.contents p := by
    intro p hobjects hremote
    rw [← hslab]
    cases p with
    | objectList c' =>
        have hc : c' ≠ c := by
          rintro rfl
          exact hobjects rfl
        show (Function.update slab.caches c _ c').objectList = _
        rw [Function.update_of_ne hc]
        rfl
    | remote c' =>
        have hc : c' ≠ c := by
          rintro rfl
          exact hremote rfl
        show (Function.update slab.caches c _ c').remote = _
        rw [Function.update_of_ne hc]
        rfl
    | _ => rfl
  have hobjects : slab'.contents (.objectList c) = [] := by
    rw [← hslab]
    exact congrArg Slab.SlabCache.objectList (Function.update_self c _ slab.caches)
  have hremote : slab'.contents (.remote c) = [] := by
    rw [← hslab]
    exact congrArg Slab.SlabCache.remote (Function.update_self c _ slab.caches)
  rw [hslab]
  constructor
  · rintro ⟨hplaces, -, -⟩
    have hgone : ∀ p, p = .objectList c ∨ p = .remote c → slab.contents p = [] := by
      intro p hp
      by_contra hne
      obtain ⟨o, ho⟩ := List.exists_mem_of_ne_nil _ hne
      obtain ⟨hb, hmem⟩ := h.inv.slab_of_mem (p := some p) ho
      obtain ⟨p₀, -, hunique, -⟩ := h.inv.inOnePlace hb hmem
      have hlive : addrToSlabPfn o root.order ∈ slab'.blocks := by
        rw [← hslab]
        exact hb
      obtain ⟨q, hcount, -, -⟩ := hplaces _ hlive o hmem
      have hq : o ∈ slab'.contents q := List.count_pos_iff.mp (by rw [hcount]; exact Nat.one_pos)
      -- the place where it is now is another one, and it was there before
      have hqo : q ≠ .objectList c := by
        rintro rfl
        rw [hobjects] at hq
        exact List.not_mem_nil hq
      have hqr : q ≠ .remote c := by
        rintro rfl
        rw [hremote] at hq
        exact List.not_mem_nil hq
      rw [hother q hqo hqr] at hq
      have hsame : q = p := (hunique q hq).trans (hunique p ho).symm
      rcases hp with rfl | rfl
      · exact hqo hsame
      · exact hqr hsame
    exact ⟨hgone _ (Or.inl rfl), hgone _ (Or.inr rfl)⟩
  · rintro ⟨hnil, hnil'⟩
    have hcontents : slab'.contents = slab.contents := by
      funext p
      by_cases hp : p = .objectList c
      · rw [hp, hobjects]
        exact hnil.symm
      · by_cases hp' : p = .remote c
        · rw [hp', hremote]
          exact hnil'.symm
        · exact hother p hp hp'
    have hheld : slab'.held = slab.held := congrFun hcontents .held
    have hblocks : slab'.blocks = slab.blocks := by rw [← hslab]; rfl
    refine ⟨fun b hb o ho => ?_, fun o ho => ?_, fun b hb hb' => ?_⟩
    · unfold Slab.InOnePlace
      rw [hcontents]
      exact h.inv.inOnePlace (hblocks ▸ hb) ho
    · exact absurd (hheld.symm.trans ho).symm (List.cons_ne_self _ _)
    · exact absurd (hblocks ▸ hb) hb'

/-- **The first CPU that loses.** After a run in which nobody has lost, a failed compare-exchange is followed by
the `delete` of the allocator that is in use, which conserves the objects exactly when two lists of its
cache are empty; with assertions there is no such step otherwise.
Source: `sys/slab_allocator.cpp` `SlabAllocatorRoot::get_node_allocator`
Kind: P -/
theorem lost_conserves_iff {boot : ℕ → Slab.SlabData} {as : List Step} {memory' : Bool} {t : State}
    {newAllocator allocator : ℕ}
    (hrun : ((system root topo ndebug).guard NotLost).Run (State.init boot) as s)
    (hpc : s.nodes.pc k = .compareExchange nid newAllocator)
    (hlost : s.nodes.nodeAllocators nid = some allocator)
    (hstep : step root topo ndebug s (.create k memory) = some s')
    (hstep' : step root topo ndebug s' (.create k memory') = some t) :
    Slab.Conserves root s'.slab t.slab ↔
      (s.slab.caches (.node nid)).objectList = [] ∧ (s.slab.caches (.node nid)).remote = [] := by
  obtain ⟨hinv, -⟩ := projects.run (Inv.init boot) hrun
  rw [hinv.step_eq] at hstep
  dsimp only at hstep
  rw [hinv.create_eq] at hstep
  obtain ⟨nodes, hnodes, rfl⟩ := Option.map_eq_some_iff.mp hstep
  unfold NodeAllocator.State.run at hnodes
  simp only [hpc, hlost, Option.some.injEq] at hnodes
  subst hnodes
  have hgo : goOn root topo k s (s.nodes.goto k (.delete nid newAllocator allocator)) =
      { s with nodes := s.nodes.goto k (.delete nid newAllocator allocator) } := goOn_of_eq rfl
  rw [hgo] at hstep' ⊢
  have hdeleted : (s.nodes.goto k (.delete nid newAllocator allocator)).deleted = [] := hinv.nodes.deleted
  have hpc' : (s.nodes.goto k (.delete nid newAllocator allocator)).pc k =
      .delete nid newAllocator allocator := NodeAllocator.goto_self _ _ _
  simp only [step, hdeleted, ne_eq, not_true_eq_false, if_false, create, hpc'] at hstep'
  obtain ⟨slab, hslab, hmap⟩ := Option.bind_eq_some_iff.mp hstep'
  obtain ⟨nodes, hnodes, rfl⟩ := Option.map_eq_some_iff.mp hmap
  have hreturned : nodes.returned = s.nodes.returned := by
    unfold NodeAllocator.State.run at hnodes
    simp only [hpc', Option.some.injEq] at hnodes
    rw [← hnodes]
    rfl
  have hgo' : goOn root topo k ⟨slab, s.nodes.goto k (.delete nid newAllocator allocator)⟩ nodes =
      ⟨slab, nodes⟩ := goOn_of_eq hreturned
  rw [hgo']
  unfold destroyCache at hslab
  split at hslab
  · cases hslab
  · obtain rfl := Option.some.inj hslab
    exact conserves_destroyed_iff hinv.good

/-- CPUs 1 and 2 both find null for node 0, and create an allocator each. CPU 1 stores its own, allocates, frees
and flushes the object to the cache; CPU 2 is about to lose.
Source: none: infrastructure
Kind: D -/
def bothCreate : List Step :=
  [.call 1 (.alloc 0), .call 2 (.alloc 0), .create 1 true, .create 2 true, .create 1 true, .create 2 true,
    .create 1 true, .run 1 none, .run 1 none, .run 1 (some 64), .run 1 none, .call 1 (.free 262144),
    .call 1 .flushRemoteList, .run 1 none]

/-- In the build without assertions CPU 2 deletes the cache with the object, which is in no place then.
Source: `sys/slab_allocator.cpp` `SlabAllocatorRoot::get_node_allocator`
Kind: C -/
theorem slabNodes_not_always :
    ¬ ∀ root topo ndebug boot, (system root topo ndebug).Always (State.init boot)
      fun s _ s' => Slab.Conserves root s.slab s'.slab := by
  intro hall
  have hguarded : ((system Slab.rootOf256K Slab.spread true).guard NotLost).Admits (State.init Slab.blank)
      bothCreate := by decide +kernel
  have hadmits : (system Slab.rootOf256K Slab.spread true).Admits (State.init Slab.blank)
      (bothCreate ++ [.create 2 true, .create 2 true]) := by decide +kernel
  have hend : ((system Slab.rootOf256K Slab.spread true).exec (State.init Slab.blank) bothCreate).map
      (fun s => (s.nodes.pc 2, s.nodes.nodeAllocators 0, (s.slab.caches (.node 0)).remote)) =
        some (.compareExchange 0 1, some 0, [262144]) := by
    decide +kernel
  obtain ⟨s, hexec, hrun⟩ := System.Run.of_admits hguarded
  obtain ⟨t, hexec', hrun', hrest⟩ := hadmits.append
  obtain rfl : s = t := Option.some.inj (hexec.symm.trans hexec')
  rw [hexec', Option.map_some, Option.some_inj, Prod.mk.injEq, Prod.mk.injEq] at hend
  obtain ⟨hpc, hlost, hremote⟩ := hend
  have hrest : (system Slab.rootOf256K Slab.spread true).Admits s ([.create 2 true] ++ [.create 2 true]) :=
    hrest
  obtain ⟨s', t, hexec₁, hrun₁, hlegal, hstep'⟩ := hrest.last
  have hstep : step Slab.rootOf256K Slab.spread true s (.create 2 true) = some s' := by
    simpa [System.exec, system] using hexec₁
  have hconserves := hall _ _ _ _ _ s' (.create 2 true) t (hrun'.append hrun₁) hlegal hstep'
  have hnil := ((lost_conserves_iff hrun hpc hlost hstep hstep').mp hconserves).2
  rw [hremote] at hnil
  cases hnil

end SlabNodes

end EbbRT
