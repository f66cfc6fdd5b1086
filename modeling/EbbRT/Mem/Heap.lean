import EbbRT.Mem.GeneralPurposeAllocator
import EbbRT.Mem.PageAllocatorRuns
import EbbRT.Mem.SlabEffects

/-!
# The heap

`gp_allocator` over its size classes, the slab allocators of all CPUs and nodes under each class, and the
page allocators of all nodes under these, beside the rest of the kernel that takes pages too. Clients
call `Alloc` and `Free` on any CPU, and the CPUs' steps follow one another in any order. The slab
allocators, which elsewhere are only promised fit blocks of pages and fair clients, get both from what
is modelled here.
-/

namespace EbbRT

open EbbRT.Lib

namespace Heap

open PageState (NumaState numaStep nodePages Layout)

/-! ## The state and the steps -/

/-- An allocation: where it is and what was asked for.
Source: `sys/general_purpose_allocator.hpp` `general_purpose_allocator::Alloc`
Kind: D -/
structure Region where
  addr : ℕ
  size : ℕ
  deriving DecidableEq, Repr

/-- Source: none: infrastructure
Kind: D -/
def Region.bytes (r : Region) : Set ℕ := Set.Ico r.addr (r.addr + r.size)

/-- The roots of the size classes, the class of a size, and the nodes.
Source: `sys/general_purpose_allocator.hpp` `general_purpose_allocator::allocator_roots`
Kind: D -/
structure Config (ι : Type*) where
  root : ι → SlabAllocatorRoot
  index : ℕ → Option ι
  topo : Slab.Topology

/-- The page allocators and the slab allocators of each class. The slab fields of the page structures are
with the class that wrote them last, which `cacheRoot` names. Beside that, a record: of which node a
block was asked, the blocks that the rest of the kernel has, the class whose code a CPU runs, the size
where it runs `Alloc`, and the live allocations.
Source: `sys/general_purpose_allocator.hpp` `general_purpose_allocator`
Kind: D -/
structure State (ι : Type*) where
  pages : NumaState
  slabs : ι → Slab.State
  /-- `page->data.slab_data.cache->root_`. -/
  cacheRoot : ℕ → Option ι
  askedOf : ℕ → ℕ
  lent : List (ℕ × Block)
  running : ℕ → Option ι
  request : ℕ → Option ℕ
  live : List Region

/-- What happens: a client calls on CPU `k`, a CPU runs on, or other code takes pages or gives them back.
Source: `sys/general_purpose_allocator.hpp` `general_purpose_allocator`, `sys/page_allocator.hpp` `PageAllocator`
Kind: D -/
inductive Event where
  | alloc (k size nid : ℕ)
  | free (k p : ℕ)
  | run (k : ℕ)
  | allocPages (cpu order nid : ℕ)
  | freePages (cpu owner pfn order : ℕ)
  deriving DecidableEq, Repr

/-- `page_allocator->Alloc(order, nid)` on a CPU of node `cpu`.
Source: `sys/page_allocator.cpp` `PageAllocator::Alloc`
Kind: D -/
def allocPages (cpu order nid : ℕ) (t : NumaState) : Option (Option ℕ × NumaState) :=
  (PageState.alloc cpu order nid t.pages).map fun r =>
    (r.1, match r.1 with
      | none => ⟨r.2, t.held⟩
      | some pfn => ⟨r.2, Function.update t.held nid (⟨pfn, order⟩ :: t.held nid)⟩)

variable {ι : Type*}

/-- `AddSlab` writes the cache into the page structure of every object.
Source: `sys/slab_allocator.cpp` `SlabCache::AddSlab`
Kind: D -/
def claim (root : SlabAllocatorRoot) (i : ι) (pfn : ℕ) (cacheRoot : ℕ → Option ι) : ℕ → Option ι :=
  (root.objects pfn).foldl (fun f o => Function.update f (pfnDown o) (some i)) cacheRoot

/-- The node that a call asks for pages: the CPU's own, or that of the `SlabAllocatorNode`.
Source: `sys/slab_allocator.cpp` `SlabAllocator::Alloc`, `SlabAllocatorNode::Alloc`
Kind: D -/
def nodeAsked (topo : Slab.Topology) (k : ℕ) : Slab.CacheId → ℕ
  | .cpu _ => topo.nodeOf k
  | .node nid => nid

/-- Record what a step has handed out.
Source: `sys/general_purpose_allocator.hpp` `general_purpose_allocator::Alloc`
Kind: D -/
def grant (request : Option ℕ) (held held' : List ℕ) (live : List Region) : List Region :=
  match request, held' with
  | some size, o :: rest => if rest = held then ⟨o, size⟩ :: live else live
  | _, _ => live

/-- No frame of a call is left on the CPU.
Source: `sys/general_purpose_allocator.hpp` `general_purpose_allocator`
Kind: D -/
def Idle (s : State ι) (k : ℕ) : Prop := ∀ i, s.running k = some i → ((s.slabs i).cpus k).stack = []

/-- Clients free what they have, and a CPU makes one call at a time.
Source: `sys/general_purpose_allocator.hpp` `general_purpose_allocator`
Kind: D -/
def Legal (s : State ι) : Event → Prop
  | .alloc k _ _ => Idle s k
  | .free k p => Idle s k ∧ p ∈ s.live.map Region.addr
  | .run k => ¬ Idle s k
  | .allocPages _ order _ => order ≤ maxOrder
  | .freePages _ owner pfn order => (owner, ⟨pfn, order⟩) ∈ s.lent

instance (s : State ι) (k : ℕ) : Decidable (Idle s k) :=
  match h : s.running k with
  | none => isTrue fun i hi => by rw [h] at hi; cases hi
  | some i =>
      decidable_of_iff (((s.slabs i).cpus k).stack = [])
        ⟨fun hidle j hj => by rw [h] at hj; cases hj; exact hidle, fun hidle => hidle i h⟩

instance (s : State ι) : ∀ e, Decidable (Legal s e)
  | .alloc _ _ _ => inferInstanceAs (Decidable (Idle _ _))
  | .free _ _ => inferInstanceAs (Decidable (_ ∧ _))
  | .run _ => inferInstanceAs (Decidable (¬ _))
  | .allocPages _ _ _ => inferInstanceAs (Decidable (_ ≤ _))
  | .freePages _ _ _ _ => inferInstanceAs (Decidable (_ ∈ _))

variable [DecidableEq ι]

/-- The class is looked up, and its allocator on this CPU is called; `none` is the `kbugon`.
Source: `sys/general_purpose_allocator.hpp` `general_purpose_allocator::Alloc`
Kind: D -/
def alloc (C : Config ι) (k size nid : ℕ) (s : State ι) : Option (State ι) :=
  match C.index size with
  | none => none
  | some i =>
      (Slab.step (C.root i) C.topo (s.slabs i) (.call k (.alloc nid))).map fun t =>
        { s with
          slabs := Function.update s.slabs i t
          running := Function.update s.running k (some i)
          request := Function.update s.request k (some size) }

/-- The page structure leads to the class, and its allocator on this CPU is called; `none` is the `kassert`,
or a page that no cache was written to.
Source: `sys/general_purpose_allocator.hpp` `general_purpose_allocator::Free`
Kind: D -/
def free (C : Config ι) (k p : ℕ) (s : State ι) : Option (State ι) :=
  match s.pages.pages.pfnToPage (pfnDown p), s.cacheRoot (pfnDown p) with
  | some _, some i =>
      (Slab.step (C.root i) C.topo (s.slabs i) (.call k (.free p))).map fun t =>
        { s with
          slabs := Function.update s.slabs i t
          running := Function.update s.running k (some i)
          request := Function.update s.request k none
          live := s.live.filter fun r => r.addr ≠ p }
  | _, _ => none

/-- A CPU runs on in a call, with the page allocator under it; where that has nothing to give, the call ends
in the `kbugon` of `Alloc`.
Source: `sys/slab_allocator.cpp` `SlabAllocator::Alloc`, `SlabCache::FlushFreeList`
Kind: D -/
def run (C : Config ι) (k : ℕ) (s : State ι) : Option (State ι) :=
  match s.running k with
  | none => none
  | some i =>
      let root := C.root i
      let t := s.slabs i
      match (t.cpus k).stack with
      | .nullptr false :: _ =>
          let nid := nodeAsked C.topo k (t.cpus k).target
          match allocPages (C.topo.nodeOf k) root.order nid s.pages with
          | some (some pfn, pages) =>
              (Slab.step root C.topo t (.run k (some pfn))).map fun t' =>
                { s with
                  pages := pages
                  slabs := Function.update s.slabs i t'
                  cacheRoot := claim root i pfn s.cacheRoot
                  askedOf := Function.update s.askedOf pfn nid }
          | _ => none
      | .release pfn :: _ =>
          match numaStep s.pages (.free (C.topo.nodeOf k) (s.askedOf pfn) pfn root.order) with
          | none => none
          | some pages =>
              (Slab.step root C.topo t (.run k none)).map fun t' =>
                { s with pages := pages, slabs := Function.update s.slabs i t' }
      | _ =>
          (Slab.step root C.topo t (.run k none)).map fun t' =>
            { s with
              slabs := Function.update s.slabs i t'
              live := grant (s.request k) t.held t'.held s.live }

/-- Source: `sys/general_purpose_allocator.hpp` `general_purpose_allocator`, `sys/page_allocator.hpp` `PageAllocator`
Kind: D -/
def step (C : Config ι) (s : State ι) : Event → Option (State ι)
  | .alloc k size nid => alloc C k size nid s
  | .free k p => free C k p s
  | .run k => run C k s
  | .allocPages cpu order nid =>
      (allocPages cpu order nid s.pages).map fun r =>
        match r.1 with
        | none => { s with pages := r.2 }
        | some pfn => { s with pages := r.2, lent := (nid, ⟨pfn, order⟩) :: s.lent }
  | .freePages cpu owner pfn order =>
      (numaStep s.pages (.free cpu owner pfn order)).map fun pages =>
        { s with pages := pages, lent := s.lent.erase (owner, ⟨pfn, order⟩) }

/-- Source: `sys/general_purpose_allocator.hpp` `general_purpose_allocator`
Kind: D -/
def system (C : Config ι) : System (State ι) Event := ⟨Legal, step C⟩

instance (C : Config ι) (s : State ι) (e : Event) : Decidable ((system C).legal s e) :=
  inferInstanceAs (Decidable (Legal s e))

/-- Nothing is allocated; the page structures hold anything.
Source: `sys/general_purpose_allocator.hpp` `general_purpose_allocator::Init`
Kind: D -/
def State.init (t : NumaState) (boot : ι → ℕ → Slab.SlabData) : State ι where
  pages := t
  slabs i := Slab.State.init (boot i)
  cacheRoot _ := none
  askedOf _ := 0
  lent := []
  running _ := none
  request _ := none
  live := []

/-- The call of `page_allocator->Free` that an event is about to make.
Source: `sys/slab_allocator.cpp` `SlabCache::FlushFreeList`
Kind: D -/
def freed (C : Config ι) (s : State ι) : Event → Option PageState.NumaOp
  | .run k =>
      (s.running k).bind fun i =>
        match ((s.slabs i).cpus k).stack with
        | .release pfn :: _ => some (.free (C.topo.nodeOf k) (s.askedOf pfn) pfn (C.root i).order)
        | _ => none
  | .freePages cpu owner pfn order => some (.free cpu owner pfn order)
  | _ => none

/-- Pages are freed where `PageAllocator::Free` handles it; see `PageState.FreesAtHome`.
Source: `sys/page_allocator.cpp` `PageAllocator::Free`
Kind: D -/
def FreesAtHome (C : Config ι) (pages : ℕ → Set ℕ) (s : State ι) (e : Event) : Prop :=
  ∀ op ∈ freed C s e, PageState.FreesAtHome pages s.pages op

instance (C : Config ι) (pages : ℕ → Set ℕ) [∀ n, DecidablePred (· ∈ pages n)] (s : State ι) (e : Event) :
    Decidable (FreesAtHome C pages s e) :=
  inferInstanceAs (Decidable (∀ op ∈ freed C s e, PageState.FreesAtHome pages s.pages op))

/-! ## The size classes -/

open GeneralPurposeAllocator in
/-- The size classes of `gp_type`.
Source: `sys/general_purpose_allocator.hpp` `gp_type`, `general_purpose_allocator::construct`
Kind: D -/
def gpConfig (topo : Slab.Topology) : Config (Fin gpType.length) where
  root i := (SlabAllocatorRoot.construct (gpType.get i) 0).get <| by
    obtain ⟨root, hroot, -⟩ := exists_construct (gpType.get_mem i)
    rw [hroot]
    rfl
  index size := if h : indexer gpType 0 size < gpType.length then some ⟨indexer gpType 0 size, h⟩ else none
  topo := topo

end Heap

end EbbRT
