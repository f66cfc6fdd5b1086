import EbbRT.Lib.Places
import EbbRT.Lib.System
import EbbRT.Mem.SlabGeometry

/-!
# The slab allocator

One `SlabAllocatorRoot` with the allocators of all CPUs and nodes. Every CPU runs the functions of
the source one step at a time: a step ends where the code may meet another CPU, that is before a
section under a `remote_.lock`, before the node's `lock_`, at the read of `remote_check`, and at
every turn of a loop. The code between two such points touches only data that the running CPU
owns, so an object that a step takes out of one list it puts into another in the same step.

What is left of a call is a stack of frames, the innermost first. The page allocator hands out a
naturally aligned block that overlaps none of this root's, or nothing.

The allocators of all nodes are there. `get_node_allocator`, which creates them, is in `Mem.SlabNodeRace`,
and `Mem.SlabNodes` puts the two together.
-/

namespace EbbRT

namespace Slab

open EbbRT.Lib

/-! ## The state -/

/-- The two kinds of `SlabCache`: one in each `SlabAllocator`, one in each `SlabAllocatorNode`.
Source: `sys/slab_allocator.hpp` `SlabAllocator::cache_`, `SlabAllocatorNode::cache_`
Kind: D -/
inductive CacheId where
  | cpu (i : ℕ)
  | node (nid : ℕ)
  deriving DecidableEq, Repr

/-- The slab fields of a `page` structure.
Source: `sys/mem_map.hpp` `page::data::slab_data`
Kind: D -/
structure SlabData where
  list : List ℕ
  cache : CacheId
  used : ℕ

/-- Source: `sys/slab_allocator.hpp` `SlabCache`
Kind: D -/
structure SlabCache where
  objectList : List ℕ
  partialPageList : List ℕ
  /-- `remote_.list`. -/
  remote : List ℕ
  remoteCheck : Bool

/-- Where a call stands. `alloc` is `SlabCache::Alloc` at `retry:`, made by `SlabAllocator::Alloc`
or `SlabAllocatorNode::Alloc`, for the first time or for the second (after `AddSlab`); `nullptr`
is the caller after a null result. `drain` is the loop over `hiwater`, `flush` the loop of
`FlushFreeList`, `release` its call of `page_allocator->Free`, and `flushRemote` the last statement
of `FreeRemote`.
Source: `sys/slab_allocator.cpp` `SlabCache::Alloc`, `SlabCache::FlushFreeList`
Kind: D -/
inductive Frame where
  | lock
  | alloc (second : Bool)
  | nullptr (second : Bool)
  | claim
  | drain
  | flush (freed amount : ℕ)
  | release (pfn : ℕ)
  | flushRemote
  deriving DecidableEq, Repr

/-- A CPU's allocator (its `cache_` aside), and what the CPU is doing: the cache that the running
call works on, and the frames that are left of the call.
Source: `sys/slab_allocator.hpp` `SlabAllocator`
Kind: D -/
structure SlabAllocator where
  remoteList : List ℕ
  remoteCache : Option CacheId
  target : CacheId
  stack : List Frame

/-- The whole system: the page structures, the blocks that this root holds, the caches, the CPUs,
the holders of the node locks, and the objects that clients hold.
Source: `sys/slab_allocator.hpp` `SlabAllocatorRoot`
Kind: D -/
structure State where
  data : ℕ → SlabData
  blocks : List ℕ
  caches : CacheId → SlabCache
  cpus : ℕ → SlabAllocator
  locks : ℕ → Option ℕ
  held : List ℕ

/-- The node of each CPU and of each page.
Source: `sys/cpu.hpp` `get_nid`, `sys/mem_map.hpp` `page::nid`
Kind: D -/
structure Topology where
  nodeOf : ℕ → ℕ
  pageNid : ℕ → ℕ

/-- Before the first call; the page structures hold anything.
Source: `sys/slab_allocator.cpp` `SlabCache::SlabCache`, `SlabAllocator::SlabAllocator`
Kind: D -/
def State.init (boot : ℕ → SlabData) : State where
  data pfn := { boot pfn with list := [] }
  blocks := []
  caches _ := ⟨[], [], [], false⟩
  cpus k := ⟨[], none, .cpu k, []⟩
  locks _ := none
  held := []

namespace State

/-- Write one cache. Source: none: infrastructure. Kind: D -/
@[simps] def setCache (s : State) (c : CacheId) (v : SlabCache) : State :=
  { s with caches := Function.update s.caches c v }

/-- Write one CPU's allocator. Source: none: infrastructure. Kind: D -/
@[simps] def setCpu (s : State) (k : ℕ) (v : SlabAllocator) : State :=
  { s with cpus := Function.update s.cpus k v }

/-- Write one page structure. Source: none: infrastructure. Kind: D -/
@[simps] def setData (s : State) (pfn : ℕ) (v : SlabData) : State :=
  { s with data := Function.update s.data pfn v }

/-- Write the frames of a CPU. Source: none: infrastructure. Kind: D -/
@[simps!] def setStack (s : State) (k : ℕ) (frames : List Frame) : State :=
  s.setCpu k { s.cpus k with stack := frames }

/-- Call one more function. Source: none: infrastructure. Kind: D -/
@[simps!] def push (s : State) (k : ℕ) (frame : Frame) : State :=
  s.setStack k (frame :: (s.cpus k).stack)

/-- An object goes to the client. Source: none: infrastructure. Kind: D -/
@[simps] def give (s : State) (o : ℕ) : State := { s with held := o :: s.held }

/-- The client passes an object. Source: none: infrastructure. Kind: D -/
@[simps] def take (s : State) (o : ℕ) : State := { s with held := s.held.erase o }

end State

/-! ## The functions -/

variable (root : SlabAllocatorRoot) (k : ℕ)

/-- `list.swap(moved)` on an empty list, else `list.splice_after(list.begin(), moved)`.
Source: `sys/slab_allocator.cpp` `SlabAllocator::FlushRemoteList`
Kind: D -/
def spliceAfterBegin : List ℕ → List ℕ → List ℕ
  | [], moved => moved
  | o :: os, moved => o :: (moved ++ os)

/-- `list.swap(moved)` on an empty list, else `list.splice_after(list.end(), moved)`: on the
circular list `end()` is the root, so what is moved comes first.
Source: `sys/slab_allocator.cpp` `SlabCache::ClaimRemoteFreeList`
Kind: D -/
def spliceAfterEnd : List ℕ → List ℕ → List ℕ
  | [], moved => moved
  | o :: os, moved => moved ++ o :: os

/-- The section of `FlushRemoteList` under the lock; crossing the watermark marks the cache.
Source: `sys/slab_allocator.cpp` `SlabAllocator::FlushRemoteList`
Kind: D -/
@[simps] def SlabCache.receive (cache : SlabCache) (moved : List ℕ) : SlabCache where
  objectList := cache.objectList
  partialPageList := cache.partialPageList
  remote := spliceAfterBegin cache.remote moved
  remoteCheck :=
    if cache.remote.length < root.freeBatch ∧
        (spliceAfterBegin cache.remote moved).length ≥ root.freeBatch then true
    else cache.remoteCheck

/-- Source: `sys/slab_allocator.cpp` `SlabAllocator::FlushRemoteList`
Kind: D -/
def flushRemoteList (s : State) : State :=
  match (s.cpus k).remoteCache with
  | none => s
  | some c =>
      (s.setCache c ((s.caches c).receive root (s.cpus k).remoteList)).setCpu k
        { s.cpus k with remoteList := [] }

/-- The head of `FreeRemote`: on a change of cache, the list is flushed to the old one.
Source: `sys/slab_allocator.cpp` `SlabAllocator::FreeRemote`
Kind: D -/
def turnTo (c : CacheId) (s : State) : State :=
  if (s.cpus k).remoteCache ≠ some c then
    let s := flushRemoteList root k s
    s.setCpu k { s.cpus k with remoteCache := some c }
  else s

/-- Source: `sys/slab_allocator.cpp` `SlabAllocator::FreeRemote`
Kind: D -/
def freeRemote (p : ℕ) (s : State) : State :=
  let s := turnTo root k (s.data (pfnDown p)).cache s
  let list := p :: (s.cpus k).remoteList
  let s := s.setCpu k { s.cpus k with remoteList := list }
  if list.length > root.freeBatch then s.push k .flushRemote else s

/-- Source: `sys/slab_allocator.cpp` `SlabCache::ClaimRemoteFreeList`
Kind: D -/
def claimRemoteFreeList (c : CacheId) (s : State) : State :=
  s.setCache c
    { s.caches c with
      objectList := spliceAfterEnd (s.caches c).objectList (s.caches c).remote
      remote := [] }

/-- Source: `sys/slab_allocator.cpp` `SlabCache::Free`
Kind: D -/
def cacheFree (c : CacheId) (p : ℕ) (s : State) : State :=
  let list := p :: (s.caches c).objectList
  let s := s.setCache c { s.caches c with objectList := list }
  if list.length > root.hiwater then s.push k (.flush 0 root.freeBatch) else s

/-- One turn of the loop of `AddSlab`.
Source: `sys/slab_allocator.cpp` `SlabCache::AddSlab`
Kind: D -/
def addObject (c : CacheId) (pfn : ℕ) (data : ℕ → SlabData) (o : ℕ) : ℕ → SlabData :=
  let data := Function.update data pfn { data pfn with list := o :: (data pfn).list }
  Function.update data (pfnDown o) { data (pfnDown o) with cache := c }

/-- Source: `sys/slab_allocator.cpp` `SlabCache::AddSlab`
Kind: D -/
def addSlab (c : CacheId) (pfn : ℕ) (s : State) : State :=
  let data := Function.update s.data pfn { s.data pfn with list := [], used := 0 }
  let s := { s with data := (root.objects pfn).foldl (addObject c pfn) data }
  s.setCache c { s.caches c with partialPageList := pfn :: (s.caches c).partialPageList }

/-- The body of the loop of `FlushFreeList`, for the object that was popped, up to the call of
`page_allocator->Free`.
Source: `sys/slab_allocator.cpp` `SlabCache::FlushFreeList`
Kind: D -/
def flushObject (c : CacheId) (o : ℕ) (s : State) : State :=
  let pfn := addrToSlabPfn o root.order
  if (s.data pfn).cache ≠ c then freeRemote root k o s
  else
    let used := wsub (s.data pfn).used 1
    let s := s.setData pfn { s.data pfn with list := o :: (s.data pfn).list, used := used }
    if used = 0 then
      let s :=
        if root.numObjectsPerSlab > 1 then
          s.setCache c
            { s.caches c with partialPageList := (s.caches c).partialPageList.erase pfn }
        else s
      s.push k (.release pfn)
    else if used + 1 = root.numObjectsPerSlab then
      s.setCache c { s.caches c with partialPageList := pfn :: (s.caches c).partialPageList }
    else s

/-- `member_hook.destruct`, `list.destruct` (which unlinks the objects) and the call of
`page_allocator->Free`.
Source: `sys/slab_allocator.cpp` `SlabCache::FlushFreeList`
Kind: D -/
def release (pfn : ℕ) (s : State) : State :=
  { s.setData pfn { s.data pfn with list := [] } with blocks := s.blocks.erase pfn }

/-- The call returns to the client; `lock_guard` gives the node's lock back.
Source: `sys/slab_allocator.cpp` `SlabAllocatorNode::Alloc`
Kind: D -/
def finish (s : State) : State :=
  let s' := s.setStack k []
  match (s.cpus k).target with
  | .cpu _ => s'
  | .node nid => { s' with locks := Function.update s'.locks nid none }

/-- The last part of `SlabCache::Alloc`: an object of a partial page, or null.
Source: `sys/slab_allocator.cpp` `SlabCache::Alloc`
Kind: D -/
def allocPartial (second : Bool) (c : CacheId) (frames : List Frame) (s : State) : Option State :=
  match (s.caches c).partialPageList with
  | [] => some (s.setStack k (.nullptr second :: frames))
  | pfn :: pages =>
      let d := s.data pfn
      if d.used < root.numObjectsPerSlab then
        let s :=
          if d.used + 1 = root.numObjectsPerSlab then
            s.setCache c { s.caches c with partialPageList := pages }
          else s
        match d.list with
        | [] => none
        | o :: list =>
            some (finish k ((s.setData pfn { d with list := list, used := d.used + 1 }).give o))
      else none

/-! ## The steps -/

/-- One step of a frame. `page` is what the page allocator returns if the step calls it.
Source: `sys/slab_allocator.cpp` `SlabCache::Alloc`, `SlabCache::FlushFreeList`
Kind: D -/
def runFrame (page : Option ℕ) (s : State) (frames : List Frame) : Frame → Option State
  | .lock =>
      match (s.cpus k).target with
      | .cpu _ => none
      | .node nid =>
          if s.locks nid = none then
            some { s.setStack k (.alloc false :: frames) with
              locks := Function.update s.locks nid (some k) }
          else some s
  | .alloc second =>
      let c := (s.cpus k).target
      match (s.caches c).objectList with
      | o :: list => some (finish k ((s.setCache c { s.caches c with objectList := list }).give o))
      | [] =>
          if (s.caches c).remoteCheck then
            some (s.setStack k (.claim :: .drain :: .alloc second :: frames))
          else allocPartial root k second c frames s
  | .nullptr second =>
      if second then none
      else
        match page with
        | none => some (finish k s)
        | some pfn =>
            some (addSlab root (s.cpus k).target pfn
              { s.setStack k (.alloc true :: frames) with blocks := pfn :: s.blocks })
  | .claim => some (claimRemoteFreeList (s.cpus k).target (s.setStack k frames))
  | .drain =>
      if (s.caches (s.cpus k).target).objectList.length > root.hiwater then
        some (s.setStack k (.flush 0 root.freeBatch :: .drain :: frames))
      else some (s.setStack k frames)
  | .flush freed amount =>
      let c := (s.cpus k).target
      match (s.caches c).objectList with
      | [] => some (s.setStack k frames)
      | o :: list =>
          if freed < amount then
            some (flushObject root k c o
              ((s.setStack k (.flush (freed + 1) amount :: frames)).setCache c
                { s.caches c with objectList := list }))
          else some (s.setStack k frames)
  | .release pfn => some (release pfn (s.setStack k frames))
  | .flushRemote => some (flushRemoteList root k (s.setStack k frames))

/-- What a client may call on its CPU.
Source: `sys/slab_allocator.hpp` `SlabAllocator`
Kind: D -/
inductive Op where
  | alloc (nid : ℕ)
  | free (p : ℕ)
  | freeRemote (p : ℕ)
  | flushFreeList (amount : ℕ)
  | flushRemoteList
  | claimRemoteFreeList
  deriving DecidableEq, Repr

/-- Begin a call; the functions other than `Alloc` run up to their first loop or lock.
Source: `sys/slab_allocator.cpp` `SlabAllocator::Alloc`, `SlabAllocator::Free`
Kind: D
Fidelity: `Alloc` of another node's memory begins where `get_node_allocator` has returned; see
`SlabNodes.start`. -/
def start (topo : Topology) (s : State) : Op → State
  | .alloc nid =>
      if nid = topo.nodeOf k then
        s.setCpu k { s.cpus k with target := .cpu k, stack := [.alloc false] }
      else s.setCpu k { s.cpus k with target := .node nid, stack := [.lock] }
  | .free p =>
      let s := (s.setCpu k { s.cpus k with target := .cpu k }).take p
      if topo.pageNid (pfnDown p) = topo.nodeOf k then cacheFree root k (.cpu k) p s
      else freeRemote root k p s
  | .freeRemote p => freeRemote root k p ((s.setCpu k { s.cpus k with target := .cpu k }).take p)
  | .flushFreeList amount =>
      s.setCpu k { s.cpus k with target := .cpu k, stack := [.flush 0 amount] }
  | .flushRemoteList => s.setCpu k { s.cpus k with target := .cpu k, stack := [.flushRemote] }
  | .claimRemoteFreeList => s.setCpu k { s.cpus k with target := .cpu k, stack := [.claim] }

/-- A step of the system: a client calls, or a CPU runs on.
Source: `sys/slab_allocator.cpp` `SlabAllocator`
Kind: D -/
inductive Step where
  | call (k : ℕ) (op : Op)
  | run (k : ℕ) (page : Option ℕ)
  deriving DecidableEq, Repr

/-- Clients free only what they hold.
Source: `sys/slab_allocator.cpp` `SlabAllocator::Free`
Kind: D -/
def OpLegal (s : State) : Op → Prop
  | .free p => p ∈ s.held
  | .freeRemote p => p ∈ s.held
  | _ => True

/-- The page allocator returns nothing, or a block that overlaps none of the root's. It never returns page 0
(`PageState.alloc_ne_zero`), so no object is at address 0, which `Alloc` would take for the null pointer.
Source: `sys/page_allocator.cpp` `PageAllocator::Alloc`, `PageAllocator::AllocLocal`
Kind: D
Fidelity: `PageAllocator::Alloc` is any function that gives such a block; `Mem.Heap` puts the real one
there -/
def PageLegal (s : State) : Option ℕ → Prop
  | none => True
  | some pfn =>
      IsBlock root.order pfn ∧
        (∀ b ∈ s.blocks, pfn + 2 ^ root.order ≤ b ∨ b + 2 ^ root.order ≤ pfn) ∧ pfn ≠ 0

/-- A CPU makes one call at a time.
Source: `sys/slab_allocator.cpp` `SlabAllocator`
Kind: D -/
def Legal (s : State) : Step → Prop
  | .call k op => (s.cpus k).stack = [] ∧ OpLegal s op
  | .run k page => (s.cpus k).stack ≠ [] ∧ PageLegal root s page

/-- Source: `sys/slab_allocator.cpp` `SlabAllocator`
Kind: D -/
def step (topo : Topology) (s : State) : Step → Option State
  | .call k op => some (start root k topo s op)
  | .run k page =>
      match (s.cpus k).stack with
      | [] => none
      | frame :: frames => runFrame root k page s frames frame

/-- The clients, the CPUs and the page allocator around one root.
Source: `sys/slab_allocator.cpp` `SlabAllocator`
Kind: D
Fidelity: the allocators of all nodes are there; see `SlabNodes.system`. -/
def slabSystem (topo : Topology) : System State Step := ⟨Legal root, step root topo⟩

instance (s : State) (op : Op) : Decidable (OpLegal s op) := by
  cases op <;> unfold OpLegal <;> infer_instance

instance (s : State) (page : Option ℕ) : Decidable (PageLegal root s page) := by
  cases page <;> unfold PageLegal <;> infer_instance

instance (s : State) : ∀ a : Step, Decidable (Legal root s a)
  | .call _ _ => inferInstanceAs (Decidable (_ ∧ _))
  | .run _ _ => inferInstanceAs (Decidable (_ ∧ _))

instance (topo : Topology) (s : State) (a : Step) : Decidable ((slabSystem root topo).legal s a) :=
  inferInstanceAs (Decidable (Legal root s a))

/-! ## The five kinds of places -/

/-- Where an object may be.
Source: `sys/slab_allocator.hpp` `SlabCache`, `SlabAllocator`
Kind: D -/
inductive Place where
  | held
  | objectList (c : CacheId)
  | remoteList (k : ℕ)
  | remote (c : CacheId)
  | page (pfn : ℕ)
  deriving DecidableEq, Repr

/-- The objects in a place.
Source: `sys/slab_allocator.hpp` `SlabCache`, `SlabAllocator`
Kind: D -/
def State.contents (s : State) : Place → List ℕ
  | .held => s.held
  | .objectList c => (s.caches c).objectList
  | .remoteList k => (s.cpus k).remoteList
  | .remote c => (s.caches c).remote
  | .page pfn => (s.data pfn).list

end Slab

end EbbRT
