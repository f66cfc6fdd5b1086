import EbbRT.Mem.HeapTenancy

/-!
# The heap over whole runs

`Ledger` says what the clients have and of which class. `Inv` puts it beside `Tenancy` and the invariant of
every slab allocator, and `Inv.step` is one lemma for each thing that can happen. `heap_sound`: as
long as pages are freed where `PageAllocator::Free` handles it, live allocations never overlap, are as
large as was asked, have no page that is free or in other hands, and `Free` finds the class that
an object is of.
-/

namespace EbbRT

open EbbRT.Lib

namespace Heap

open PageState (NumaState numaStep nodePages Layout)

/-! ## What the clients have -/

variable {ι : Type*} {C : Config ι} {pages : ℕ → Set ℕ} {slabs : ι → Slab.State} {running : ℕ → Option ι}
  {request : ℕ → Option ℕ} {live : List Region} {i j : ι} {k size p o b : ℕ} {u : Slab.State}

/-- Live allocations are objects of the class that their size asks for, and a CPU runs the code of one class
at a time, for a size of that class.
Source: none: infrastructure
Kind: D -/
structure Ledger (C : Config ι) (slabs : ι → Slab.State) (running : ℕ → Option ι) (request : ℕ → Option ℕ)
    (live : List Region) : Prop where
  served : ∀ r ∈ live, ∃ i, C.index r.size = some i ∧ r.addr ∈ (slabs i).held
  once : (live.map Region.addr).Nodup
  onlyOne : ∀ k i, ((slabs i).cpus k).stack ≠ [] → running k = some i
  asked : ∀ k i size, running k = some i → request k = some size → C.index size = some i

/-- Nothing handed out.
Source: `sys/general_purpose_allocator.hpp` `general_purpose_allocator::Alloc`
Kind: L -/
theorem grant_same (held : List ℕ) : grant (request k) held held live = live := by
  cases request k with
  | none => rfl
  | some size =>
      cases held with
      | nil => rfl
      | cons o rest =>
          apply if_neg
          intro hrest
          exact List.cons_ne_self o rest hrest.symm

/-- An object handed out.
Source: `sys/general_purpose_allocator.hpp` `general_purpose_allocator::Alloc`
Kind: L -/
theorem grant_cons (held : List ℕ) (hrequest : request k = some size) :
    grant (request k) held (o :: held) live = ⟨o, size⟩ :: live := by
  simp [grant, hrequest]

namespace Ledger

/-- Nothing of any class runs on an idle CPU. Source: none: infrastructure. Kind: L -/
theorem stack_eq_nil (h : Ledger C slabs running request live)
    (hidle : ∀ i, running k = some i → ((slabs i).cpus k).stack = []) (i : ι) :
    ((slabs i).cpus k).stack = [] := by
  by_contra hne
  exact hne (hidle i (h.onlyOne k i hne))

variable [DecidableEq ι]

/-- A CPU runs the code of one class: what it starts is of the class that it now runs.
Source: none: infrastructure
Kind: L -/
theorem onlyOne_update (h : Ledger C slabs running request live)
    (hcpus : ∀ k', k' ≠ k → u.cpus k' = (slabs i).cpus k')
    (hother : ∀ j, j ≠ i → ((slabs j).cpus k).stack = []) (k' : ℕ) (j : ι)
    (hstack : ((Function.update slabs i u j).cpus k').stack ≠ []) :
    Function.update running k (some i) k' = some j := by
  by_cases hk : k' = k
  · subst hk
    rw [Function.update_self]
    by_contra hne
    have hji : j ≠ i := fun hji => hne (congrArg some hji.symm)
    rw [Function.update_of_ne hji] at hstack
    exact hstack (hother j hji)
  · rw [Function.update_of_ne hk]
    by_cases hji : j = i
    · subst hji
      rw [Function.update_self, hcpus k' hk] at hstack
      exact h.onlyOne k' j hstack
    · rw [Function.update_of_ne hji] at hstack
      exact h.onlyOne k' j hstack

/-- What runs on a CPU runs there alone. Source: none: infrastructure. Kind: L -/
theorem onlyOne_run (h : Ledger C slabs running request live) (hrun : running k = some i)
    (hcpus : ∀ k', k' ≠ k → u.cpus k' = (slabs i).cpus k') (k' : ℕ) (j : ι)
    (hstack : ((Function.update slabs i u j).cpus k').stack ≠ []) : running k' = some j := by
  have hother : ∀ j, j ≠ i → ((slabs j).cpus k).stack = [] := by
    intro j hji
    by_contra hne
    have hj := h.onlyOne k j hne
    rw [hrun] at hj
    exact hji (Option.some.inj hj).symm
  have hupdate := h.onlyOne_update hcpus hother k' j hstack
  rwa [← hrun, Function.update_eq_self] at hupdate

/-- Objects that a class keeps with its clients. Source: none: infrastructure. Kind: L -/
theorem served_update (h : Ledger C slabs running request live)
    (hheld : ∀ r ∈ live, r.addr ∈ (slabs i).held → r.addr ∈ u.held) (r : Region) (hr : r ∈ live) :
    ∃ j, C.index r.size = some j ∧ r.addr ∈ (Function.update slabs i u j).held := by
  obtain ⟨j, hindex, hmem⟩ := h.served r hr
  refine ⟨j, hindex, ?_⟩
  by_cases hji : j = i
  · subst hji
    rw [Function.update_self]
    exact hheld r hr hmem
  · rwa [Function.update_of_ne hji]

/-- **A CPU runs on** and nothing changes hands.
Source: `sys/slab_allocator.cpp` `SlabCache::Alloc`
Kind: P -/
theorem run (h : Ledger C slabs running request live) (hrun : running k = some i)
    (hheld : u.held = (slabs i).held) (hcpus : ∀ k', k' ≠ k → u.cpus k' = (slabs i).cpus k') :
    Ledger C (Function.update slabs i u) running request live where
  served := by
    apply h.served_update
    intro r _ hmem
    rwa [hheld]
  once := h.once
  onlyOne := h.onlyOne_run hrun hcpus
  asked := h.asked

/-- **A call of `Alloc` begins.**
Source: `sys/general_purpose_allocator.hpp` `general_purpose_allocator::Alloc`
Kind: P -/
theorem callAlloc (h : Ledger C slabs running request live)
    (hidle : ∀ i, running k = some i → ((slabs i).cpus k).stack = []) (hindex : C.index size = some i)
    (hkept : Slab.Kept k (slabs i) u) :
    Ledger C (Function.update slabs i u) (Function.update running k (some i))
      (Function.update request k (some size)) live where
  served := by
    apply h.served_update
    intro r _ hmem
    rwa [hkept.held]
  once := h.once
  onlyOne := by
    apply h.onlyOne_update hkept.cpus
    intro j _
    exact h.stack_eq_nil hidle j
  asked k' j size' hrun hrequest := by
    by_cases hk : k' = k
    · subst hk
      rw [Function.update_self] at hrun hrequest
      cases hrun
      cases hrequest
      exact hindex
    · rw [Function.update_of_ne hk] at hrun hrequest
      exact h.asked k' j size' hrun hrequest

/-- **A call of `Free` begins**: the allocation is no longer live.
Source: `sys/general_purpose_allocator.hpp` `general_purpose_allocator::Free`
Kind: P -/
theorem callFree (h : Ledger C slabs running request live)
    (hidle : ∀ i, running k = some i → ((slabs i).cpus k).stack = [])
    (hkept : Slab.Kept k ((slabs i).take p) u) :
    Ledger C (Function.update slabs i u) (Function.update running k (some i))
      (Function.update request k none) (live.filter fun r => r.addr ≠ p) where
  served r hr := by
    obtain ⟨hr, hne⟩ := List.mem_filter.mp hr
    have hne : r.addr ≠ p := of_decide_eq_true hne
    obtain ⟨j, hindex, hmem⟩ := h.served r hr
    refine ⟨j, hindex, ?_⟩
    by_cases hji : j = i
    · subst hji
      rw [Function.update_self, hkept.held, Slab.State.take_held]
      exact (List.mem_erase_of_ne hne).mpr hmem
    · rwa [Function.update_of_ne hji]
  once := h.once.sublist (List.filter_sublist.map Region.addr)
  onlyOne := by
    apply h.onlyOne_update hkept.cpus
    intro j _
    exact h.stack_eq_nil hidle j
  asked k' j size hrun hrequest := by
    by_cases hk : k' = k
    · subst hk
      rw [Function.update_self] at hrequest
      cases hrequest
    · rw [Function.update_of_ne hk] at hrun hrequest
      exact h.asked k' j size hrun hrequest

/-- **An object is handed out**, with the size that was asked for.
Source: `sys/general_purpose_allocator.hpp` `general_purpose_allocator::Alloc`
Kind: P -/
theorem give (h : Ledger C slabs running request live) (hrun : running k = some i)
    (hheld : u.held = o :: (slabs i).held) (hcpus : ∀ k', k' ≠ k → u.cpus k' = (slabs i).cpus k')
    (hnew : o ∉ live.map Region.addr) :
    Ledger C (Function.update slabs i u) running request
      (grant (request k) (slabs i).held (o :: (slabs i).held) live) := by
  have hserved : ∀ r ∈ live, ∃ j, C.index r.size = some j ∧ r.addr ∈ (Function.update slabs i u j).held := by
    apply h.served_update
    intro r _ hmem
    rw [hheld]
    exact List.mem_cons_of_mem o hmem
  cases hrequest : request k with
  | none => exact ⟨hserved, h.once, h.onlyOne_run hrun hcpus, h.asked⟩
  | some size =>
      rw [← hrequest, grant_cons _ hrequest]
      refine ⟨?_, ?_, h.onlyOne_run hrun hcpus, h.asked⟩
      · intro r hr
        rcases List.mem_cons.mp hr with rfl | hr
        · refine ⟨i, h.asked k i size hrun hrequest, ?_⟩
          rw [Function.update_self, hheld]
          exact List.mem_cons_self
        · exact hserved r hr
      · rw [List.map_cons]
        exact List.nodup_cons.mpr ⟨hnew, h.once⟩

/-- **A CPU runs on** and the page allocator is not called.
Source: `sys/slab_allocator.cpp` `SlabCache::Alloc`, `SlabCache::FlushFreeList`
Kind: P -/
theorem outward (h : Ledger C slabs running request live) (hrun : running k = some i)
    (hout : Slab.Outward k (slabs i) u)
    (hnew : ∀ o, u.held = o :: (slabs i).held → o ∉ live.map Region.addr) :
    Ledger C (Function.update slabs i u) running request
      (grant (request k) (slabs i).held u.held live) := by
  cases hout with
  | kept hkept =>
      rw [hkept.held, grant_same]
      exact h.run hrun hkept.held hkept.cpus
  | gave o hblocks hheld hcpus =>
      rw [hheld]
      exact h.give hrun hheld hcpus (hnew o hheld)

end Ledger

/-! ## The invariant -/

/-- Blocks, objects and allocations are each where they should be.
Source: none: infrastructure
Kind: D -/
structure Inv (C : Config ι) (pages : ℕ → Set ℕ) (s : State ι) : Prop where
  tenancy : Tenancy C pages s.pages (fun i => (s.slabs i).blocks) s.cacheRoot s.askedOf s.lent
  good : ∀ i, Slab.Good (C.root i) (s.slabs i)
  ledger : Ledger C s.slabs s.running s.request s.live

variable {s s' : State ι}

/-- **`Free` finds the class**: the page structure of an object that clients hold names it.
Source: `sys/general_purpose_allocator.hpp` `general_purpose_allocator::Free`
Kind: L -/
theorem cacheRoot_of_held {t : NumaState} {blocks : ι → List ℕ} {cacheRoot : ℕ → Option ι} {askedOf : ℕ → ℕ}
    {lent : List (ℕ × Block)} (h : Tenancy C pages t blocks cacheRoot askedOf lent)
    (hgood : Slab.Good (C.root i) u) (hblocks : u.blocks = blocks i) (ho : o ∈ u.held) :
    cacheRoot (pfnDown o) = some i := by
  obtain ⟨hb, hob⟩ := hgood.inv.slab_of_mem (p := some .held) ho
  rw [hblocks] at hb
  exact h.written i _ hb o hob

/-- An object that is handed out is no live allocation.
Source: `sys/slab_allocator.cpp` `SlabCache::Alloc`
Kind: L -/
theorem Inv.not_mem_live (h : Inv C pages s) (hgood : Slab.Good (C.root i) u)
    (hblocks : u.blocks = (s.slabs i).blocks) (hheld : u.held = o :: (s.slabs i).held) :
    o ∉ s.live.map Region.addr := by
  intro hlive
  obtain ⟨r, hr, rfl⟩ := List.mem_map.mp hlive
  obtain ⟨j, -, hj⟩ := h.ledger.served r hr
  have hclass : s.cacheRoot (pfnDown r.addr) = some i := by
    apply cacheRoot_of_held h.tenancy hgood hblocks
    rw [hheld]
    exact List.mem_cons_self
  have hclass' : s.cacheRoot (pfnDown r.addr) = some j := cacheRoot_of_held h.tenancy (h.good j) rfl hj
  rw [hclass] at hclass'
  cases hclass'
  have hnodup : u.held.Nodup := hgood.inv.objects.nodup (some .held)
  rw [hheld] at hnodup
  exact (List.nodup_cons.mp hnodup).1 hj

section Steps

variable [DecidableEq ι]

/-- The blocks after one class has changed. Source: none: infrastructure. Kind: L -/
theorem blocks_update (slabs : ι → Slab.State) (i : ι) (u : Slab.State) :
    (fun j => (Function.update slabs i u j).blocks) = Function.update (fun j => (slabs j).blocks) i u.blocks := by
  funext j
  by_cases hji : j = i
  · subst hji
    rw [Function.update_self, Function.update_self]
  · rw [Function.update_of_ne hji, Function.update_of_ne hji]

/-- Nothing changes for the other classes. Source: none: infrastructure. Kind: L -/
theorem Inv.good_update (h : Inv C pages s) (hgood : Slab.Good (C.root i) u) (j : ι) :
    Slab.Good (C.root j) (Function.update s.slabs i u j) := by
  by_cases hji : j = i
  · subst hji
    rwa [Function.update_self]
  · rw [Function.update_of_ne hji]
    exact h.good j

/-- The blocks stay where they are. Source: none: infrastructure. Kind: L -/
theorem Inv.tenancy_update (h : Inv C pages s) (hblocks : u.blocks = (s.slabs i).blocks) :
    Tenancy C pages s.pages (fun j => (Function.update s.slabs i u j).blocks) s.cacheRoot s.askedOf s.lent := by
  rw [blocks_update, hblocks, Function.update_eq_self i fun j => (s.slabs j).blocks]
  exact h.tenancy

/-- **`Alloc` begins.**
Source: `sys/general_purpose_allocator.hpp` `general_purpose_allocator::Alloc`
Kind: P -/
theorem Inv.alloc {nid : ℕ} (h : Inv C pages s) (hidle : Idle s k) (hstep : alloc C k size nid s = some s') :
    Inv C pages s' := by
  unfold Heap.alloc at hstep
  split at hstep
  · cases hstep
  · rename_i i hindex
    obtain ⟨u, hu, rfl⟩ := Option.map_eq_some_iff.mp hstep
    cases hu
    have hkept : Slab.Kept k (s.slabs i) (Slab.start (C.root i) k C.topo (s.slabs i) (.alloc nid)) :=
      Slab.kept_start_alloc nid
    refine ⟨h.tenancy_update hkept.blocks, h.good_update ?_, h.ledger.callAlloc hidle hindex hkept⟩
    exact (h.good i).start (h.ledger.stack_eq_nil hidle i) trivial

/-- **`Free` begins**, of the class that the object is of.
Source: `sys/general_purpose_allocator.hpp` `general_purpose_allocator::Free`
Kind: P -/
theorem Inv.free (h : Inv C pages s) (hidle : Idle s k) (hp : p ∈ s.live.map Region.addr)
    (hstep : free C k p s = some s') : Inv C pages s' := by
  obtain ⟨r, hr, rfl⟩ := List.mem_map.mp hp
  obtain ⟨i, -, hheld⟩ := h.ledger.served r hr
  have hclass : s.cacheRoot (pfnDown r.addr) = some i := cacheRoot_of_held h.tenancy (h.good i) rfl hheld
  unfold Heap.free at hstep
  rw [hclass] at hstep
  split at hstep
  · rename_i page j hpage hj
    cases hj
    obtain ⟨u, hu, rfl⟩ := Option.map_eq_some_iff.mp hstep
    cases hu
    have hkept : Slab.Kept k ((s.slabs i).take r.addr)
        (Slab.start (C.root i) k C.topo (s.slabs i) (.free r.addr)) := Slab.kept_start_free r.addr
    refine ⟨h.tenancy_update hkept.blocks, h.good_update ?_, h.ledger.callFree hidle hkept⟩
    exact (h.good i).start (h.ledger.stack_eq_nil hidle i) hheld
  · cases hstep

/-- **What a CPU that runs on does**: a class takes a block, or gives one back, or the page allocator is
not called.
Source: `sys/slab_allocator.cpp` `SlabAllocator::Alloc`, `SlabCache::FlushFreeList`
Kind: D -/
inductive Running (C : Config ι) (k : ℕ) (s : State ι) (i : ι) : State ι → Prop
  | took (frames : List Slab.Frame) (pfn : ℕ) (t : NumaState) (u : Slab.State)
      (hstack : ((s.slabs i).cpus k).stack = .nullptr false :: frames)
      (halloc : allocPages (C.topo.nodeOf k) (C.root i).order
        (nodeAsked C.topo k ((s.slabs i).cpus k).target) s.pages = some (some pfn, t))
      (hslab : Slab.step (C.root i) C.topo (s.slabs i) (.run k (some pfn)) = some u) :
      Running C k s i
        { s with
          pages := t
          slabs := Function.update s.slabs i u
          cacheRoot := claim (C.root i) i pfn s.cacheRoot
          askedOf := Function.update s.askedOf pfn (nodeAsked C.topo k ((s.slabs i).cpus k).target) }
  | released (frames : List Slab.Frame) (pfn : ℕ) (t : NumaState) (u : Slab.State)
      (hstack : ((s.slabs i).cpus k).stack = .release pfn :: frames)
      (hfree : numaStep s.pages (.free (C.topo.nodeOf k) (s.askedOf pfn) pfn (C.root i).order) = some t)
      (hslab : Slab.step (C.root i) C.topo (s.slabs i) (.run k none) = some u) :
      Running C k s i { s with pages := t, slabs := Function.update s.slabs i u }
  | ran (u : Slab.State) (hnullptr : ∀ frames, ((s.slabs i).cpus k).stack ≠ .nullptr false :: frames)
      (hrelease : ∀ pfn frames, ((s.slabs i).cpus k).stack ≠ .release pfn :: frames)
      (hslab : Slab.step (C.root i) C.topo (s.slabs i) (.run k none) = some u) :
      Running C k s i
        { s with
          slabs := Function.update s.slabs i u
          live := grant (s.request k) (s.slabs i).held u.held s.live }

/-- Source: `sys/slab_allocator.cpp` `SlabAllocator::Alloc`, `SlabCache::FlushFreeList`. Kind: L -/
theorem running_of_run (hstep : Heap.run C k s = some s') : ∃ i, s.running k = some i ∧ Running C k s i s' := by
  unfold Heap.run at hstep
  split at hstep
  · cases hstep
  · rename_i i hrunning
    refine ⟨i, hrunning, ?_⟩
    dsimp only at hstep
    split at hstep
    · rename_i frames hstack
      split at hstep
      · rename_i pfn t halloc
        obtain ⟨u, hu, rfl⟩ := Option.map_eq_some_iff.mp hstep
        exact Running.took frames pfn t u hstack halloc hu
      · cases hstep
    · rename_i pfn frames hstack
      split at hstep
      · cases hstep
      · rename_i t hfree
        obtain ⟨u, hu, rfl⟩ := Option.map_eq_some_iff.mp hstep
        exact Running.released frames pfn t u hstack hfree hu
    · rename_i hnullptr hrelease
      obtain ⟨u, hu, rfl⟩ := Option.map_eq_some_iff.mp hstep
      exact Running.ran u hnullptr hrelease hu

/-- A CPU that runs on keeps its slab allocator in order.
Source: `sys/slab_allocator.cpp` `SlabCache::Alloc`
Kind: L -/
theorem good_run {root : SlabAllocatorRoot} {topo : Slab.Topology} {page : Option ℕ} {u v : Slab.State}
    (h : Slab.Good root u) (hpage : Slab.PageLegal root u page)
    (hslab : Slab.step root topo u (.run k page) = some v) : Slab.Good root v := by
  obtain ⟨frame, frames, hstack, hran⟩ := Slab.ran_of_step hslab
  exact h.run hpage hstack hran

/-- **A class takes a block.** Source: `sys/slab_allocator.cpp` `SlabAllocator::Alloc`. Kind: P -/
theorem Inv.took {t : NumaState} {pfn nid : ℕ} {frames : List Slab.Frame} (h : Inv C pages s)
    (hphys : ∀ n, ∀ p ∈ pages n, p < maxPhysPfn) (hzero : ∀ n, 0 ∉ pages n) (hrunning : s.running k = some i)
    (hstack : ((s.slabs i).cpus k).stack = .nullptr false :: frames)
    (halloc : allocPages (C.topo.nodeOf k) (C.root i).order nid s.pages = some (some pfn, t))
    (hslab : Slab.step (C.root i) C.topo (s.slabs i) (.run k (some pfn)) = some u) :
    Inv C pages
      { s with
        pages := t
        slabs := Function.update s.slabs i u
        cacheRoot := claim (C.root i) i pfn s.cacheRoot
        askedOf := Function.update s.askedOf pfn nid } := by
  obtain ⟨page, t', halloc', hinv, hcases⟩ := allocPages_spec (C.topo.nodeOf k) nid h.tenancy.inv hzero
    (C.root i).order_bounds.2
  have hne := allocPages_ne_zero halloc
  rw [halloc] at halloc'
  cases halloc'
  obtain ⟨hnone, -⟩ | ⟨pfn', hpfn, hheld⟩ := hcases
  · cases hnone
  · cases hpfn
    obtain ⟨hblocks, hsame, hcpus⟩ := Slab.run_took hslab hstack
    refine ⟨?_, h.good_update ?_, h.ledger.run hrunning hsame hcpus⟩
    · show Tenancy C pages t (fun j => (Function.update s.slabs i u j).blocks) _ _ _
      rw [blocks_update, hblocks]
      exact h.tenancy.take hphys hinv hheld
    · exact good_run (h.good i) (h.tenancy.pageLegal hphys hne hinv hheld rfl) hslab

/-- **A class gives a block back.** Source: `sys/slab_allocator.cpp` `SlabCache::FlushFreeList`. Kind: P -/
theorem Inv.released {t : NumaState} {pfn : ℕ} {frames : List Slab.Frame} (h : Inv C pages s)
    (hrunning : s.running k = some i) (hstack : ((s.slabs i).cpus k).stack = .release pfn :: frames)
    (hhome : PageState.FreesAtHome pages s.pages
      (.free (C.topo.nodeOf k) (s.askedOf pfn) pfn (C.root i).order))
    (hfree : numaStep s.pages (.free (C.topo.nodeOf k) (s.askedOf pfn) pfn (C.root i).order) = some t)
    (hslab : Slab.step (C.root i) C.topo (s.slabs i) (.run k none) = some u) :
    Inv C pages { s with pages := t, slabs := Function.update s.slabs i u } := by
  have hrel : pfn ∈ Slab.releasing ((s.slabs i).cpus k).stack := hstack ▸ List.mem_cons_self
  have hmem : pfn ∈ (s.slabs i).blocks := ((h.good i).inv.of_mem_releasing hrel).1
  obtain ⟨t', hfree', hinv, hheld⟩ := freePages_spec h.tenancy.inv (h.tenancy.slab i pfn hmem) hhome
  rw [hfree] at hfree'
  cases hfree'
  obtain ⟨hblocks, hsame, hcpus⟩ := Slab.run_released hslab hstack
  refine ⟨?_, h.good_update ?_, h.ledger.run hrunning hsame hcpus⟩
  · show Tenancy C pages t (fun j => (Function.update s.slabs i u j).blocks) _ _ _
    rw [blocks_update, hblocks]
    exact h.tenancy.release hmem hinv hheld
  · have hpage : Slab.PageLegal (C.root i) (s.slabs i) none := trivial
    exact good_run (h.good i) hpage hslab

/-- The page allocator is not called: the blocks stay.
Source: `sys/slab_allocator.cpp` `SlabCache::Alloc`
Kind: L -/
theorem blocks_of_outward {v : Slab.State} (h : Slab.Outward k u v) : v.blocks = u.blocks := by
  cases h with
  | kept hkept => exact hkept.blocks
  | gave o hblocks hheld hcpus => exact hblocks

/-- **A CPU runs on.**
Source: `sys/slab_allocator.cpp` `SlabCache::Alloc`, `SlabCache::FlushFreeList`
Kind: P -/
theorem Inv.run (h : Inv C pages s) (hphys : ∀ n, ∀ p ∈ pages n, p < maxPhysPfn) (hzero : ∀ n, 0 ∉ pages n)
    (hhome : FreesAtHome C pages s (.run k)) (hstep : Heap.run C k s = some s') : Inv C pages s' := by
  obtain ⟨i, hrunning, hcases⟩ := running_of_run hstep
  cases hcases with
  | took frames pfn t u hstack halloc hslab => exact h.took hphys hzero hrunning hstack halloc hslab
  | released frames pfn t u hstack hfree hslab =>
      have hop : PageState.FreesAtHome pages s.pages
          (.free (C.topo.nodeOf k) (s.askedOf pfn) pfn (C.root i).order) := by
        apply hhome
        simp [freed, hrunning, hstack]
      exact h.released hrunning hstack hop hfree hslab
  | ran u hnullptr hrelease hslab =>
      have hout := Slab.run_outward hslab hnullptr hrelease
      have hpage : Slab.PageLegal (C.root i) (s.slabs i) none := trivial
      have hgood : Slab.Good (C.root i) u := good_run (h.good i) hpage hslab
      refine ⟨h.tenancy_update (blocks_of_outward hout), h.good_update hgood, ?_⟩
      apply h.ledger.outward hrunning hout
      intro o hheld
      exact h.not_mem_live hgood (blocks_of_outward hout) hheld

/-- **A step keeps the invariant**, as long as pages are freed where `PageAllocator::Free` handles it.
Source: `sys/general_purpose_allocator.hpp` `general_purpose_allocator`, `sys/page_allocator.hpp` `PageAllocator`
Kind: P -/
theorem Inv.step {e : Event} (h : Inv C pages s) (hphys : ∀ n, ∀ p ∈ pages n, p < maxPhysPfn)
    (hzero : ∀ n, 0 ∉ pages n)
    (hlegal : Legal s e) (hhome : FreesAtHome C pages s e) (hstep : Heap.step C s e = some s') :
    Inv C pages s' := by
  cases e with
  | alloc k size nid => exact h.alloc hlegal hstep
  | free k p => exact h.free hlegal.1 hlegal.2 hstep
  | run k => exact h.run hphys hzero hhome hstep
  | allocPages cpu order nid =>
      obtain ⟨⟨page, t⟩, halloc, rfl⟩ := Option.map_eq_some_iff.mp hstep
      obtain ⟨page', t', halloc', hinv, hcases⟩ := allocPages_spec cpu nid h.tenancy.inv hzero hlegal
      rw [halloc] at halloc'
      cases halloc'
      obtain ⟨rfl, hheld⟩ | ⟨pfn, rfl, hheld⟩ := hcases
      · exact ⟨h.tenancy.same hinv hheld, h.good, h.ledger⟩
      · exact ⟨h.tenancy.lend hinv hheld, h.good, h.ledger⟩
  | freePages cpu owner pfn order =>
      obtain ⟨t, hfree, rfl⟩ := Option.map_eq_some_iff.mp hstep
      obtain ⟨t', hfree', hinv, hheld⟩ := freePages_spec h.tenancy.inv (h.tenancy.inUse _ hlegal) (hhome _ rfl)
      rw [hfree] at hfree'
      cases hfree'
      exact ⟨h.tenancy.giveBack hlegal hinv hheld, h.good, h.ledger⟩

end Steps

/-- At boot. Source: `sys/general_purpose_allocator.hpp` `general_purpose_allocator::Init`. Kind: P -/
theorem Inv.init {t : NumaState} {boot : ι → ℕ → Slab.SlabData}
    (hinv : PageState.Inv t.pages t.held pages) (hheld : t.held = fun _ => []) :
    Inv C pages (State.init t boot) where
  tenancy := by
    refine ⟨hinv, ?_, ?_, ?_, ?_, fun _ => List.nodup_nil, List.nodup_nil, ?_, ?_⟩
    · intro i b hb
      exact absurd hb List.not_mem_nil
    · intro l hl
      exact absurd hl List.not_mem_nil
    · intro i j b hb
      exact absurd hb List.not_mem_nil
    · intro i b hb
      exact absurd hb List.not_mem_nil
    · intro n b hb
      have hb : b ∈ t.held n := hb
      rw [hheld] at hb
      exact absurd hb List.not_mem_nil
    · intro i b hb
      exact absurd hb List.not_mem_nil
  good i := Slab.Good.init (boot i)
  ledger := by
    refine ⟨?_, List.nodup_nil, ?_, ?_⟩
    · intro r hr
      exact absurd hr List.not_mem_nil
    · intro k i hne
      exact absurd rfl hne
    · intro k i size hrun
      cases hrun

/-! ## What clients rely on -/

/-- Live allocations do not overlap. Each is an object of a slab of its class, as large as was asked, and the
page structure names the class. None of its pages is free or with other code. The blocks of a node,
in use and free, make up the pages that the node was given at boot, and every block in use is
a slab or is lent.
Source: `sys/general_purpose_allocator.hpp` `general_purpose_allocator`, `sys/page_allocator.hpp` `PageAllocator`
Kind: D -/
structure Sound (C : Config ι) (pages : ℕ → Set ℕ) (s : State ι) : Prop where
  apart : s.live.Pairwise fun r r' => Disjoint r.bytes r'.bytes
  served : ∀ r ∈ s.live, ∃ i, ∃ b ∈ (s.slabs i).blocks, r.addr ∈ (C.root i).objects b ∧
    C.index r.size = some i ∧ r.size ≤ (C.root i).size ∧ s.cacheRoot (pfnDown r.addr) = some i
  alone : ∀ r ∈ s.live, ∀ x ∈ r.bytes, (∀ n, ∀ b ∈ s.pages.pages.freeBlocks n, x / pageSize ∉ b.cells) ∧
    ∀ l ∈ s.lent, x / pageSize ∉ l.2.cells
  pages : ∀ n, Partitions Block.cells (s.pages.held n ++ s.pages.pages.freeBlocks n) (pages n)
  tenants : ∀ n, ∀ b ∈ s.pages.held n,
    (n, b) ∈ s.lent ∨ ∃ i, b.start ∈ (s.slabs i).blocks ∧ b.order = (C.root i).order

/-- Objects of a slab do not overlap. Source: `sys/slab_allocator.cpp` `SlabCache::AddSlab`. Kind: L -/
theorem objects_apart {root : SlabAllocatorRoot} {o' : ℕ} (ho : o ∈ root.objects b) (ho' : o' ∈ root.objects b)
    (hne : o ≠ o') : o + root.size ≤ o' ∨ o' + root.size ≤ o := by
  obtain ⟨m, -, rfl⟩ := List.mem_map.mp ho
  obtain ⟨m', -, rfl⟩ := List.mem_map.mp ho'
  have hmm' : m ≠ m' := by
    rintro rfl
    exact hne rfl
  rcases Nat.lt_or_gt_of_ne hmm' with hlt | hlt
  · have hmul := Nat.mul_le_mul_right root.size (Nat.succ_le_of_lt hlt)
    rw [Nat.succ_mul] at hmul
    omega
  · have hmul := Nat.mul_le_mul_right root.size (Nat.succ_le_of_lt hlt)
    rw [Nat.succ_mul] at hmul
    omega

/-- A live allocation is an object of a slab.
Source: `sys/slab_allocator.cpp` `SlabCache::Alloc`
Kind: L -/
theorem Inv.exists_slab {r : Region} (h : Inv C pages s) (hr : r ∈ s.live) :
    ∃ i, ∃ b ∈ (s.slabs i).blocks, r.addr ∈ (C.root i).objects b ∧ C.index r.size = some i ∧
      s.cacheRoot (pfnDown r.addr) = some i := by
  obtain ⟨i, hindex, hheld⟩ := h.ledger.served r hr
  obtain ⟨hb, ho⟩ := (h.good i).inv.slab_of_mem (p := some .held) hheld
  exact ⟨i, _, hb, ho, hindex, cacheRoot_of_held h.tenancy (h.good i) rfl hheld⟩

/-- The bytes of an object are in the pages of its slab.
Source: `sys/slab_allocator.cpp` `SlabCache::AddSlab`
Kind: L -/
theorem page_mem_cells {root : SlabAllocatorRoot} {r : Region} {x : ℕ} (hb : IsBlock root.order b)
    (ho : r.addr ∈ root.objects b) (hsize : r.size ≤ root.size) (hx : x ∈ r.bytes) :
    x / pageSize ∈ (⟨b, root.order⟩ : Block).cells := by
  obtain ⟨hlow, hhigh⟩ := root.inside_of_mem_objects (hb.2.trans (by decide)) ho
  obtain ⟨hstart, hend⟩ := hx
  rw [Block.mem_cells]
  refine ⟨(Nat.le_div_iff_mul_le (by decide)).mpr (hlow.trans hstart), ?_⟩
  apply (Nat.div_lt_iff_lt_mul (by decide)).mpr
  show x < (b + 2 ^ root.order) * pageSize
  omega

/-- **The invariant is what clients rely on**, where a class is as large as the sizes it is chosen for.
Source: `sys/general_purpose_allocator.hpp` `general_purpose_allocator`
Kind: P -/
theorem Inv.sound (h : Inv C pages s) (hphys : ∀ n, ∀ p ∈ pages n, p < maxPhysPfn)
    (hfits : ∀ size i, C.index size = some i → size ≤ (C.root i).size) : Sound C pages s where
  apart := by
    have honce : s.live.Pairwise fun r r' => r.addr ≠ r'.addr := List.pairwise_map.mp h.ledger.once
    apply honce.imp_of_mem
    intro r r' hr hr' hne
    obtain ⟨i, b, hb, ho, hindex, -⟩ := h.exists_slab hr
    obtain ⟨j, b', hb', ho', hindex', -⟩ := h.exists_slab hr'
    rw [Set.disjoint_left]
    intro x hx hx'
    obtain ⟨rfl, rfl⟩ := h.tenancy.eq_of_mem hb hb'
      (page_mem_cells (h.tenancy.isBlock hphys hb) ho (hfits _ i hindex) hx)
      (page_mem_cells (h.tenancy.isBlock hphys hb') ho' (hfits _ j hindex') hx')
    have hsize := hfits _ i hindex
    have hsize' := hfits _ i hindex'
    obtain ⟨hstart, hend⟩ := hx
    obtain ⟨hstart', hend'⟩ := hx'
    rcases objects_apart ho ho' hne with hle | hle <;> omega
  served r hr := by
    obtain ⟨i, b, hb, ho, hindex, hclass⟩ := h.exists_slab hr
    exact ⟨i, b, hb, ho, hindex, hfits _ i hindex, hclass⟩
  alone r hr x hx := by
    obtain ⟨i, b, hb, ho, hindex, -⟩ := h.exists_slab hr
    have hcell := page_mem_cells (h.tenancy.isBlock hphys hb) ho (hfits _ i hindex) hx
    have hheld := h.tenancy.slab i b hb
    refine ⟨?_, ?_⟩
    · intro n b' hb'
      exact h.tenancy.inv.not_mem_free hheld hcell hb'
    · intro l hl hmem
      obtain ⟨-, heq⟩ := h.tenancy.inv.eq_of_mem hheld (h.tenancy.inUse l hl) hcell hmem
      exact h.tenancy.notLent i b hb l hl (congrArg Block.start heq).symm
  pages n := h.tenancy.inv.tiles n
  tenants n b hb := by
    rcases h.tenancy.whole n b hb with hlent | ⟨i, hi, horder, -⟩
    · exact Or.inl hlent
    · exact Or.inr ⟨i, hi, horder⟩

/-! ## The size classes -/

section Classes

open GeneralPurposeAllocator

variable {topo : Slab.Topology}

/-- A class is as large as the sizes it is chosen for.
Source: `sys/general_purpose_allocator.hpp` `general_purpose_allocator::indexer`
Kind: L -/
theorem gpConfig_fits (size : ℕ) (i : Fin gpType.length) (hindex : (gpConfig topo).index size = some i) :
    size ≤ ((gpConfig topo).root i).size := by
  obtain ⟨hlt, heq⟩ := Option.dite_none_right_eq_some.mp hindex
  have hfits : ∃ head ∈ gpType, size ≤ head := by
    by_contra hnone
    rw [indexer_eq_last] at hlt
    · exact absurd hlt (by decide)
    · intro head hmem
      exact Nat.lt_of_not_le fun hle => hnone ⟨head, hmem, hle⟩
  obtain ⟨j, head, hj, hget, hle, -⟩ := indexer_spec (by decide) 0 hfits
  obtain ⟨root, hroot, hsize⟩ := exists_construct (gpType.get_mem i)
  have hget' : gpType.get i = head := by
    rw [Nat.zero_add] at hj
    rw [← hj] at hget
    cases heq
    exact (List.getElem?_eq_some_iff.mp hget).2
  have hsame : (gpConfig topo).root i = root := Option.get_of_eq_some _ hroot
  rw [hsame, hsize, hget']
  exact hle

/-- **The heap.** From any boot layout, whatever clients allocate and free on which CPUs, whatever pages other
code takes, and in whatever order the CPUs' steps follow: as long as every `Free` of pages is made
from a CPU of the node that the block was asked of and merges only within that node and upward,
live allocations are apart, as large as was asked and alone in their bytes, and every page is
in one place.
Source: `sys/general_purpose_allocator.hpp` `general_purpose_allocator::Alloc`, `general_purpose_allocator::Free`
Kind: C
Fidelity: the allocators of all nodes and CPUs are there from the start; the race for a node's is in
`Mem.SlabNodes`.
Hyps: `hboot` leaves out page 0, whose address `AllocLocal` takes for a null pointer, and frames that are not
physical. -/
theorem heap_sound (topo : Slab.Topology) (present : ℕ → Bool) (ranges : EarlyPageAllocator.FreePages)
    (t : NumaState) (boot : Fin gpType.length → ℕ → Slab.SlabData) (hl : Layout ranges)
    (hboot : ∀ r ∈ ranges, 0 < r.start ∧ r.start + r.npages ≤ maxPhysPfn)
    (ht : NumaState.init present ranges = some t)
    (as : List Event) (s : State (Fin gpType.length))
    (hrun : ((system (gpConfig topo)).guard (FreesAtHome (gpConfig topo) (nodePages ranges))).Run
      (State.init t boot) as s) : Sound (gpConfig topo) (nodePages ranges) s := by
  have hphys : ∀ n, ∀ p ∈ nodePages ranges n, p < maxPhysPfn := by
    rintro n p ⟨r, hr, -, -, hlt⟩
    exact hlt.trans_le (hboot r hr).2
  have hzero : ∀ n, 0 ∉ nodePages ranges n := by
    rintro n ⟨r, hr, -, hle, -⟩
    exact absurd (hboot r hr).1 (Nat.not_lt_of_le hle)
  have hinit : Inv (gpConfig topo) (nodePages ranges) (State.init t boot) := by
    obtain ⟨pages, hpages, rfl⟩ := Option.map_eq_some_iff.mp ht
    exact Inv.init (PageState.inv_init hl hpages) rfl
  have hinv : Inv (gpConfig topo) (nodePages ranges) s := by
    apply hrun.invariant hinit
    intro s e s' hinv hlegal hstep
    exact hinv.step hphys hzero hlegal.1 hlegal.2 hstep
  exact hinv.sound hphys gpConfig_fits

/-- A megabyte on one node. Source: none: infrastructure. Kind: D -/
def megabyte : EarlyPageAllocator.FreePages := [⟨64, 256, 0⟩]

/-- Source: none: infrastructure. Kind: L -/
theorem isSome_init_megabyte : (NumaState.init (fun _ => true) megabyte).isSome := by decide +kernel

/-- The page allocators after boot. Source: `sys/page_allocator.cpp` `PageAllocator::Init`. Kind: D -/
def bootPages : NumaState := (NumaState.init (fun _ => true) megabyte).get isSome_init_megabyte

/-- CPU 0 allocates twice, other code takes a page between, and CPU 1 frees the first object.
Source: none: infrastructure
Kind: D -/
def twoObjects : List Event :=
  [.alloc 0 200000 0, .run 0, .run 0, .run 0, .allocPages 0 0 0,
    .alloc 0 250000 0, .run 0, .run 0, .run 0, .free 1 1048576]

/-- The second object is live.
Source: `sys/general_purpose_allocator.hpp` `general_purpose_allocator::Alloc`, `general_purpose_allocator::Free`
Kind: P -/
theorem heap_sound_two :
    ∃ s, ((system (gpConfig Slab.spread)).guard
        (FreesAtHome (gpConfig Slab.spread) (nodePages megabyte))).Run
          (State.init bootPages fun _ => Slab.blank) twoObjects s ∧
      s.live = [⟨524288, 250000⟩] ∧ Sound (gpConfig Slab.spread) (nodePages megabyte) s := by
  have hadmits : ((system (gpConfig Slab.spread)).guard
      (FreesAtHome (gpConfig Slab.spread) (nodePages megabyte))).Admits
        (State.init bootPages fun _ => Slab.blank) twoObjects := by decide +kernel
  have hlive : (((system (gpConfig Slab.spread)).guard
      (FreesAtHome (gpConfig Slab.spread) (nodePages megabyte))).exec
        (State.init bootPages fun _ => Slab.blank) twoObjects).map State.live =
          some [⟨524288, 250000⟩] := by decide +kernel
  obtain ⟨s, hexec, hrun⟩ := System.Run.of_admits hadmits
  rw [hexec, Option.map_some] at hlive
  refine ⟨s, hrun, Option.some.inj hlive, ?_⟩
  apply heap_sound Slab.spread (fun _ => true) megabyte bootPages (fun _ => Slab.blank) _ _ _ twoObjects s hrun
  · exact ⟨by simp [megabyte], by decide⟩
  · decide
  · exact (Option.some_get isSome_init_megabyte).symm

end Classes

end Heap

end EbbRT
