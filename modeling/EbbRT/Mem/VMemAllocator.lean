import EbbRT.Lib.System
import EbbRT.Lib.Tiling
import EbbRT.Mem.Pfn

/-!
# The virtual memory allocator

`regions_` maps the first page of a region to its end and its page fault handler, in descending
order. `Alloc` takes the first region with no handler that is long enough and carves the pages
from its end; that a region is taken is recorded by its handler and by nothing else. A call
without a handler therefore returns a region that still looks free. `vmemAllocator_exactlyWhen`
says when this does no harm: the regions always tile the initial region, and what is returned is
exclusive as long as no call asks for as many pages as an earlier call without a handler got, or
fewer.
-/

namespace EbbRT

open EbbRT.Lib

namespace VMemAllocator

/-! ## The code -/

/-- An entry of `regions_`: the key and the mapped `region`.
Source: `sys/vmem_allocator.hpp` `VMemAllocator::region`
Kind: D -/
structure Region (H : Type*) where
  /-- The first page (the key). -/
  first : ℕ
  /-- The page after the last. -/
  stop : ℕ
  /-- `none` is the null pointer. -/
  pageFaultHandler : Option H
  deriving DecidableEq, Repr

variable {H : Type*}

/-- `regions_.emplace(ret, ret + npages)` and then setting the handler of the entry at the key:
the entries are in descending order, and an entry with the key is not replaced.
Source: `sys/vmem_allocator.cpp` `VMemAllocator::Alloc`
Kind: D -/
def emplace (r : Region H) : List (Region H) → List (Region H)
  | [] => [r]
  | x :: l =>
      if r.first < x.first then x :: emplace r l
      else if r.first = x.first then { x with pageFaultHandler := r.pageFaultHandler } :: l
      else r :: x :: l

/-- The test that passes a region over.
Source: `sys/vmem_allocator.cpp` `VMemAllocator::Alloc`
Kind: D -/
def skips (npages : ℕ) (it : Region H) : Bool :=
  it.pageFaultHandler.isSome || decide (wsub it.stop it.first < npages)

/-- The first region that is not passed over, with those before and after it.
Source: `sys/vmem_allocator.cpp` `VMemAllocator::Alloc`
Kind: D -/
def find (npages : ℕ) : List (Region H) → Option (List (Region H) × Region H × List (Region H))
  | [] => none
  | it :: rest =>
      if skips npages it then (find npages rest).map fun r => (it :: r.1, r.2)
      else some ([], it, rest)

/-- The first page returned and the regions afterwards; `none` is the `kabort` at the end.
Source: `sys/vmem_allocator.cpp` `VMemAllocator::Alloc`
Kind: D -/
def alloc (npages : ℕ) (pfHandler : Option H) (regions : List (Region H)) :
    Option (ℕ × List (Region H)) :=
  (find npages regions).map fun (pre, it, post) =>
    let ret := wsub it.stop npages
    if ret = it.first then (ret, pre ++ { it with pageFaultHandler := pfHandler } :: post)
    else
      (ret, emplace ⟨ret, (ret + npages) % word, pfHandler⟩ (pre ++ { it with stop := ret } :: post))

/-- Source: `sys/trans.hpp` `LOCAL_TRANS_VMEM_START`
Kind: D -/
def localTransVmemStart : ℕ := 0xFFFFFFFF00000000

/-- The first page of the initial region.
Source: `sys/vmem_allocator.cpp` `VMemAllocator::VMemAllocator`
Kind: D -/
def bottom : ℕ := pfnUp 0xFFFF800000000000

/-- The page after the initial region.
Source: `sys/vmem_allocator.cpp` `VMemAllocator::VMemAllocator`
Kind: D -/
def top : ℕ := pfnDown localTransVmemStart

/-- Source: `sys/vmem_allocator.cpp` `VMemAllocator::VMemAllocator`
Kind: D -/
def initialRegions : List (Region H) := [⟨bottom, top, none⟩]

/-! ## The regions always tile -/

/-- The entries tile the initial region, highest first.
Source: none: infrastructure
Kind: D -/
def Tiles (regions : List (Region H)) : Prop := TilesDown Region.first Region.stop bottom top regions

variable {npages ret : ℕ} {pfHandler : Option H} {regions regions' pre post : List (Region H)}
  {it : Region H}

/-- The initial region ends inside the address space. Source: none: infrastructure. Kind: L -/
theorem top_lt_word : top < word := by decide

/-- What the search finds: everything before it is passed over, the region itself is not.
Source: `sys/vmem_allocator.cpp` `VMemAllocator::Alloc`
Kind: L -/
theorem find_eq_some (h : find npages regions = some (pre, it, post)) :
    regions = pre ++ it :: post ∧ (∀ r ∈ pre, skips npages r = true) ∧ skips npages it = false := by
  induction regions generalizing pre with
  | nil => cases h
  | cons r rest ih =>
      rw [find] at h
      by_cases hs : skips npages r = true
      · rw [if_pos hs] at h
        obtain ⟨⟨pre', it', post'⟩, h1, h2⟩ := Option.map_eq_some_iff.mp h
        simp only [Prod.mk.injEq] at h2
        obtain ⟨rfl, rfl, rfl⟩ := h2
        obtain ⟨rfl, hpre, hit⟩ := ih h1
        refine ⟨rfl, fun x hx => ?_, hit⟩
        rcases List.mem_cons.mp hx with rfl | hx
        · exact hs
        · exact hpre x hx
      · rw [if_neg hs] at h
        simp only [Option.some.injEq, Prod.mk.injEq] at h
        obtain ⟨rfl, rfl, rfl⟩ := h
        exact ⟨rfl, by simp, by simpa using hs⟩

/-- Regions before the place of a new key are higher.
Source: `sys/vmem_allocator.cpp` `VMemAllocator::Alloc`
Kind: L -/
theorem emplace_append {r : Region H} (hpre : ∀ x ∈ pre, r.first < x.first) :
    emplace r (pre ++ post) = pre ++ emplace r post := by
  induction pre with
  | nil => rfl
  | cons x pre ih =>
      rw [List.cons_append, emplace, if_pos (hpre x (by simp)),
        ih fun y hy => hpre y (by simp [hy]), List.cons_append]

/-- **One call.** On regions that tile, `Alloc` cuts the pages off the end of the region it finds
and gives them the handler.
Source: `sys/vmem_allocator.cpp` `VMemAllocator::Alloc`
Kind: P -/
theorem alloc_eq_some (ht : Tiles regions) (hn : 1 ≤ npages)
    (h : alloc npages pfHandler regions = some (ret, regions')) :
    ∃ pre it post, find npages regions = some (pre, it, post) ∧ regions = pre ++ it :: post ∧
      it.pageFaultHandler = none ∧ it.first ≤ ret ∧ ret + npages = it.stop ∧
      regions' = pre ++ ⟨ret, ret + npages, pfHandler⟩ ::
        ((if ret = it.first then [] else [{ it with stop := ret }]) ++ post) := by
  obtain ⟨⟨pre, it, post⟩, hfind, heq⟩ := Option.map_eq_some_iff.mp h
  obtain ⟨rfl, -, hskip⟩ := find_eq_some hfind
  obtain ⟨hlo, hne, hhi⟩ := ht.bounds (b := it) (by simp)
  have hw := top_lt_word
  simp only [skips, Bool.or_eq_false_iff, decide_eq_false_iff_not, Option.isSome_eq_false_iff,
    Option.isNone_iff_eq_none] at hskip
  rw [wsub_eq hne.le (by omega)] at hskip
  have hret : wsub it.stop npages = it.stop - npages := wsub_eq (by omega) (by omega)
  have hsum : (it.stop - npages + npages) % word = it.stop := by
    rw [Nat.sub_add_cancel (by omega), Nat.mod_eq_of_lt (by omega)]
  simp only [hret, hsum] at heq
  refine ⟨pre, it, post, hfind, rfl, hskip.1, ?_⟩
  split at heq
  · rename_i hfirst
    obtain ⟨rfl, rfl⟩ := Prod.mk.inj heq
    refine ⟨by omega, by omega, ?_⟩
    rw [Nat.sub_add_cancel (by omega), if_pos hfirst, hfirst]
    rfl
  · rename_i hfirst
    obtain ⟨rfl, rfl⟩ := Prod.mk.inj heq
    refine ⟨by omega, by omega, ?_⟩
    have hpre : ∀ x ∈ pre, it.stop - npages < x.first := by
      intro x hx
      have := (List.pairwise_append.mp ht.pairwise).2.2 x hx it (by simp)
      omega
    rw [Nat.sub_add_cancel (by omega), if_neg hfirst, emplace_append hpre]
    simp only [emplace]
    rw [if_neg (by omega), if_neg (by omega)]
    rfl

/-- **Tiling.** Every call leaves the regions a tiling of the initial region, and returns pages
inside it.
Source: `sys/vmem_allocator.cpp` `VMemAllocator::Alloc`
Kind: P -/
theorem Tiles.alloc (ht : Tiles regions) (hn : 1 ≤ npages)
    (h : VMemAllocator.alloc npages pfHandler regions = some (ret, regions')) :
    Tiles regions' ∧ bottom ≤ ret ∧ ret + npages ≤ top := by
  obtain ⟨pre, it, post, -, rfl, -, hle, hstop, rfl⟩ := alloc_eq_some ht hn h
  obtain ⟨hlo, -, hhi⟩ := ht.bounds (b := it) (by simp)
  refine ⟨?_, by omega, by omega⟩
  obtain ⟨mid, h1, h2, h3, h4⟩ := tilesDown_append.mp ht
  refine tilesDown_append.mpr ⟨mid, h1, by simp only; omega, by simp only; omega, ?_⟩
  split
  · rename_i heq
    simpa [heq] using h4
  · exact ⟨rfl, by simp only; omega, h4⟩

/-! ## Runs -/

/-- The regions, and the pages returned so far with their handlers, oldest first.
Source: `sys/vmem_allocator.hpp` `VMemAllocator`
Kind: D -/
structure State (H : Type*) where
  regions : List (Region H)
  returned : List (Region H)

/-- Source: `sys/vmem_allocator.cpp` `VMemAllocator::VMemAllocator`
Kind: D -/
def State.init : State H := ⟨initialRegions, []⟩

/-- A call of `Alloc`.
Source: `sys/vmem_allocator.hpp` `VMemAllocator::Alloc`
Kind: D -/
structure Call (H : Type*) where
  npages : ℕ
  pfHandler : Option H

/-- Every caller: at least one page, a `size_t`, with or without a handler.
Source: `sys/vmem_allocator.cpp` `VMemAllocator::Alloc`
Kind: D -/
def system : System (State H) (Call H) where
  legal _ c := 1 ≤ c.npages ∧ c.npages < word
  step s c := (alloc c.npages c.pfHandler s.regions).map fun r =>
    ⟨r.2, s.returned ++ [⟨r.1, r.1 + c.npages, c.pfHandler⟩]⟩

instance (s : State H) (c : Call H) : Decidable (system.legal s c) :=
  inferInstanceAs (Decidable (_ ∧ _))

/-- The pages returned lie inside the initial region, which the entries tile.
Source: none: infrastructure
Kind: D -/
def Tiled (s : State H) : Prop :=
  Tiles s.regions ∧ ∀ g ∈ s.returned, bottom ≤ g.first ∧ g.stop ≤ top

/-- No page is returned twice.
Source: none: infrastructure
Kind: D -/
def Exclusive (s : State H) : Prop :=
  s.returned.Pairwise fun a b => Disjoint (Set.Ico a.first a.stop) (Set.Ico b.first b.stop)

/-- The calls that the code handles: the call asks for more pages than every earlier call without
a handler.
Source: `sys/vmem_allocator.cpp` `VMemAllocator::Alloc`
Kind: D -/
def LargerThanBare (s : State H) (c : Call H) : Prop :=
  ∀ g ∈ s.returned, g.pageFaultHandler = none → g.stop - g.first < c.npages

instance (s : State H) (c : Call H) : Decidable (LargerThanBare s c) :=
  inferInstanceAs (Decidable (∀ g ∈ s.returned, _ → _))

/-- As long as every call is handled, the regions are those returned, followed by what is left of
the initial region.
Source: none: infrastructure
Kind: D -/
structure Inv (s : State H) : Prop where
  tiles : Tiles s.regions
  split : ∃ rest, s.regions = s.returned ++ rest ∧ (rest = [] ∨ ∃ e, rest = [⟨bottom, e, none⟩])

variable {s s' : State H} {c : Call H}

/-- The invariant makes what was returned exclusive. Source: none: infrastructure. Kind: L -/
theorem Inv.exclusive (h : Inv s) : Exclusive s := by
  obtain ⟨rest, hsplit, -⟩ := h.split
  have hpair := (List.pairwise_append.mp (hsplit ▸ h.tiles.pairwise)).1
  refine hpair.imp fun {a b} hab => ?_
  rw [Set.disjoint_left]
  intro p hp hp'
  simp only [Set.mem_Ico] at hp hp'
  omega

/-- What one step does. Source: `sys/vmem_allocator.cpp` `VMemAllocator::Alloc`. Kind: L -/
theorem step_eq_some (hstep : system.step s c = some s') :
    ∃ ret, alloc c.npages c.pfHandler s.regions = some (ret, s'.regions) ∧
      s'.returned = s.returned ++ [⟨ret, ret + c.npages, c.pfHandler⟩] := by
  obtain ⟨r, hr, rfl⟩ := Option.map_eq_some_iff.mp hstep
  exact ⟨r.1, hr, rfl⟩

/-- Every call keeps the tiling. Source: `sys/vmem_allocator.cpp` `VMemAllocator::Alloc`. Kind: L -/
theorem Tiled.step (h : Tiled s) (hlegal : system.legal s c) (hstep : system.step s c = some s') :
    Tiled s' := by
  obtain ⟨ret, halloc, hret⟩ := step_eq_some hstep
  obtain ⟨ht, hlo, hhi⟩ := h.1.alloc hlegal.1 halloc
  refine ⟨ht, fun g hg => ?_⟩
  rw [hret] at hg
  rcases List.mem_append.mp hg with hg | hg
  · exact h.2 g hg
  · rw [List.mem_singleton.mp hg]
    exact ⟨hlo, hhi⟩

/-- **A handled call** carves from what is left of the initial region: every region returned
before is in use or too short.
Source: `sys/vmem_allocator.cpp` `VMemAllocator::Alloc`
Kind: P -/
theorem Inv.step (h : Inv s) (hlegal : system.legal s c) (hok : LargerThanBare s c)
    (hstep : system.step s c = some s') : Inv s' := by
  obtain ⟨ret, halloc, hret⟩ := step_eq_some hstep
  obtain ⟨ht, -, -⟩ := h.tiles.alloc hlegal.1 halloc
  obtain ⟨pre, it, post, hfind, hcut, hnone, hlo, hhi, hregions⟩ :=
    alloc_eq_some h.tiles hlegal.1 halloc
  obtain ⟨rest, hsplit, hrest⟩ := h.split
  have hit : it ∈ rest := by
    have hmem : it ∈ s.returned ++ rest := by rw [← hsplit, hcut]; simp
    rcases List.mem_append.mp hmem with hmem | hmem
    · have := hok it hmem hnone
      omega
    · exact hmem
  rcases hrest with rfl | ⟨e, rfl⟩
  · simp at hit
  · obtain rfl := List.mem_singleton.mp hit
    -- the region found is the last one, so everything before it is what was returned
    obtain ⟨rfl, rfl⟩ : pre = s.returned ∧ post = [] := by
      have heq : pre ++ ⟨bottom, e, none⟩ :: post = s.returned ++ [⟨bottom, e, none⟩] :=
        hcut.symm.trans hsplit
      rcases List.eq_nil_or_concat post with rfl | ⟨post', x, rfl⟩
      · exact ⟨List.append_cancel_right heq, rfl⟩
      · exfalso
        rw [List.concat_eq_append, ← List.cons_append, ← List.append_assoc] at heq
        obtain ⟨-, hx⟩ := List.append_inj' heq rfl
        obtain rfl := List.singleton_inj.mp hx
        have := (List.pairwise_append.mp (hcut ▸ h.tiles.pairwise)).2.1
        have h1 := (List.pairwise_cons.mp this).1 ⟨bottom, e, none⟩ (by simp)
        simp only at h1 hlo hhi
        have := hlegal.1
        omega
    refine ⟨ht, (if ret = bottom then [] else [⟨bottom, ret, none⟩]), ?_, ?_⟩
    · rw [hregions, hret]
      simp
    · split
      · exact Or.inl rfl
      · exact Or.inr ⟨ret, rfl⟩

/-- **A call that is not handled** returns pages that were returned before.
Source: `sys/vmem_allocator.cpp` `VMemAllocator::Alloc`
Kind: P -/
theorem Inv.not_exclusive (h : Inv s) (hlegal : system.legal s c) (hbad : ¬ LargerThanBare s c)
    (hstep : system.step s c = some s') : ¬ Exclusive s' := by
  obtain ⟨ret, halloc, hret⟩ := step_eq_some hstep
  obtain ⟨pre, it, post, hfind, hcut, hnone, hlo, hhi, -⟩ := alloc_eq_some h.tiles hlegal.1 halloc
  obtain ⟨rest, hsplit, hrest⟩ := h.split
  obtain ⟨g, hg, hgnone, hgle⟩ : ∃ g ∈ s.returned, g.pageFaultHandler = none ∧
      c.npages ≤ g.stop - g.first := by
    by_contra hno
    exact hbad fun g hg hgnone => by
      by_contra hlt
      exact hno ⟨g, hg, hgnone, by omega⟩
  have hgr : g ∈ s.regions := hsplit ▸ List.mem_append_left rest hg
  have hw := top_lt_word
  have hgskip : skips c.npages g = false := by
    obtain ⟨-, hlt, hle⟩ := h.tiles.bounds hgr
    rw [skips, wsub_eq hlt.le (by omega), hgnone]
    simpa using hgle
  -- the region found is not after `g`, and so it was returned before
  have hit : it ∈ s.returned := by
    obtain ⟨-, hpre, -⟩ := find_eq_some hfind
    have hmem : it ∈ s.returned ++ rest := by rw [← hsplit, hcut]; simp
    rcases List.mem_append.mp hmem with hmem | hmem
    · exact hmem
    · exfalso
      have hgcut : g ∈ pre ++ it :: post := hcut ▸ hgr
      have hbelow : it.stop ≤ g.first :=
        (List.pairwise_append.mp (hsplit ▸ h.tiles.pairwise)).2.2 g hg it hmem
      rcases List.mem_append.mp hgcut with hgp | hgp
      · rw [hpre g hgp] at hgskip
        cases hgskip
      · obtain ⟨-, hlt, -⟩ := h.tiles.bounds hgr
        rcases List.mem_cons.mp hgp with rfl | hgp
        · omega
        · have := (List.pairwise_append.mp (hcut ▸ h.tiles.pairwise)).2.1
          have h1 := (List.pairwise_cons.mp this).1 g hgp
          have := hlegal.1
          omega
  intro hex
  rw [Exclusive, hret] at hex
  have := (List.pairwise_append.mp hex).2.2 it hit _ (List.mem_singleton_self _)
  have hpos := hlegal.1
  have hmem : ret ∈ Set.Ico it.first it.stop := ⟨hlo, by omega⟩
  exact Set.disjoint_left.mp this hmem ⟨le_rfl, by simp only; omega⟩

/-- The invariant holds at the start. Source: none: infrastructure. Kind: L -/
theorem inv_init : Inv (State.init : State H) :=
  ⟨⟨rfl, show bottom < top by decide, rfl⟩, initialRegions, rfl, Or.inr ⟨top, rfl⟩⟩

/-- **The virtual memory allocator over whole runs.** After every call of every run the regions
tile the initial region and the pages returned lie inside it. They are exclusive as long as every
call asks for more pages than each earlier call without a handler, and the first call that does
not returns pages a second time.
Source: `sys/vmem_allocator.cpp` `VMemAllocator::Alloc`
Kind: P
Fidelity: weaker than the code promises where pages are to be exclusive: up to the first call that
`LargerThanBare` leaves out -/
theorem vmemAllocator_exactlyWhen (H : Type*) :
    (system (H := H)).Always State.init (fun _ _ s' => Tiled s') ∧
      (system (H := H)).ExactlyWhen State.init (fun _ _ s' => Tiled s' ∧ Exclusive s')
        LargerThanBare := by
  have htiled : ∀ as s, (system (H := H)).Run State.init as s → Tiled s := fun as s hrun =>
    hrun.invariant ⟨inv_init.tiles, by simp [State.init]⟩ fun _ _ _ h hlegal hstep =>
      h.step hlegal hstep
  refine ⟨fun as s c s' hrun hlegal hstep => (htiled as s hrun).step hlegal hstep, ?_⟩
  intro as s c s' hrun hlegal hstep
  have hinv : Inv s := hrun.invariant inv_init fun _ _ _ h hlegal hstep =>
    h.step hlegal.1 hlegal.2 hstep
  constructor
  · intro h
    by_contra hbad
    exact hinv.not_exclusive hlegal hbad hstep h.2
  · intro hok
    exact ⟨(htiled as s hrun.of_guard).step hlegal hstep, (hinv.step hlegal hok hstep).exclusive⟩

/-- A stack of two pages with a handler, then a mapped bar of one page, then a larger one.
Source: `sys/pci.cpp` `pci_bar::map`, `sys/event_manager.cpp` `EventManager::AllocateStack`
Kind: C -/
theorem vmemAllocator_exactlyWhen_growing :
    ∃ s s' : State ℕ, system.Run State.init [⟨2, some 0⟩, ⟨1, none⟩] s ∧
      system.step s ⟨3, none⟩ = some s' ∧ Tiled s' ∧ Exclusive s' ∧
      s'.returned.map (fun g => top - g.first) = [2, 3, 6] := by
  have h : ((system (H := ℕ)).guard LargerThanBare).Admits State.init
      ([⟨2, some 0⟩, ⟨1, none⟩] ++ [⟨3, none⟩]) := by decide
  obtain ⟨s, s', hexec, hrun, hlegal, hstep⟩ := h.last
  have hexact := ((vmemAllocator_exactlyWhen ℕ).2 _ _ _ _ hrun hlegal.1 hstep).mpr hlegal.2
  refine ⟨s, s', hrun.of_guard, hstep, hexact.1, hexact.2, ?_⟩
  obtain rfl := Option.some.inj hexec
  obtain rfl := Option.some.inj hstep
  decide

/-- Two bars of one page, mapped one after the other, get the same page.
Source: `sys/pci.cpp` `pci_bar::map`
Kind: P -/
theorem vmemAllocator_not_always :
    ¬ (system (H := ℕ)).Always State.init (fun _ _ s' => Tiled s' ∧ Exclusive s') := by
  have hadmits : (system (H := ℕ)).Admits State.init ([⟨1, none⟩] ++ [⟨1, none⟩]) := by decide
  refine System.not_always_of_admits hadmits ?_
  intro s s' hs hs' hsafe
  have hret : s'.returned = [⟨top - 1, top, none⟩, ⟨top - 1, top, none⟩] := by
    obtain rfl := Option.some.inj hs
    obtain rfl := Option.some.inj hs'
    decide
  have hex := hsafe.2
  rw [Exclusive, hret] at hex
  have hd := (List.pairwise_cons.mp hex).1 _ (List.mem_singleton_self _)
  have hmem : top - 1 ∈ Set.Ico (top - 1) top := ⟨le_rfl, by decide⟩
  exact Set.disjoint_left.mp hd hmem hmem

end VMemAllocator

end EbbRT
