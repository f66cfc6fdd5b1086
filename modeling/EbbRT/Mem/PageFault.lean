import EbbRT.Mem.VMemAllocator

/-!
# Page faults

`HandlePageFault` looks for the region that starts last at or below the page of the address, and takes
it unless its end is below the next page boundary. When every `Alloc` passes a handler, the regions in
use go down from the top of the initial region without a gap and what is left is free (`Shape`), so a
region that ends too low has a neighbour above that is found in its place. The highest has none: the
address right behind it is taken for its own, and so are the last addresses of all, whose next page
boundary wraps to zero. `handlePageFault_exactlyWhen`: these are the only faults that reach a handler
and should not.
-/

namespace EbbRT

namespace VMemAllocator

variable {H : Type*}

/-! ## The code -/

/-- `regions_.lower_bound`, with `std::greater`.
Source: `sys/vmem_allocator.cpp` `VMemAllocator::HandlePageFault`
Kind: D -/
def lowerBound (key : ℕ) (regions : List (Region H)) : Option (Region H) :=
  regions.find? fun r => r.first ≤ key

/-- The region that is found, and its handler, which is called.
Source: `sys/vmem_allocator.cpp` `VMemAllocator::HandlePageFault`
Kind: D -/
def handlePageFault (faultAddr : ℕ) (regions : List (Region H)) : Except String (Region H × H) :=
  match lowerBound (pfnDown faultAddr) regions with
  | none => .error "Could not find region for faulting address!\n"
  | some it =>
      if it.stop < pfnUp faultAddr then .error "Could not find region for faulting address!\n"
      else
        match it.pageFaultHandler with
        | none => .error "Fault on a free region!\n"
        | some h => .ok (it, h)

/-- Callers that pass a handler.
Source: `sys/vmem_allocator.hpp` `VMemAllocator::Alloc`
Kind: D -/
def handledSystem : Lib.System (State H) (Call H) where
  legal _ c := c.pfHandler.isSome = true ∧ c.npages < word
  step := system.step

instance (s : State H) (c : Call H) : Decidable (handledSystem.legal s c) :=
  inferInstanceAs (Decidable (_ ∧ _))

/-! ## What a fault should reach -/

/-- A call has returned the pages of the region.
Source: `sys/vmem_allocator.cpp` `VMemAllocator::Alloc`
Kind: D -/
def Allocated (s : State H) (r : Region H) : Prop :=
  ∃ g ∈ s.returned, g.first = r.first ∧ g.stop = r.stop

/-- The address is one of the region.
Source: `sys/vmem_allocator.hpp` `VMemAllocator::region`
Kind: D -/
def Region.Holds (r : Region H) (addr : ℕ) : Prop :=
  pfnToAddr r.first ≤ addr ∧ addr < pfnToAddr r.stop

/-- A fault calls the handler of the allocated region with the address, and no other, and aborts where
there is none.
Source: `sys/vmem_allocator.cpp` `VMemAllocator::HandlePageFault`
Kind: D -/
structure FaultReaches (s : State H) (addr : ℕ) : Prop where
  invokes : ∀ r ∈ s.regions,
    (∃ h, handlePageFault addr s.regions = .ok (r, h)) ↔ Allocated s r ∧ r.Holds addr
  own : ∀ r h, handlePageFault addr s.regions = .ok (r, h) →
    r ∈ s.regions ∧ r.pageFaultHandler = some h
  aborts : (¬ ∃ r ∈ s.regions, Allocated s r ∧ r.Holds addr) →
    ∃ message, handlePageFault addr s.regions = .error message

/-! ## The regions in use -/

/-- The regions in use, highest first: each has a handler, they lie between `e` and the top, one above
the other, and leave no gap; the lowest starts at `e`. Only one that is empty can be at the top itself.
Source: `sys/vmem_allocator.cpp` `VMemAllocator::Alloc`
Kind: D -/
structure Used (e : ℕ) (l : List (Region H)) : Prop where
  handler : ∀ r ∈ l, r.pageFaultHandler.isSome = true
  bounds : ∀ r ∈ l, e ≤ r.first ∧ r.first ≤ r.stop ∧ r.stop ≤ top
  down : l.Pairwise fun a b => b.first < a.first ∧ b.stop ≤ a.first
  cover : ∀ p, e ≤ p → p < top → ∃ r ∈ l, r.first ≤ p ∧ p < r.stop
  last : l = [] ∧ e = top ∨ ∃ l₀ x, l = l₀ ++ [x] ∧ x.first = e

/-- The regions in use, and below them what is free.
Source: `sys/vmem_allocator.cpp` `VMemAllocator::Alloc`
Kind: D -/
structure Shape (s : State H) (e : ℕ) (l : List (Region H)) : Prop where
  used : Used e l
  regions : s.regions = l ++ [⟨bottom, e, none⟩] ∧ bottom < e ∨ s.regions = l ∧ e = bottom
  empty : s.returned = [] ↔ l = []
  allocated : ∀ r ∈ l, Allocated s r
  above : ∀ g ∈ s.returned, e ≤ g.first

variable {s s' : State H} {c : Call H} {e ret npages : ℕ} {h : H} {l regions' : List (Region H)}

/-- The next region in use. Source: `sys/vmem_allocator.cpp` `VMemAllocator::Alloc`. Kind: L -/
theorem Used.snoc (hu : Used e l) (hlt : ret < e) (htop : e ≤ top) :
    Used ret (l ++ [⟨ret, e, some h⟩]) where
  handler r hr := by
    rcases List.mem_append.mp hr with hr | hr
    · exact hu.handler r hr
    · rw [List.mem_singleton.mp hr]
      rfl
  bounds r hr := by
    rcases List.mem_append.mp hr with hr | hr
    · obtain ⟨h1, h2, h3⟩ := hu.bounds r hr
      exact ⟨by omega, h2, h3⟩
    · rw [List.mem_singleton.mp hr]
      exact ⟨le_rfl, hlt.le, htop⟩
  down := by
    refine List.pairwise_append.mpr ⟨hu.down, List.pairwise_singleton _ _, fun a ha b hb => ?_⟩
    obtain rfl := List.mem_singleton.mp hb
    have := (hu.bounds a ha).1
    exact ⟨by simp only; omega, this⟩
  cover p hp hp' := by
    rcases Nat.lt_or_ge p e with hpe | hpe
    · exact ⟨_, List.mem_append_right _ (List.mem_singleton_self _), hp, hpe⟩
    · obtain ⟨r, hr, h1, h2⟩ := hu.cover p hpe hp'
      exact ⟨r, List.mem_append_left _ hr, h1, h2⟩
  last := Or.inr ⟨l, _, rfl, rfl⟩

/-- Another handler for the lowest region in use.
Source: `sys/vmem_allocator.cpp` `VMemAllocator::Alloc`
Kind: L -/
theorem Used.replace {l₀ : List (Region H)} {x : Region H} (hu : Used e (l₀ ++ [x])) :
    Used e (l₀ ++ [{ x with pageFaultHandler := some h }]) where
  handler r hr := by
    rcases List.mem_append.mp hr with hr | hr
    · exact hu.handler r (List.mem_append_left _ hr)
    · rw [List.mem_singleton.mp hr]
      rfl
  bounds r hr := by
    rcases List.mem_append.mp hr with hr | hr
    · exact hu.bounds r (List.mem_append_left _ hr)
    · rw [List.mem_singleton.mp hr]
      exact hu.bounds x (List.mem_append_right _ (List.mem_singleton_self x))
  down := by
    obtain ⟨h1, -, h3⟩ := List.pairwise_append.mp hu.down
    refine List.pairwise_append.mpr ⟨h1, List.pairwise_singleton _ _, fun a ha b hb => ?_⟩
    obtain rfl := List.mem_singleton.mp hb
    exact h3 a ha x (List.mem_singleton_self x)
  cover p hp hp' := by
    obtain ⟨r, hr, h1, h2⟩ := hu.cover p hp hp'
    rcases List.mem_append.mp hr with hr | hr
    · exact ⟨r, List.mem_append_left _ hr, h1, h2⟩
    · obtain rfl := List.mem_singleton.mp hr
      exact ⟨_, List.mem_append_right _ (List.mem_singleton_self _), h1, h2⟩
  last := by
    rcases hu.last with ⟨hnil, -⟩ | ⟨l₁, y, heq, hy⟩
    · exact absurd hnil (by simp)
    · obtain ⟨rfl, hxy⟩ := List.append_inj' heq rfl
      obtain rfl := List.singleton_inj.mp hxy
      exact Or.inr ⟨l₀, _, rfl, hy⟩

/-- The regions in use end at the top or below. Source: none: infrastructure. Kind: L -/
theorem Used.le_top (hu : Used e l) : e ≤ top := by
  rcases hu.last with ⟨-, rfl⟩ | ⟨l₀, x, rfl, rfl⟩
  · exact le_rfl
  · obtain ⟨-, h1, h2⟩ := hu.bounds x (List.mem_append_right _ (List.mem_singleton_self x))
    exact h1.trans h2

/-- The regions in use are all passed over. Source: `sys/vmem_allocator.cpp` `VMemAllocator::Alloc`.
Kind: L -/
theorem find_append (hl : ∀ r ∈ l, r.pageFaultHandler.isSome = true) (rest : List (Region H)) :
    find npages (l ++ rest) = (find npages rest).map fun r => (l ++ r.1, r.2) := by
  induction l with
  | nil =>
      rw [List.nil_append]
      cases find npages rest with
      | none => rfl
      | some r => rfl
  | cons x l ih =>
      obtain ⟨hx, hl⟩ := List.forall_mem_cons.mp hl
      have hskip : skips npages x = true := by rw [skips, hx, Bool.true_or]
      rw [List.cons_append, find, if_pos hskip, ih hl, Option.map_map]
      rfl

/-- **One call** takes the pages from the end of what is free.
Source: `sys/vmem_allocator.cpp` `VMemAllocator::Alloc`
Kind: L -/
theorem Shape.alloc (hs : Shape s e l) (hcall : alloc npages (some h) s.regions = some (ret, regions')) :
    bottom < e ∧ bottom ≤ ret ∧ ret + npages = e ∧
      regions' = if ret = bottom then l ++ [⟨bottom, e, some h⟩]
        else emplace ⟨ret, e, some h⟩ (l ++ [⟨bottom, ret, none⟩]) := by
  obtain ⟨⟨pre, it, post⟩, hfind, heq⟩ := Option.map_eq_some_iff.mp hcall
  have htop := hs.used.le_top
  have hword := top_lt_word
  rcases hs.regions with ⟨hregions, hbottom⟩ | ⟨hregions, -⟩
  · rw [hregions, find_append hs.used.handler, find] at hfind
    have hskip : skips npages (⟨bottom, e, none⟩ : Region H) = decide (e - bottom < npages) := by
      rw [skips, wsub_eq hbottom.le (by omega), Option.isSome_none, Bool.false_or]
    rw [hskip] at hfind
    by_cases hlt : e - bottom < npages
    · rw [if_pos (decide_eq_true hlt)] at hfind
      cases hfind
    · rw [if_neg (by simpa using hlt)] at hfind
      obtain ⟨rfl, rfl, rfl⟩ : l ++ [] = pre ∧ ⟨bottom, e, none⟩ = it ∧ [] = post := by
        have := Option.some.inj hfind
        simpa only [Prod.mk.injEq] using this
      have hret : wsub e npages = e - npages := wsub_eq (by omega) (by omega)
      have hsum : (e - npages + npages) % word = e := by
        rw [Nat.sub_add_cancel (by omega), Nat.mod_eq_of_lt (by omega)]
      dsimp only at heq
      rw [hret, hsum, List.append_nil] at heq
      refine ⟨hbottom, ?_⟩
      split at heq
      · rename_i hfirst
        obtain ⟨rfl, rfl⟩ := Prod.mk.inj heq
        exact ⟨by omega, by omega, by rw [if_pos hfirst]⟩
      · rename_i hfirst
        obtain ⟨rfl, rfl⟩ := Prod.mk.inj heq
        exact ⟨by omega, by omega, by rw [if_neg hfirst]⟩
  · rw [hregions, ← List.append_nil l, find_append hs.used.handler, find] at hfind
    cases hfind

/-- What a call returns is recorded. Source: `sys/vmem_allocator.cpp` `VMemAllocator::Alloc`. Kind: L -/
theorem Allocated.mono {r g : Region H} (hr : Allocated s r)
    (hreturned : s'.returned = s.returned ++ [g]) : Allocated s' r := by
  obtain ⟨g', hg', h1, h2⟩ := hr
  exact ⟨g', hreturned ▸ List.mem_append_left _ hg', h1, h2⟩

/-- The regions after a call that takes pages. Source: `sys/vmem_allocator.cpp` `VMemAllocator::Alloc`.
Kind: L -/
theorem Shape.carve (hs : Shape s e l) (hlt : ret < e)
    (hregions : s'.regions = l ++ [⟨ret, e, some h⟩] ++ [⟨bottom, ret, none⟩] ∧ bottom < ret ∨
      s'.regions = l ++ [⟨ret, e, some h⟩] ∧ ret = bottom)
    (hreturned : s'.returned = s.returned ++ [⟨ret, e, some h⟩]) :
    Shape s' ret (l ++ [⟨ret, e, some h⟩]) where
  used := hs.used.snoc hlt hs.used.le_top
  regions := hregions
  empty := iff_of_false (by rw [hreturned]; simp) (by simp)
  allocated r hr := by
    rcases List.mem_append.mp hr with hr | hr
    · exact (hs.allocated r hr).mono hreturned
    · rw [List.mem_singleton.mp hr]
      exact ⟨_, hreturned ▸ List.mem_append_right _ (List.mem_singleton_self _), rfl, rfl⟩
  above g hg := by
    rw [hreturned] at hg
    rcases List.mem_append.mp hg with hg | hg
    · exact hlt.le.trans (hs.above g hg)
    · rw [List.mem_singleton.mp hg]

/-- The regions after a call for no pages: the lowest region in use has the handler, or there is an
empty one at the top.
Source: `sys/vmem_allocator.cpp` `VMemAllocator::Alloc`
Kind: L -/
theorem Shape.carveNothing (hs : Shape s e l) (hbottom : bottom < e)
    (hregions : s'.regions = emplace ⟨e, e, some h⟩ (l ++ [⟨bottom, e, none⟩]))
    (hreturned : s'.returned = s.returned ++ [⟨e, e, some h⟩]) : ∃ l', Shape s' e l' := by
  have habove : ∀ g ∈ s'.returned, e ≤ g.first := by
    intro g hg
    rw [hreturned] at hg
    rcases List.mem_append.mp hg with hg | hg
    · exact hs.above g hg
    · rw [List.mem_singleton.mp hg]
  have hne : s'.returned ≠ [] := by rw [hreturned]; simp
  rcases hs.used.last with ⟨rfl, rfl⟩ | ⟨l₀, x, rfl, hx⟩
  · refine ⟨[⟨top, top, some h⟩], ⟨⟨?_, ?_, List.pairwise_singleton _ _, ?_, ?_⟩, ?_, ?_, ?_, habove⟩⟩
    · intro r hr
      rw [List.mem_singleton.mp hr]
      rfl
    · intro r hr
      rw [List.mem_singleton.mp hr]
      exact ⟨le_rfl, le_rfl, le_rfl⟩
    · exact fun p hp hp' => absurd hp hp'.not_ge
    · exact Or.inr ⟨[], _, rfl, rfl⟩
    · left
      rw [hregions, List.nil_append, emplace, if_neg hbottom.not_gt, if_neg hbottom.ne']
      exact ⟨rfl, hbottom⟩
    · exact iff_of_false hne (by simp)
    · intro r hr
      rw [List.mem_singleton.mp hr]
      exact ⟨_, hreturned ▸ List.mem_append_right _ (List.mem_singleton_self _), rfl, rfl⟩
  · have hbefore : ∀ y ∈ l₀, e < y.first := by
      intro y hy
      have := (List.pairwise_append.mp hs.used.down).2.2 y hy x (List.mem_singleton_self x)
      omega
    refine ⟨l₀ ++ [{ x with pageFaultHandler := some h }],
      ⟨hs.used.replace, ?_, ?_, fun r hr => ?_, habove⟩⟩
    · left
      rw [hregions, List.append_assoc, emplace_append hbefore, List.singleton_append, emplace,
        if_neg (show ¬ e < x.first by omega), if_pos hx.symm, List.append_assoc]
      exact ⟨rfl, hbottom⟩
    · exact iff_of_false hne (by simp)
    · rcases List.mem_append.mp hr with hr | hr
      · exact (hs.allocated r (List.mem_append_left _ hr)).mono hreturned
      · rw [List.mem_singleton.mp hr]
        exact (hs.allocated x (List.mem_append_right _ (List.mem_singleton_self x))).mono hreturned

/-- **Every call** leaves the regions in use one above the other.
Source: `sys/vmem_allocator.cpp` `VMemAllocator::Alloc`
Kind: L -/
theorem Shape.step (hs : Shape s e l) (hlegal : handledSystem.legal s c)
    (hstep : handledSystem.step s c = some s') : ∃ e' l', Shape s' e' l' := by
  obtain ⟨ret, halloc, hreturned⟩ := step_eq_some hstep
  obtain ⟨h, hh⟩ := Option.isSome_iff_exists.mp hlegal.1
  rw [hh] at halloc hreturned
  obtain ⟨hbottom, hlo, hret, hregions⟩ := hs.alloc halloc
  rw [hret] at hreturned
  by_cases hzero : c.npages = 0
  · -- nothing is taken: the key is that of the lowest region in use
    obtain rfl : ret = e := by omega
    rw [if_neg hbottom.ne'] at hregions
    exact ⟨ret, hs.carveNothing hbottom hregions hreturned⟩
  · have hlt : ret < e := by omega
    refine ⟨ret, l ++ [⟨ret, e, some h⟩], hs.carve hlt ?_ hreturned⟩
    by_cases hfirst : ret = bottom
    · rw [if_pos hfirst] at hregions
      exact Or.inr ⟨hfirst ▸ hregions, hfirst⟩
    · have hbefore : ∀ y ∈ l, ret < y.first := fun y hy => hlt.trans_le (hs.used.bounds y hy).1
      rw [if_neg hfirst, emplace_append hbefore, emplace, if_neg (by simp only; omega),
        if_neg hfirst] at hregions
      refine Or.inl ⟨?_, by omega⟩
      rw [hregions, List.append_assoc]
      rfl

/-- Before the first call everything is free.
Source: `sys/vmem_allocator.cpp` `VMemAllocator::VMemAllocator`
Kind: L -/
theorem shape_init : Shape (State.init : State H) top [] where
  used := ⟨fun r hr => absurd hr List.not_mem_nil, fun r hr => absurd hr List.not_mem_nil,
    List.Pairwise.nil, fun p hp hp' => absurd hp hp'.not_ge, Or.inl ⟨rfl, rfl⟩⟩
  regions := Or.inl ⟨rfl, by decide⟩
  empty := iff_of_true rfl rfl
  allocated r hr := absurd hr List.not_mem_nil
  above g hg := absurd hg List.not_mem_nil

/-- Every run leaves the regions in use one above the other.
Source: `sys/vmem_allocator.cpp` `VMemAllocator::Alloc`
Kind: L -/
theorem exists_shape {as : List (Call H)} (hrun : handledSystem.Run State.init as s) :
    ∃ e l, Shape s e l :=
  hrun.invariant (I := fun s => ∃ e l, Shape s e l) ⟨top, [], shape_init⟩
    fun _ _ _ ⟨_, _, hs⟩ hlegal hstep => hs.step hlegal hstep

/-! ## The lookup -/

variable {addr : ℕ} {r : Region H}

/-- An allocated region is one in use. Source: `sys/vmem_allocator.cpp` `VMemAllocator::Alloc`.
Kind: L -/
theorem Shape.allocated_iff (hs : Shape s e l) (hr : r ∈ s.regions) : Allocated s r ↔ r ∈ l := by
  refine ⟨fun hall => ?_, hs.allocated r⟩
  rcases hs.regions with ⟨hregions, hbottom⟩ | ⟨hregions, -⟩
  · rw [hregions] at hr
    rcases List.mem_append.mp hr with hr | hr
    · exact hr
    · obtain rfl := List.mem_singleton.mp hr
      obtain ⟨g, hg, hfirst, -⟩ := hall
      have := hs.above g hg
      simp only at hfirst
      omega
  · exact hregions ▸ hr

/-- The entries are in descending order and apart. Source: `sys/vmem_allocator.hpp` `regions_`.
Kind: L -/
theorem Shape.down (hs : Shape s e l) :
    s.regions.Pairwise fun a b => b.first < a.first ∧ b.stop ≤ a.first := by
  rcases hs.regions with ⟨hregions, hbottom⟩ | ⟨hregions, -⟩
  · rw [hregions]
    refine List.pairwise_append.mpr ⟨hs.used.down, List.pairwise_singleton _ _, fun a ha b hb => ?_⟩
    obtain rfl := List.mem_singleton.mp hb
    have := (hs.used.bounds a ha).1
    exact ⟨by simp only; omega, this⟩
  · rw [hregions]
    exact hs.used.down

/-- The entries lie in the initial region. Source: `sys/vmem_allocator.hpp` `regions_`. Kind: L -/
theorem Shape.bounds (hs : Shape s e l) (hr : r ∈ s.regions) :
    bottom ≤ r.first ∧ r.first ≤ r.stop ∧ r.stop ≤ top := by
  rcases hs.regions with ⟨hregions, hbottom⟩ | ⟨hregions, hbottom⟩
  · rw [hregions] at hr
    rcases List.mem_append.mp hr with hr | hr
    · obtain ⟨h1, h2, h3⟩ := hs.used.bounds r hr
      exact ⟨by omega, h2, h3⟩
    · rw [List.mem_singleton.mp hr]
      exact ⟨le_rfl, hbottom.le, hs.used.le_top⟩
  · obtain ⟨h1, h2, h3⟩ := hs.used.bounds r (hregions ▸ hr)
    exact ⟨by omega, h2, h3⟩

/-- The entries leave no gap. Source: `sys/vmem_allocator.hpp` `regions_`. Kind: L -/
theorem Shape.cover (hs : Shape s e l) {p : ℕ} (hlo : bottom ≤ p) (hhi : p < top) :
    ∃ r ∈ s.regions, r.first ≤ p ∧ p < r.stop := by
  rcases hs.regions with ⟨hregions, hbottom⟩ | ⟨hregions, hbottom⟩
  · rw [hregions]
    rcases Nat.lt_or_ge p e with hpe | hpe
    · exact ⟨_, List.mem_append_right _ (List.mem_singleton_self _), hlo, hpe⟩
    · obtain ⟨r, hr, h1, h2⟩ := hs.used.cover p hpe hhi
      exact ⟨r, List.mem_append_left _ hr, h1, h2⟩
  · rw [hregions]
    exact hs.used.cover p (by omega) hhi

/-- The entries with a handler are the ones in use. Source: `sys/vmem_allocator.cpp` `VMemAllocator::Alloc`.
Kind: L -/
theorem Shape.handler_iff (hs : Shape s e l) (hr : r ∈ s.regions) :
    r.pageFaultHandler.isSome = true ↔ r ∈ l := by
  refine ⟨fun hsome => ?_, hs.used.handler r⟩
  rcases hs.regions with ⟨hregions, -⟩ | ⟨hregions, -⟩
  · rw [hregions] at hr
    rcases List.mem_append.mp hr with hr | hr
    · exact hr
    · rw [List.mem_singleton.mp hr] at hsome
      cases hsome
  · exact hregions ▸ hr

/-- The page of an address decides whether a region has it. Source: `sys/pfn.hpp` `pfn_to_addr`.
Kind: L -/
theorem holds_iff (hr : r.first ≤ r.stop) (htop : r.stop ≤ top) :
    r.Holds addr ↔ r.first ≤ pfnDown addr ∧ pfnDown addr < r.stop := by
  have hmax : top < maxPfn := by decide
  have hdown : pfnDown addr = addr / pageSize := Nat.shiftRight_eq_div_pow addr pageShift
  unfold Region.Holds
  rw [pfnToAddr_of_lt (by omega), pfnToAddr_of_lt (by omega), hdown,
    Nat.le_div_iff_mul_le (by decide), Nat.div_lt_iff_lt_mul (by decide)]

/-- The next page boundary, or zero for the last addresses. Source: `sys/pfn.hpp` `pfn_up`. Kind: L -/
theorem pfnUp_eq (addr : ℕ) (haddr : addr < word) :
    pfnUp addr = if addr ≤ word - pageSize then (addr + pageSize - 1) / pageSize else 0 := by
  have hsize : pageSize = 4096 := rfl
  have hword : word = 2 ^ 64 := rfl
  unfold pfnUp
  rw [Nat.shiftRight_eq_div_pow, show 2 ^ pageShift = pageSize from rfl]
  split
  · rw [Nat.mod_eq_of_lt (by omega)]
  · rw [Nat.mod_eq_sub_mod (by omega), Nat.mod_eq_of_lt (by omega), Nat.div_eq_of_lt (by omega)]

/-- A region that has the address is found. Source: `sys/vmem_allocator.cpp` `VMemAllocator::HandlePageFault`.
Kind: L -/
theorem Shape.lowerBound_of_holds (hs : Shape s e l) (hr : r ∈ s.regions) {p : ℕ}
    (hlo : r.first ≤ p) (hhi : p < r.stop) : lowerBound p s.regions = some r := by
  obtain ⟨a, b, hab⟩ := List.append_of_mem hr
  have hdown := hs.down
  rw [hab] at hdown ⊢
  refine List.find?_eq_some_iff_append.mpr ⟨decide_eq_true hlo, a, b, rfl, fun x hx => ?_⟩
  have := ((List.pairwise_append.mp hdown).2.2 x hx r List.mem_cons_self).2
  simp only [Bool.not_eq_true', decide_eq_false_iff_not]
  omega

/-- Above all regions, the highest is found. Source: `sys/vmem_allocator.cpp` `VMemAllocator::HandlePageFault`.
Kind: L -/
theorem Shape.lowerBound_of_top_le (hs : Shape s e l) {p : ℕ} (hp : top ≤ p) :
    ∃ x ∈ s.regions, lowerBound p s.regions = some x ∧ x.stop = top ∧
      (x.pageFaultHandler = none ↔ s.returned = []) := by
  have htop : bottom ≤ top - 1 ∧ top - 1 < top := by decide
  obtain ⟨r, hr, -, hhi⟩ := hs.cover htop.1 htop.2
  have hdown := hs.down
  cases hregions : s.regions with
  | nil =>
      rw [hregions] at hr
      cases hr
  | cons x rest =>
      have hx : x ∈ s.regions := hregions ▸ List.mem_cons_self
      obtain ⟨-, h2, h3⟩ := hs.bounds hx
      have hstop : x.stop = top := by
        rw [hregions] at hr hdown
        rcases List.mem_cons.mp hr with rfl | hr
        · omega
        · have := ((List.pairwise_cons.mp hdown).1 r hr).2
          omega
      refine ⟨x, List.mem_cons_self, ?_, hstop, ?_⟩
      · exact List.find?_cons_of_pos (decide_eq_true (by omega))
      · rw [hs.empty, ← Option.not_isSome_iff_eq_none, hs.handler_iff hx]
        constructor
        · intro hxl
          rcases hs.regions with ⟨heq, -⟩ | ⟨heq, -⟩
          · cases l with
            | nil => rfl
            | cons y l =>
                obtain ⟨rfl, -⟩ := List.cons.inj (hregions.symm.trans heq)
                exact absurd List.mem_cons_self hxl
          · exact absurd (heq ▸ hx) hxl
        · rintro rfl
          exact List.not_mem_nil

/-- Where no region in use has the address, the fault should abort.
Source: `sys/vmem_allocator.cpp` `VMemAllocator::HandlePageFault`
Kind: L -/
theorem faultReaches_iff_error (hno : ∀ r ∈ s.regions, ¬ (Allocated s r ∧ r.Holds addr))
    (hown : ∀ r h, handlePageFault addr s.regions = .ok (r, h) → r ∈ s.regions ∧
      r.pageFaultHandler = some h) :
    FaultReaches s addr ↔ ∃ message, handlePageFault addr s.regions = .error message := by
  constructor
  · exact fun h => h.aborts fun ⟨r, hr, hin⟩ => hno r hr hin
  · rintro ⟨message, herror⟩
    refine ⟨fun r hr => iff_of_false ?_ (hno r hr), hown, fun _ => ⟨message, herror⟩⟩
    rintro ⟨h, hok⟩
    rw [herror] at hok
    cases hok

/-- What is called is the handler of an entry. Source: `sys/vmem_allocator.cpp` `VMemAllocator::HandlePageFault`.
Kind: L -/
theorem handlePageFault_eq_ok {regions : List (Region H)}
    (hok : handlePageFault addr regions = .ok (r, h)) :
    lowerBound (pfnDown addr) regions = some r ∧ ¬ r.stop < pfnUp addr ∧
      r ∈ regions ∧ r.pageFaultHandler = some h := by
  unfold handlePageFault at hok
  split at hok
  · cases hok
  · rename_i it hit
    split at hok
    · cases hok
    · rename_i hstop
      split at hok
      · cases hok
      · rename_i h' hh
        obtain ⟨rfl, rfl⟩ := Prod.mk.inj (Except.ok.inj hok)
        exact ⟨hit, hstop, List.mem_of_find?_eq_some hit, hh⟩

/-- A fault inside the initial region reaches the region that has the address.
Source: `sys/vmem_allocator.cpp` `VMemAllocator::HandlePageFault`
Kind: L -/
theorem Shape.faultReaches_inside (hs : Shape s e l) (haddr : addr < word)
    (hlo : bottom ≤ pfnDown addr) (hhi : pfnDown addr < top) : FaultReaches s addr := by
  obtain ⟨r, hr, h1, h2⟩ := hs.cover hlo hhi
  have hfound := hs.lowerBound_of_holds hr h1 h2
  have hend : ¬ r.stop < pfnUp addr := by
    have hdown : pfnDown addr = addr / pageSize := Nat.shiftRight_eq_div_pow addr pageShift
    have hsize : pageSize = 4096 := rfl
    rw [hdown, hsize] at h2
    rw [pfnUp_eq addr haddr, hsize]
    split <;> omega
  have hcode : handlePageFault addr s.regions = match r.pageFaultHandler with
      | none => .error "Fault on a free region!\n"
      | some h => .ok (r, h) := by
    unfold handlePageFault
    rw [hfound]
    dsimp only
    rw [if_neg hend]
  -- the region found is the only one with the address
  have hunique : ∀ r' ∈ s.regions, r'.Holds addr → r' = r := by
    intro r' hr' hin
    obtain ⟨-, hb, ht⟩ := hs.bounds hr'
    obtain ⟨h1', h2'⟩ := (holds_iff hb ht).mp hin
    exact Option.some.inj ((hs.lowerBound_of_holds hr' h1' h2').symm.trans hfound)
  obtain ⟨-, hb, ht⟩ := hs.bounds hr
  have hin : r.Holds addr := (holds_iff hb ht).mpr ⟨h1, h2⟩
  refine ⟨fun r' hr' => ?_, fun r' h hok => (handlePageFault_eq_ok hok).2.2, fun hno => ?_⟩
  · rw [hs.allocated_iff hr', ← hs.handler_iff hr', Option.isSome_iff_exists]
    constructor
    · rintro ⟨h, hok⟩
      obtain ⟨hfound', -, -, hh⟩ := handlePageFault_eq_ok hok
      obtain rfl := Option.some.inj (hfound'.symm.trans hfound)
      exact ⟨⟨h, hh⟩, hin⟩
    · rintro ⟨⟨h, hh⟩, hin'⟩
      obtain rfl := hunique r' hr' hin'
      rw [hh] at hcode
      exact ⟨h, hcode⟩
  · cases hh : r.pageFaultHandler with
    | none =>
        rw [hh] at hcode
        exact ⟨_, hcode⟩
    | some h =>
        refine absurd ⟨r, hr, (hs.allocated_iff hr).mpr ((hs.handler_iff hr).mp ?_), hin⟩ hno
        rw [hh]
        rfl

/-- A fault below the initial region aborts. Source: `sys/vmem_allocator.cpp` `VMemAllocator::HandlePageFault`.
Kind: L -/
theorem Shape.faultReaches_below (hs : Shape s e l) (hlo : pfnDown addr < bottom) :
    FaultReaches s addr := by
  have hnone : lowerBound (pfnDown addr) s.regions = none := by
    refine List.find?_eq_none.mpr fun r hr hle => ?_
    have := (hs.bounds hr).1
    have := of_decide_eq_true hle
    omega
  refine (faultReaches_iff_error (fun r hr hin => ?_) fun r h hok =>
    (handlePageFault_eq_ok hok).2.2).mpr ⟨"Could not find region for faulting address!\n", ?_⟩
  · obtain ⟨h1, h2, h3⟩ := hs.bounds hr
    have := ((holds_iff h2 h3).mp hin.2).1
    omega
  · unfold handlePageFault
    rw [hnone]

/-- A fault above the initial region should abort, and does so when nothing is in use, or when the next
page boundary is above the initial region too.
Source: `sys/vmem_allocator.cpp` `VMemAllocator::HandlePageFault`
Kind: L -/
theorem Shape.faultReaches_above (hs : Shape s e l) (hhi : top ≤ pfnDown addr) :
    FaultReaches s addr ↔ s.returned = [] ∨ top < pfnUp addr := by
  obtain ⟨x, hx, hfound, hstop, hnone⟩ := hs.lowerBound_of_top_le hhi
  have hno : ∀ r ∈ s.regions, ¬ (Allocated s r ∧ r.Holds addr) := by
    intro r hr hin
    obtain ⟨-, h2, h3⟩ := hs.bounds hr
    have := ((holds_iff h2 h3).mp hin.2).2
    omega
  rw [faultReaches_iff_error hno fun r h hok => (handlePageFault_eq_ok hok).2.2, ← hnone]
  unfold handlePageFault
  rw [hfound]
  dsimp only
  rw [hstop]
  by_cases hend : top < pfnUp addr
  · rw [if_pos hend]
    exact iff_of_true ⟨_, rfl⟩ (Or.inr hend)
  · rw [if_neg hend]
    cases x.pageFaultHandler with
    | none => exact iff_of_true ⟨_, rfl⟩ (Or.inl rfl)
    | some h =>
        refine iff_of_false ?_ (not_or.mpr ⟨by simp, hend⟩)
        rintro ⟨message, herror⟩
        cases herror

/-- **Faults reach the right region exactly when** nothing is allocated yet, or the address is neither
the one right behind the initial region nor one of the last page of all, other than its first.
Source: `sys/vmem_allocator.cpp` `VMemAllocator::HandlePageFault`
Kind: P -/
theorem handlePageFault_exactlyWhen (H : Type*) (as : List (Call H)) (s : State H)
    (hrun : handledSystem.Run State.init as s) (addr : ℕ) (haddr : addr < word) :
    FaultReaches s addr ↔
      s.returned = [] ∨ addr ≠ pfnToAddr top ∧ addr ≤ word - pageSize := by
  obtain ⟨e, l, hs⟩ := exists_shape hrun
  have hsize : pageSize = 4096 := rfl
  have hword : word = 2 ^ 64 := rfl
  have htop : top = 0xFFFFFFFF00000 := by decide
  have haddrTop : pfnToAddr top = 0xFFFFFFFF00000000 := by decide
  have hdown : pfnDown addr = addr / pageSize := Nat.shiftRight_eq_div_pow addr pageShift
  rcases Nat.lt_or_ge (pfnDown addr) top with hhi | hhi
  · have hright : addr ≠ pfnToAddr top ∧ addr ≤ word - pageSize := by
      rw [hdown, hsize] at hhi
      rw [haddrTop, hsize]
      omega
    refine iff_of_true ?_ (Or.inr hright)
    rcases Nat.lt_or_ge (pfnDown addr) bottom with hlo | hlo
    · exact hs.faultReaches_below hlo
    · exact hs.faultReaches_inside haddr hlo hhi
  · rw [hs.faultReaches_above hhi]
    refine or_congr_right ?_
    rw [hdown, hsize] at hhi
    rw [pfnUp_eq addr haddr, haddrTop, hsize]
    split <;> omega

/-- One stack of two pages, and a fault in its first page.
Source: `sys/event_manager.cpp` `EventManager::AllocateStack`
Kind: P -/
theorem handlePageFault_exactlyWhen_stack : ∃ s : State ℕ,
    handledSystem.Run State.init [⟨2, some 0⟩] s ∧ FaultReaches s 0xFFFFFFFEFFFFE010 := by
  have hadmits : (handledSystem (H := ℕ)).Admits State.init [⟨2, some 0⟩] := by decide
  obtain ⟨s, -, hrun⟩ := Lib.System.Run.of_admits hadmits
  exact ⟨s, hrun, (handlePageFault_exactlyWhen ℕ _ s hrun _ (by decide)).mpr
    (Or.inr (by decide))⟩

/-- The same stack, and a fault right behind it: its handler is called.
Source: `sys/vmem_allocator.cpp` `VMemAllocator::HandlePageFault`
Kind: P -/
theorem not_faultReaches_behind : ¬ ∀ (as : List (Call ℕ)) (s : State ℕ),
    handledSystem.Run State.init as s → ∀ addr < word, FaultReaches s addr := by
  intro hclaim
  have hadmits : (handledSystem (H := ℕ)).Admits State.init [⟨2, some 0⟩] := by decide
  obtain ⟨s, hexec, hrun⟩ := Lib.System.Run.of_admits hadmits
  have hregions : s.regions = [⟨top - 2, top, some 0⟩, ⟨bottom, top - 2, none⟩] := by
    obtain rfl := Option.some.inj hexec
    decide
  have hreaches := hclaim _ s hrun 0xFFFFFFFF00000000 (by decide)
  have hcalled : handlePageFault 0xFFFFFFFF00000000 s.regions = .ok (⟨top - 2, top, some 0⟩, 0) := by
    rw [hregions]
    decide
  have hholds := ((hreaches.invokes _ (hreaches.own _ _ hcalled).1).mp ⟨0, hcalled⟩).2.2
  exact absurd hholds (by decide)

end VMemAllocator

end EbbRT
