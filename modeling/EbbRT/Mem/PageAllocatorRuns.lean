import EbbRT.Mem.PageAllocatorInit

/-!
# The buddy allocator over whole runs

Two systems run on the same code. `buddySystem` is one allocator and its callers, started from any
set of aligned blocks on its lists: is the set of pages conserved, block by block? `numaSystem` is
all allocators together, started from any boot layout, called from the CPUs of any node: do pages
stay with their node?

`Free` spoils both. It looks the buddy up on either side but keeps the page number it was called
with, so that merging with a *lower* buddy makes a block that starts in the middle
(`buddySystem_exactlyWhen`); and it works on the lists of the calling CPU's node, whatever node the
block or its buddy belongs to (`numaSystem_always`).
-/

namespace EbbRT

open EbbRT.Lib

namespace PageState

/-! ## One allocator -/

/-- One allocator and the blocks its callers hold.
Source: `sys/page_allocator.hpp` `PageAllocator`
Kind: D -/
structure BuddyState where
  pages : PageState
  held : List Block

/-- The calls.
Source: `sys/page_allocator.hpp` `PageAllocator`
Kind: D -/
inductive BuddyOp where
  | allocLocal (order : ℕ)
  | free (pfn order : ℕ)
  deriving DecidableEq, Repr

/-- A block is freed with the order it was allocated with, and once.
Source: `sys/page_allocator.hpp` `PageAllocator`
Kind: D -/
def BuddyLegal (s : BuddyState) : BuddyOp → Prop
  | .allocLocal order => order ≤ maxOrder
  | .free pfn order => ⟨pfn, order⟩ ∈ s.held

instance : ∀ (s : BuddyState) (op : BuddyOp), Decidable (BuddyLegal s op)
  | _, .allocLocal _ => inferInstanceAs (Decidable (_ ≤ _))
  | _, .free _ _ => inferInstanceAs (Decidable (_ ∈ _))

/-- One call on the allocator of node `n`.
Source: `sys/page_allocator.cpp` `PageAllocator::AllocLocal`, `PageAllocator::Free`
Kind: D -/
def buddyStep (n : ℕ) (s : BuddyState) : BuddyOp → Option BuddyState
  | .allocLocal order =>
      (PageState.allocLocal n order s.pages).map fun r =>
        match r.1 with
        | none => ⟨r.2, s.held⟩
        | some pfn => ⟨r.2, ⟨pfn, order⟩ :: s.held⟩
  | .free pfn order =>
      (PageState.free n pfn order s.pages).map fun p => ⟨p, s.held.erase ⟨pfn, order⟩⟩

/-- One allocator under every caller.
Source: `sys/page_allocator.hpp` `PageAllocator`
Kind: D -/
def buddySystem (n : ℕ) : System BuddyState BuddyOp := ⟨BuddyLegal, buddyStep n⟩

instance (n : ℕ) (s : BuddyState) (op : BuddyOp) : Decidable ((buddySystem n).legal s op) :=
  inferInstanceAs (Decidable (BuddyLegal s op))

/-- Nothing is held yet, and the given blocks are on the free lists.
Source: `sys/page_allocator.cpp` `PageAllocator::early_free_page`
Kind: D -/
def BuddyState.init (n : ℕ) (present : ℕ → Bool) (blocks : List Block) : Option BuddyState :=
  (blocks.foldlM (fun s b => earlyFreePage b.start b.order n s) (boot present)).map fun s => ⟨s, []⟩

/-- The free blocks and the held ones are disjoint and aligned and make up the initial pages.
Source: none: infrastructure
Kind: D -/
structure Conserved (n : ℕ) (blocks : List Block) (s : BuddyState) : Prop where
  tiles : Partitions Block.cells (s.held ++ s.pages.freeBlocks n) {p | ∃ b ∈ blocks, p ∈ b.cells}
  aligned : ∀ b ∈ s.held ++ s.pages.freeBlocks n, b.Aligned

/-- The calls that the code handles: `AllocLocal` does not come to a block at page 0, and a `Free` never
merges with a buddy below the block.
Source: `sys/page_allocator.cpp` `PageAllocator::AllocLocal`, `PageAllocator::Free`
Kind: D -/
def Handled (n : ℕ) (s : BuddyState) : BuddyOp → Prop
  | .allocLocal order => ¬TakesNull n order s.pages
  | .free pfn order => s.pages.MergesUp pfn order

instance (n : ℕ) : ∀ (s : BuddyState) (op : BuddyOp), Decidable (Handled n s op)
  | s, .allocLocal order => inferInstanceAs (Decidable (¬TakesNull n order s.pages))
  | s, .free pfn order => inferInstanceAs (Decidable (s.pages.MergesUp pfn order))

variable {n : ℕ} {present : ℕ → Bool} {blocks : List Block} {s s' : PageState}

/-- All pages belong to node `n`. Source: none: infrastructure. Kind: D -/
def onlyNode (n : ℕ) (S : Set ℕ) : ℕ → Set ℕ := Function.update (fun _ => ∅) n S

/-- All blocks are held from node `n`. Source: none: infrastructure. Kind: D -/
def onlyHeld (n : ℕ) (l : List Block) : ℕ → List Block := Function.update (fun _ => []) n l

/-- Placing the given blocks one after another.
Source: `sys/page_allocator.cpp` `PageAllocator::early_free_page`
Kind: L -/
theorem Inv.place {held : ℕ → List Block} {S : Set ℕ} (h : Inv s held (onlyNode n S))
    (hdis : blocks.Pairwise fun a b => Disjoint a.cells b.cells) (hal : ∀ b ∈ blocks, b.Aligned)
    (hnew : ∀ b ∈ blocks, Disjoint S b.cells)
    (hs' : blocks.foldlM (fun s b => PageState.earlyFreePage b.start b.order n s) s = some s') :
    Inv s' held (onlyNode n (S ∪ {p | ∃ b ∈ blocks, p ∈ b.cells})) := by
  induction blocks generalizing s S with
  | nil =>
      obtain rfl := Option.some.inj hs'
      simpa using h
  | cons b rest ih =>
      obtain ⟨hb, hrest⟩ := List.pairwise_cons.mp hdis
      rw [List.foldlM_cons] at hs'
      obtain ⟨s₁, h1, h2⟩ := Option.bind_eq_some_iff.mp hs'
      have hinv := h.earlyFreePage (hal b (by simp)) (fun m => by
        by_cases hm : m = n
        · subst hm
          simpa [onlyNode] using hnew b (by simp)
        · simp [onlyNode, Function.update_of_ne hm]) h1
      rw [show Function.update (onlyNode n S) n (onlyNode n S n ∪ b.cells) =
        onlyNode n (S ∪ b.cells) by simp [onlyNode]] at hinv
      have := ih hinv hrest (fun b' hb' => hal b' (by simp [hb']))
        (fun b' hb' => Set.disjoint_union_left.mpr ⟨hnew b' (by simp [hb']), hb b' hb'⟩) h2
      rwa [show S ∪ {p | ∃ b' ∈ b :: rest, p ∈ b'.cells} =
        S ∪ b.cells ∪ {p | ∃ b' ∈ rest, p ∈ b'.cells} by
          ext p
          simp [or_assoc]]

/-- The invariant of one allocator, as an instance of that of all.
Source: none: infrastructure
Kind: D -/
def BuddyInv (n : ℕ) (blocks : List Block) (s : BuddyState) : Prop :=
  Inv s.pages (onlyHeld n s.held) (onlyNode n {p | ∃ b ∈ blocks, p ∈ b.cells})

/-- The invariant holds at the start. Source: none: infrastructure. Kind: L -/
theorem buddyInv_init {t : BuddyState}
    (hdis : blocks.Pairwise fun a b => Disjoint a.cells b.cells) (hal : ∀ b ∈ blocks, b.Aligned)
    (ht : BuddyState.init n present blocks = some t) : BuddyInv n blocks t := by
  obtain ⟨s, hs, rfl⟩ := Option.map_eq_some_iff.mp ht
  have h := inv_boot present
  have hnode : (fun _ => ∅ : ℕ → Set ℕ) = onlyNode n ∅ := by simp [onlyNode]
  have hheld : (fun _ => [] : ℕ → List Block) = onlyHeld n [] := by simp [onlyHeld]
  rw [hnode, hheld] at h
  simpa [BuddyInv] using h.place hdis hal (by simp) hs

/-- The invariant says that the pages are conserved. Source: none: infrastructure. Kind: L -/
theorem BuddyInv.conserved {t : BuddyState} (h : BuddyInv n blocks t) : Conserved n blocks t := by
  have hn := h.node n
  simp only [onlyHeld, onlyNode, Function.update_self] at hn
  exact ⟨by simpa using hn.tiles, by simpa using hn.aligned⟩

/-- `AllocLocal` returns and keeps the invariant where it does not come to page 0.
Source: `sys/page_allocator.cpp` `PageAllocator::AllocLocal`
Kind: L -/
theorem BuddyInv.allocLocal {t : BuddyState} {order : ℕ} (h : BuddyInv n blocks t)
    (ho : order ≤ maxOrder) (hnull : ¬TakesNull n order t.pages) :
    ∃ t', buddyStep n t (.allocLocal order) = some t' ∧ BuddyInv n blocks t' := by
  have hn := h.node n
  rw [onlyHeld, Function.update_self] at hn
  rcases hn.allocLocal ho hnull with hnone | ⟨p, s', hsome, hn', hf⟩
  · exact ⟨t, by simp [buddyStep, hnone], h⟩
  · refine ⟨⟨s', ⟨p, order⟩ :: t.held⟩, by simp [buddyStep, hsome], ?_⟩
    have := Inv.step h hn' hf
    rwa [onlyHeld, Function.update_idem] at this

/-- A block at page 0 that `AllocLocal` comes to is lost.
Source: `sys/page_allocator.cpp` `PageAllocator::AllocLocal`
Kind: L -/
theorem BuddyInv.not_conserved_of_takesNull {t t' : BuddyState} {order : ℕ} (h : BuddyInv n blocks t)
    (ho : order ≤ maxOrder) (hnull : TakesNull n order t.pages)
    (hstep : buddyStep n t (.allocLocal order) = some t') : ¬Conserved n blocks t' := by
  intro hcons
  have hn := h.node n
  rw [onlyHeld, onlyNode, Function.update_self, Function.update_self] at hn
  obtain ⟨k, s', hcall, hlost, -⟩ := hn.allocLocal_null ho hnull
  obtain rfl : ⟨s', t.held⟩ = t' := by
    rw [buddyStep, hcall] at hstep
    exact Option.some.inj hstep
  -- page 0 is one of the initial pages, and in no block any more
  have hpage : 0 ∈ {p | ∃ b ∈ blocks, p ∈ b.cells} := hlost.start_mem
  obtain ⟨b, hb, hmem⟩ := (hcons.tiles.cover 0).mp hpage
  have hdisjoint : Disjoint (⟨0, k⟩ : Block).cells b.cells := hlost.tiles.disjoint_of_cons hb
  exact Set.disjoint_left.mp hdisjoint (Block.start_mem_cells ⟨0, k⟩) hmem

/-- `Free` returns and keeps the invariant when it merges upward only: a frame marked free is a
page of the node.
Source: `sys/page_allocator.cpp` `PageAllocator::Free`
Kind: L -/
theorem BuddyInv.free {t : BuddyState} {pfn order : ℕ} (h : BuddyInv n blocks t)
    (hheld : ⟨pfn, order⟩ ∈ t.held) (hup : t.pages.MergesUp pfn order) :
    ∃ t', buddyStep n t (.free pfn order) = some t' ∧ BuddyInv n blocks t' := by
  have hin : t.pages.MergesWithin pfn order (onlyNode n {p | ∃ b ∈ blocks, p ∈ b.cells} n) := by
    intro i _ hpass
    obtain ⟨-, husage, -⟩ := isFree_iff.mp (hpass.2 i (by omega) hpass.1)
    obtain ⟨m, hm⟩ := h.outside _ husage
    by_cases hmn : m = n
    · exact hmn ▸ hm
    · rw [onlyNode, Function.update_of_ne hmn] at hm
      exact absurd hm (Set.notMem_empty _)
  obtain ⟨⟨s', hs', hinv⟩, -⟩ := Inv.free (n := n) h (by simpa [onlyHeld] using hheld) hup hin
  refine ⟨⟨s', t.held.erase ⟨pfn, order⟩⟩, by simp [buddyStep, hs'], ?_⟩
  simpa [BuddyInv, onlyHeld] using hinv

/-- The loop of `Free` climbs, by no more levels than it is given.
Source: `sys/page_allocator.cpp` `PageAllocator::Free`
Kind: L -/
theorem coalesce_order_bounds (pfn fuel order : ℕ) (s : PageState) :
    order ≤ (coalesce pfn fuel order s).1 ∧ (coalesce pfn fuel order s).1 ≤ order + fuel := by
  induction fuel generalizing order s with
  | zero => exact ⟨le_rfl, le_rfl⟩
  | succ fuel ih =>
      simp only [coalesce]
      split
      · obtain ⟨h1, h2⟩ := ih (order + 1) (s.unlink (pfnToBuddy pfn order))
        exact ⟨by omega, by omega⟩
      · exact ⟨le_rfl, by omega⟩

/-- The loop of `Free` ends above every level it passes.
Source: `sys/page_allocator.cpp` `PageAllocator::Free`
Kind: L -/
theorem lt_coalesce_order {pfn fuel order i : ℕ} (hi : i < order + fuel)
    (h : s.Passes pfn order i) : i < (coalesce pfn fuel order s).1 := by
  induction fuel generalizing order s with
  | zero =>
      have := h.1
      omega
  | succ fuel ih =>
      have hfree := h.2 order (by have := h.1; omega) le_rfl
      simp only [coalesce, hfree, if_true]
      rcases Nat.eq_or_lt_of_le h.1 with rfl | hlt
      · exact (coalesce_order_bounds ..).1
      · exact ih (by omega) ⟨hlt, fun j hj hoj => h.2 j hj (by omega)⟩

/-- `Free` leaves a free block at the frame it was called with, above every level it passed.
Source: `sys/page_allocator.cpp` `PageAllocator::Free`
Kind: L -/
theorem freeBlocks_of_free {pfn order : ℕ} (h : PageState.free n pfn order s = some s') :
    ∃ k, ⟨pfn, k⟩ ∈ s'.freeBlocks n ∧ ∀ i < maxOrder, s.Passes pfn order i → i < k := by
  unfold PageState.free at h
  split at h
  · rename_i ho
    obtain ⟨-, hle⟩ := coalesce_order_bounds pfn (maxOrder - order) order s
    refine ⟨(coalesce pfn (maxOrder - order) order s).1, ?_,
      fun i hi hpass => lt_coalesce_order (by omega) hpass⟩
    simp only [freePageNoCoalesce] at h
    split at h
    · cases h
    · obtain rfl := Option.some.inj h
      exact mem_binned.mpr ⟨by simp only; omega, by simp⟩
  · cases h

/-- If the block that `Free` leaves is aligned, every merge was with the buddy above.
Source: `sys/page_allocator.cpp` `PageAllocator::Free`
Kind: L -/
theorem mergesUp_of_aligned {pfn order : ℕ} (h : PageState.free n pfn order s = some s')
    (hal : ∀ b ∈ s'.freeBlocks n, b.Aligned) : s.MergesUp pfn order := by
  obtain ⟨k, hmem, hlt⟩ := freeBlocks_of_free h
  intro i hi hpass
  have hdvd : 2 ^ (i + 1) ∣ pfn := (Nat.pow_dvd_pow 2 (hlt i hi hpass)).trans (hal _ hmem)
  have := Nat.two_pow_pos i
  rw [pfnToBuddy_eq, buddy_of_dvd hdvd]
  omega

/-- **The buddy allocator over whole runs.** From any disjoint aligned blocks, as long as no
`AllocLocal` comes to a block at page 0 and no `Free` merges with a buddy below its block, no call
aborts and after every call the free blocks and the held ones are disjoint and aligned and make up
exactly the initial pages; the first call of either kind breaks this.
Source: `sys/page_allocator.cpp` `PageAllocator::Free`, `PageAllocator::AllocLocal`
Kind: P
Fidelity: weaker than the code promises: `Handled` leaves out a block at page 0, which is lost, and a merge
with a buddy below
Hyps: `hdis`, `hal`: the blocks that `Init` adds for one node -/
theorem buddySystem_exactlyWhen (n : ℕ) (present : ℕ → Bool) (blocks : List Block) (t : BuddyState)
    (hdis : blocks.Pairwise fun a b => Disjoint a.cells b.cells) (hal : ∀ b ∈ blocks, b.Aligned)
    (ht : BuddyState.init n present blocks = some t) :
    Conserved n blocks t ∧
      (buddySystem n).ExactlyWhen t (fun _ _ s' => Conserved n blocks s') (Handled n) ∧
      ∀ as s op, ((buddySystem n).guard (Handled n)).Run t as s → BuddyLegal s op →
        Handled n s op → (buddyStep n s op).isSome := by
  have hkeep : ∀ s op, BuddyInv n blocks s → BuddyLegal s op → Handled n s op →
      ∃ s', buddyStep n s op = some s' ∧ BuddyInv n blocks s' := by
    intro s op hinv hlegal hok
    cases op with
    | allocLocal order => exact hinv.allocLocal hlegal hok
    | free pfn order => exact hinv.free hlegal hok
  have hrun : ∀ as s, ((buddySystem n).guard (Handled n)).Run t as s → BuddyInv n blocks s := by
    intro as s h
    refine h.invariant (buddyInv_init hdis hal ht) fun s op s' hinv hlegal hstep => ?_
    obtain ⟨s'', hs'', hinv'⟩ := hkeep s op hinv hlegal.1 hlegal.2
    obtain rfl : s'' = s' := Option.some.inj (hs''.symm.trans hstep)
    exact hinv'
  refine ⟨(buddyInv_init hdis hal ht).conserved, ?_, ?_⟩
  · intro as s op s' h hlegal hstep
    constructor
    · intro hcons
      cases op with
      | allocLocal order =>
          intro hnull
          exact (hrun as s h).not_conserved_of_takesNull hlegal hnull hstep hcons
      | free pfn order =>
          obtain ⟨p, hp, rfl⟩ := Option.map_eq_some_iff.mp hstep
          exact mergesUp_of_aligned hp fun b hb => hcons.aligned b (List.mem_append_right _ hb)
    · intro hok
      obtain ⟨s'', hs'', hinv'⟩ := hkeep s op (hrun as s h) hlegal hok
      obtain rfl : s'' = s' := Option.some.inj (hs''.symm.trans hstep)
      exact hinv'.conserved
  · intro as s op h hlegal hok
    obtain ⟨s', hs', -⟩ := hkeep s op (hrun as s h) hlegal hok
    simp [hs']

/-- A block of two pages, split for two callers and freed in the order that merges upward.
Source: `sys/page_allocator.cpp` `PageAllocator::Free`
Kind: C -/
theorem buddySystem_exactlyWhen_merged :
    ∃ t s s', BuddyState.init 0 (fun _ => true) [⟨2, 1⟩] = some t ∧
      ((buddySystem 0).guard (Handled 0)).Run t
        [.allocLocal 0, .allocLocal 0, .free 3 0] s ∧
      buddyStep 0 s (.free 2 0) = some s' ∧ Conserved 0 [⟨2, 1⟩] s' ∧ s'.pages.lists 0 1 = [2] := by
  obtain ⟨t, ht, hadm⟩ : ∃ t, BuddyState.init 0 (fun _ => true) [⟨2, 1⟩] = some t ∧
      ((buddySystem 0).guard (Handled 0)).Admits t
        ([.allocLocal 0, .allocLocal 0, .free 3 0] ++ [.free 2 0]) := ⟨_, rfl, by decide⟩
  obtain ⟨s, s', hexec, hrun, hlegal, hstep⟩ := hadm.last
  refine ⟨t, s, s', ht, hrun, hstep, ?_, ?_⟩
  · have h := buddySystem_exactlyWhen 0 (fun _ => true) [⟨2, 1⟩] t (by simp) (by decide) ht
    exact (h.2.1 _ _ _ _ hrun hlegal.1 hstep).mpr hlegal.2
  · obtain rfl := Option.some.inj ht
    obtain rfl := Option.some.inj hexec
    obtain rfl := Option.some.inj hstep
    rfl

/-- The same two pages freed in the other order: the upper page merges with the lower one and
keeps its own number, so that the free block of order 1 starts at page 3.
Source: `sys/page_allocator.cpp` `PageAllocator::Free`
Kind: P -/
theorem buddySystem_not_always :
    ¬ ∀ n present blocks t, blocks.Pairwise (fun a b => Disjoint a.cells b.cells) →
      (∀ b ∈ blocks, b.Aligned) → BuddyState.init n present blocks = some t →
        (buddySystem n).Always t fun _ _ s' => Conserved n blocks s' := by
  intro hall
  obtain ⟨t, ht, hadm⟩ : ∃ t, BuddyState.init 0 (fun _ => true) [⟨2, 1⟩] = some t ∧
      (buddySystem 0).Admits t
        ([.allocLocal 0, .allocLocal 0, .free 2 0] ++ [.free 3 0]) := ⟨_, rfl, by decide⟩
  refine System.not_always_of_admits hadm (fun s s' hs hs' hcons => ?_)
    (hall 0 (fun _ => true) [⟨2, 1⟩] t (by simp) (by decide) ht)
  have hlist : s'.pages.lists 0 1 = [3] := by
    obtain rfl := Option.some.inj ht
    obtain rfl := Option.some.inj hs
    obtain rfl := Option.some.inj hs'
    rfl
  have hmem : (⟨3, 1⟩ : Block) ∈ s'.held ++ s'.pages.freeBlocks 0 :=
    List.mem_append_right _ (mem_binned.mpr ⟨by decide, by simp [hlist]⟩)
  exact absurd (hcons.aligned _ hmem) (by decide)

/-! ## All allocators -/

/-- All allocators, and for each node the blocks callers hold that were asked of it.
Source: `sys/page_allocator.cpp` `PageAllocator::allocators`
Kind: D -/
structure NumaState where
  pages : PageState
  held : ℕ → List Block

/-- The calls, with the node of the CPU that makes them. A free also names the node the block was
asked of, which the code does not know. `SlabCache::FlushFreeList` frees through the current CPU's
`page_allocator`, as every caller does.
Source: `sys/page_allocator.hpp` `PageAllocator`, `sys/slab_allocator.cpp` `SlabCache::FlushFreeList`
Kind: D -/
inductive NumaOp where
  | alloc (cpu order nid : ℕ)
  | free (cpu owner pfn order : ℕ)
  deriving DecidableEq, Repr

/-- A block is freed with the order it was allocated with, and once, from any CPU.
Source: `sys/page_allocator.hpp` `PageAllocator`
Kind: D -/
def NumaLegal (s : NumaState) : NumaOp → Prop
  | .alloc _ order _ => order ≤ maxOrder
  | .free _ owner pfn order => ⟨pfn, order⟩ ∈ s.held owner

instance : ∀ (s : NumaState) (op : NumaOp), Decidable (NumaLegal s op)
  | _, .alloc _ _ _ => inferInstanceAs (Decidable (_ ≤ _))
  | _, .free _ _ _ _ => inferInstanceAs (Decidable (_ ∈ _))

/-- One call through the `page_allocator` of a CPU.
Source: `sys/page_allocator.cpp` `PageAllocator::HandleFault`, `PageAllocator::Alloc`, `PageAllocator::Free`
Kind: D -/
def numaStep (s : NumaState) : NumaOp → Option NumaState
  | .alloc cpu order nid =>
      (PageState.alloc cpu order nid s.pages).map fun r =>
        match r.1 with
        | none => ⟨r.2, s.held⟩
        | some pfn => ⟨r.2, Function.update s.held nid (⟨pfn, order⟩ :: s.held nid)⟩
  | .free cpu owner pfn order =>
      (PageState.free cpu pfn order s.pages).map fun p =>
        ⟨p, Function.update s.held owner ((s.held owner).erase ⟨pfn, order⟩)⟩

/-- All allocators under every caller.
Source: `sys/page_allocator.cpp` `PageAllocator::allocators`
Kind: D -/
def numaSystem : System NumaState NumaOp := ⟨NumaLegal, numaStep⟩

instance (s : NumaState) (op : NumaOp) : Decidable (numaSystem.legal s op) :=
  inferInstanceAs (Decidable (NumaLegal s op))

/-- Nothing is held yet, and `Init` has built the free lists.
Source: `sys/page_allocator.cpp` `PageAllocator::Init`
Kind: D -/
def NumaState.init (present : ℕ → Bool) (ranges : EarlyPageAllocator.FreePages) :
    Option NumaState :=
  (PageState.init ranges (boot present)).map fun s => ⟨s, fun _ => []⟩

/-- Every block on a node's free lists consists of pages that `Init` gave to the node.
Source: none: infrastructure
Kind: D -/
def FreeOwned (pages : ℕ → Set ℕ) (s : PageState) : Prop :=
  ∀ n, ∀ b ∈ s.freeBlocks n, b.cells ⊆ pages n

/-- What a call may hand out or unlink: a block of the node asked for, and entries that are on no
other allocator's list.
Source: none: infrastructure
Kind: D -/
def CallOwned (pages : ℕ → Set ℕ) (s : NumaState) : NumaOp → Prop
  | .alloc cpu order nid =>
      ∀ pfn s', PageState.alloc cpu order nid s.pages = some (some pfn, s') →
        (⟨pfn, order⟩ : Block).cells ⊆ pages nid
  | .free cpu _ pfn order =>
      ∀ q ∈ unlinked pfn (maxOrder - order) order s.pages, ∀ m, m ≠ cpu → ∀ k ≤ maxOrder,
        q ∉ s.pages.lists m k

/-- What every call should do: keep the pages of the free lists with their nodes, and hand out or
unlink only what the node owns.
Source: none: infrastructure
Kind: D -/
def StepOwned (pages : ℕ → Set ℕ) (s : NumaState) (op : NumaOp) (s' : NumaState) : Prop :=
  FreeOwned pages s'.pages ∧ CallOwned pages s op

/-- The calls that the code handles: a `Free` is made from a CPU of the node the block was asked
of, merges only with buddies of that node, and with none below the block.
Source: `sys/page_allocator.cpp` `PageAllocator::Free`
Kind: D -/
def FreesAtHome (pages : ℕ → Set ℕ) (s : NumaState) : NumaOp → Prop
  | .alloc _ _ _ => True
  | .free cpu owner pfn order =>
      cpu = owner ∧ s.pages.MergesWithin pfn order (pages owner) ∧ s.pages.MergesUp pfn order

instance (pages : ℕ → Set ℕ) [∀ n, DecidablePred (· ∈ pages n)] :
    ∀ (s : NumaState) (op : NumaOp), Decidable (FreesAtHome pages s op)
  | _, .alloc _ _ _ => inferInstanceAs (Decidable True)
  | _, .free _ _ _ _ => inferInstanceAs (Decidable (_ ∧ _ ∧ _))

variable {pages : ℕ → Set ℕ} {t : NumaState}

/-- The invariant says that the free lists hold only pages of their node.
Source: none: infrastructure
Kind: L -/
theorem Inv.freeOwned {held : ℕ → List Block} (h : Inv s held pages) : FreeOwned pages s :=
  fun n _ hb _ hp => (h.node n).tiles.mem_of_mem_part (List.mem_append_right _ hb) hp

/-- `Alloc` works on the allocator of the node asked for, whichever CPU calls.
Source: `sys/page_allocator.cpp` `PageAllocator::Alloc`
Kind: L -/
theorem alloc_eq (cpu order nid : ℕ) (s : PageState) :
    PageState.alloc cpu order nid s = allocLocal nid order s := by
  unfold PageState.alloc
  split
  · rename_i h
    rw [h]
  · rfl

/-- `Alloc` returns, keeps the invariant and hands out pages of the node asked for; a block at page 0 that
it comes to is added to those that are lost.
Source: `sys/page_allocator.cpp` `PageAllocator::Alloc`
Kind: L -/
theorem Inv.alloc {order : ℕ} (cpu nid : ℕ) (lost : ℕ → List Block)
    (h : Inv t.pages (fun n => lost n ++ t.held n) pages) (ho : order ≤ maxOrder) :
    ∃ t' lost', numaStep t (.alloc cpu order nid) = some t' ∧
      Inv t'.pages (fun n => lost' n ++ t'.held n) pages ∧ CallOwned pages t (.alloc cpu order nid) ∧
      (¬TakesNull nid order t.pages → lost' = lost) := by
  by_cases hnull : TakesNull nid order t.pages
  · obtain ⟨k, s', hcall, hlost, hf⟩ := (h.node nid).allocLocal_null ho hnull
    refine ⟨⟨s', t.held⟩, Function.update lost nid (⟨0, k⟩ :: lost nid), ?_, ?_, fun pfn s'' hs'' => ?_,
      absurd hnull⟩
    · simp only [numaStep, alloc_eq, hcall, Option.map_some]
    · refine (h.step hlost.lose hf).perm fun n => ?_
      rcases eq_or_ne n nid with rfl | hn
      · simp only [Function.update_self, List.cons_append]
        exact List.Perm.refl _
      · simp only [Function.update_of_ne hn]
        exact List.Perm.refl _
    · rw [alloc_eq, hcall] at hs''
      exact (Option.some_ne_none _ (Prod.mk.inj (Option.some.inj hs'')).1.symm).elim
  · rcases (h.node nid).allocLocal ho hnull with hnone | ⟨p, s', hsome, hn', hf⟩
    · refine ⟨t, lost, by simp [numaStep, alloc_eq, hnone], h, fun pfn s' hs' => ?_, fun _ => rfl⟩
      rw [alloc_eq, hnone] at hs'
      exact (Option.some_ne_none _ (Prod.mk.inj (Option.some.inj hs')).1.symm).elim
    · refine ⟨⟨s', Function.update t.held nid (⟨p, order⟩ :: t.held nid)⟩, lost,
        by simp [numaStep, alloc_eq, hsome], ?_, fun pfn s'' hs'' => ?_, fun _ => rfl⟩
      · refine (h.step hn' hf).perm fun n => ?_
        rcases eq_or_ne n nid with rfl | hn
        · simp only [Function.update_self]
          exact List.perm_middle.symm
        · simp only [Function.update_of_ne hn]
          exact List.Perm.refl _
      · rw [alloc_eq, hsome] at hs''
        obtain ⟨rfl, rfl⟩ : p = pfn ∧ s' = s'' := by simpa using hs''
        intro q hq
        exact hn'.tiles.mem_of_mem_part (x := ⟨p, order⟩) (by simp) hq

/-- `Free` at home returns, keeps the invariant and unlinks entries of the node only; blocks that were lost
stay lost.
Source: `sys/page_allocator.cpp` `PageAllocator::Free`
Kind: L -/
theorem Inv.freeAtHome {cpu owner pfn order : ℕ} {lost : ℕ → List Block}
    (h : Inv t.pages (fun n => lost n ++ t.held n) pages) (hheld : ⟨pfn, order⟩ ∈ t.held owner)
    (hhome : FreesAtHome pages t (.free cpu owner pfn order)) :
    ∃ t', numaStep t (.free cpu owner pfn order) = some t' ∧
      Inv t'.pages (fun n => lost n ++ t'.held n) pages ∧ CallOwned pages t (.free cpu owner pfn order) := by
  obtain ⟨rfl, hin, hup⟩ := hhome
  obtain ⟨⟨s', hs', hinv⟩, hown⟩ := h.free (List.mem_append_right _ hheld) hup hin
  refine ⟨⟨s', Function.update t.held cpu ((t.held cpu).erase ⟨pfn, order⟩)⟩, ?_, hinv.perm fun n => ?_, hown⟩
  · simp only [numaStep, hs', Option.map_some]
  · rcases eq_or_ne n cpu with rfl | hn
    · simp only [Function.update_self]
      have hcons := (List.perm_cons_erase hheld).append_left (lost n)
      have hmiddle := hcons.trans List.perm_middle
      have herase := hmiddle.erase ⟨pfn, order⟩
      rwa [List.erase_cons_head] at herase
    · simp only [Function.update_of_ne hn]
      exact List.Perm.refl _

/-- **Pages stay with their node over whole runs.** From any boot layout, as long as every `Free`
is made from a CPU of the node the block was asked of, merges only with buddies of that node and
with none below the block: no call aborts, the free lists of a node hold only pages that `Init`
gave to it, `Alloc` returns pages of the node asked for, and `Free` unlinks no entry of another
allocator.
Source: `sys/page_allocator.cpp` `PageAllocator::Init`, `PageAllocator::Alloc`, `PageAllocator::Free`
Kind: P
Fidelity: weaker than the code promises: `FreesAtHome` leaves out frees on another node's CPU and merges
across nodes or downward
Hyps: `hl`: the ranges as the early page allocator keeps them -/
theorem numaSystem_always (present : ℕ → Bool) (ranges : EarlyPageAllocator.FreePages)
    (t : NumaState) (hl : Layout ranges) (ht : NumaState.init present ranges = some t) :
    FreeOwned (nodePages ranges) t.pages ∧
      (numaSystem.guard (FreesAtHome (nodePages ranges))).Always t (StepOwned (nodePages ranges)) ∧
      ∀ as s op, (numaSystem.guard (FreesAtHome (nodePages ranges))).Run t as s →
        NumaLegal s op → FreesAtHome (nodePages ranges) s op → (numaStep s op).isSome := by
  set pages := nodePages ranges
  have hkeep : ∀ (s : NumaState) (op : NumaOp) (lost : ℕ → List Block),
      Inv s.pages (fun n => lost n ++ s.held n) pages → NumaLegal s op → FreesAtHome pages s op →
      ∃ (s' : NumaState) (lost' : ℕ → List Block), numaStep s op = some s' ∧
        Inv s'.pages (fun n => lost' n ++ s'.held n) pages ∧ CallOwned pages s op := by
    intro s op lost hinv hlegal hok
    cases op with
    | alloc cpu order nid =>
        obtain ⟨s', lost', hs', hinv', hcall, -⟩ := hinv.alloc cpu nid lost hlegal
        exact ⟨s', lost', hs', hinv', hcall⟩
    | free cpu owner pfn order =>
        obtain ⟨s', hs', hinv', hcall⟩ := hinv.freeAtHome hlegal hok
        exact ⟨s', lost, hs', hinv', hcall⟩
  have hinit : Inv t.pages t.held pages := by
    obtain ⟨s, hs, rfl⟩ := Option.map_eq_some_iff.mp ht
    exact inv_init hl hs
  have hrun : ∀ as s, (numaSystem.guard (FreesAtHome pages)).Run t as s →
      ∃ lost : ℕ → List Block, Inv s.pages (fun n => lost n ++ s.held n) pages := by
    intro as s h
    refine h.invariant (I := fun s => ∃ lost : ℕ → List Block, Inv s.pages (fun n => lost n ++ s.held n) pages)
      ⟨fun _ => [], hinit⟩ fun s op s' hlost hlegal hstep => ?_
    obtain ⟨lost, hinv⟩ := hlost
    obtain ⟨s'', lost', hs'', hinv', -⟩ := hkeep s op lost hinv hlegal.1 hlegal.2
    obtain rfl : s'' = s' := Option.some.inj (hs''.symm.trans hstep)
    exact ⟨lost', hinv'⟩
  refine ⟨hinit.freeOwned, ?_, ?_⟩
  · intro as s op s' h hlegal hstep
    obtain ⟨lost, hinv⟩ := hrun as s h
    obtain ⟨s'', lost', hs'', hinv', hcall⟩ := hkeep s op lost hinv hlegal.1 hlegal.2
    obtain rfl : s'' = s' := Option.some.inj (hs''.symm.trans hstep)
    exact ⟨hinv'.freeOwned, hcall⟩
  · intro as s op h hlegal hok
    obtain ⟨lost, hinv⟩ := hrun as s h
    obtain ⟨s', lost', hs', -⟩ := hkeep s op lost hinv hlegal hok
    simp [hs']

/-- Two nodes of two pages each. Source: none: infrastructure. Kind: L -/
theorem layout_twoNodes : Layout [⟨2, 2, 0⟩, ⟨4, 2, 1⟩] := by
  refine ⟨?_, by decide⟩
  simp

/-- A page of node 1 is allocated from a CPU of node 0 and freed from a CPU of node 1, where it
merges with the rest of its block.
Source: `sys/page_allocator.cpp` `PageAllocator::Alloc`, `PageAllocator::Free`
Kind: C -/
theorem numaSystem_always_home :
    ∃ t s s', NumaState.init (fun _ => true) [⟨2, 2, 0⟩, ⟨4, 2, 1⟩] = some t ∧
      numaSystem.Run t [.alloc 0 0 1] s ∧ numaStep s (.free 1 1 4 0) = some s' ∧
      StepOwned (nodePages [⟨2, 2, 0⟩, ⟨4, 2, 1⟩]) s (.free 1 1 4 0) s' ∧
      s'.pages.lists 1 1 = [4] := by
  obtain ⟨t, ht, hadm⟩ : ∃ t, NumaState.init (fun _ => true) [⟨2, 2, 0⟩, ⟨4, 2, 1⟩] = some t ∧
      (numaSystem.guard (FreesAtHome (nodePages [⟨2, 2, 0⟩, ⟨4, 2, 1⟩]))).Admits t
        ([.alloc 0 0 1] ++ [.free 1 1 4 0]) := ⟨_, rfl, by decide⟩
  obtain ⟨s, s', hexec, hrun, hlegal, hstep⟩ := hadm.last
  refine ⟨t, s, s', ht, hrun.of_guard, hstep, ?_, ?_⟩
  · have h := numaSystem_always (fun _ => true) _ t layout_twoNodes ht
    exact h.2.1 _ _ _ _ hrun hlegal hstep
  · obtain rfl := Option.some.inj ht
    obtain rfl := Option.some.inj hexec
    obtain rfl := Option.some.inj hstep
    rfl

/-- A page of node 1 freed from a CPU of node 0 ends up on the free list of node 0.
Source: `sys/page_allocator.cpp` `PageAllocator::Free`
Kind: P -/
theorem numaSystem_not_always :
    ¬ ∀ present ranges t, Layout ranges → NumaState.init present ranges = some t →
      numaSystem.Always t (StepOwned (nodePages ranges)) := by
  intro hall
  obtain ⟨t, ht, hadm⟩ : ∃ t, NumaState.init (fun _ => true) [⟨2, 2, 0⟩, ⟨4, 2, 1⟩] = some t ∧
      numaSystem.Admits t ([.alloc 0 0 1] ++ [.free 0 1 4 0]) := ⟨_, rfl, by decide⟩
  refine System.not_always_of_admits hadm (fun s s' hs hs' hsafe => ?_)
    (hall (fun _ => true) _ t layout_twoNodes ht)
  have hlist : s'.pages.lists 0 1 = [4, 2] := by
    obtain rfl := Option.some.inj ht
    obtain rfl := Option.some.inj hs
    obtain rfl := Option.some.inj hs'
    rfl
  have hmem : (⟨4, 1⟩ : Block) ∈ s'.pages.freeBlocks 0 :=
    mem_binned.mpr ⟨by decide, by simp [hlist]⟩
  exact absurd (hsafe.1 0 _ hmem (Block.start_mem_cells _)) (by decide)

end PageState

end EbbRT
