import EbbRT.Lib.Canonical
import EbbRT.Mem.PageAllocatorRuns

/-!
# Coalescing is complete

If the free blocks of a node have no two buddies of one order at the start, then they never have, and
when everything has been freed they are the initial blocks again: `AllocLocal` gives upper halves back
whose lower halves are split or held, and the loop of `Free` ends at a block whose buddy is not free.
Both hold as long as no `Free` merges with a buddy below the block, where the merged block gets the
wrong number (`buddySystem_exactlyWhen`).
-/

namespace EbbRT

open EbbRT.Lib

namespace PageState

/-- No two free blocks of one order are buddies, and all blocks lie inside the initial ones.
Source: `sys/page_allocator.cpp` `PageAllocator::Free`
Kind: D -/
structure Tight (blocks : List Block) (n : ℕ) (cur held : List Block) (s : PageState) : Prop where
  noBuddies : NoBuddies maxOrder (s.freeBlocks n)
  inside : Inside blocks (cur ++ held ++ s.freeBlocks n)

variable {n : ℕ} {blocks cur held rest : List Block} {s s' : PageState} {S : Set ℕ} {p k : ℕ}

/-- The block is one more free block.
Source: `sys/page_allocator.cpp` `PageAllocator::FreePageNoCoalesce`
Kind: L -/
theorem freeBlocks_freePageNoCoalesce (hk : k ≤ maxOrder)
    (h : freePageNoCoalesce n p k s = some s') :
    (s'.freeBlocks n).Perm (⟨p, k⟩ :: s.freeBlocks n) := by
  have hlists : s'.lists = (s.setList n k (p :: s.lists n k)).lists := by
    unfold freePageNoCoalesce at h
    dsimp only at h
    cases hpage : (s.setList n k (p :: s.lists n k)).pfnToPage p with
    | none =>
        rw [hpage] at h
        cases h
    | some page =>
        rw [hpage] at h
        cases h
        rfl
  unfold freeBlocks
  rw [hlists]
  refine binned_cons (Nat.lt_succ_of_le hk) (setList_lists_self s n k _) fun j _ hj => ?_
  exact setList_lists_of_ne (Or.inr hj) s _

/-- Unlinking only takes free blocks away.
Source: `sys/page_allocator.cpp` `PageAllocator::Free`
Kind: L -/
theorem freeBlocks_unlink {q : ℕ} {b : Block} (hb : b ∈ (s.unlink q).freeBlocks n) :
    b ∈ s.freeBlocks n := by
  obtain ⟨horder, hmem⟩ := mem_binned.mp hb
  exact mem_binned.mpr ⟨horder, List.mem_of_mem_erase hmem⟩

namespace Tight

/-- Put the block in hand on its list, if its buddy is not free.
Source: `sys/page_allocator.cpp` `PageAllocator::FreePageNoCoalesce`
Kind: L -/
theorem push (h : Tight blocks n (⟨p, k⟩ :: cur) held s) (hk : k ≤ maxOrder)
    (hb : k < maxOrder → ⟨buddy p k, k⟩ ∉ s.freeBlocks n)
    (hs' : freePageNoCoalesce n p k s = some s') : Tight blocks n cur held s' := by
  have hperm := freeBlocks_freePageNoCoalesce hk hs'
  refine ⟨(h.noBuddies.cons hb).subset fun b hb => hperm.mem_iff.mp hb, fun b hb => h.inside b ?_⟩
  simp only [List.mem_append, List.mem_cons, hperm.mem_iff, List.cons_append] at hb ⊢
  tauto

/-- Take the head block of a list in hand.
Source: `sys/page_allocator.cpp` `PageAllocator::AllocLocal`
Kind: L -/
theorem pop {l : List ℕ} (h : Tight blocks n cur held s) (hk : k ≤ maxOrder)
    (hl : s.lists n k = p :: l) : Tight blocks n (⟨p, k⟩ :: cur) held (s.setList n k l) := by
  have hfree : (s.freeBlocks n).Perm (⟨p, k⟩ :: (s.setList n k l).freeBlocks n) :=
    binned_cons (Nat.lt_succ_of_le hk) (by simpa using hl) fun j _ hj => by
      rw [setList_lists_of_ne (Or.inr hj)]
  refine ⟨h.noBuddies.subset fun b hb => hfree.mem_iff.mpr (List.mem_cons_of_mem _ hb),
    fun b hb => h.inside b ?_⟩
  simp only [List.mem_append, List.mem_cons, hfree.mem_iff, List.cons_append] at hb ⊢
  tauto

/-- Split the block in hand. Source: `sys/page_allocator.cpp` `PageAllocator::AllocLocal`. Kind: L -/
theorem split (h : Tight blocks n (⟨p, k + 1⟩ :: cur) held s) :
    Tight blocks n (⟨p + 2 ^ k, k⟩ :: ⟨p, k⟩ :: cur) held s := by
  refine ⟨h.noBuddies, fun b hb => ?_⟩
  obtain ⟨c, hc, hsub⟩ := h.inside ⟨p, k + 1⟩ (by simp)
  rw [Block.cells_succ] at hsub
  simp only [List.cons_append, List.mem_cons] at hb
  rcases hb with rfl | rfl | hb
  · exact ⟨c, hc, fun q hq => hsub (Or.inr hq)⟩
  · exact ⟨c, hc, fun q hq => hsub (Or.inl hq)⟩
  · exact h.inside b (by simp only [List.cons_append]; exact List.mem_cons_of_mem _ hb)

/-- The upper halves that the split loop gives back have their buddy in hand.
Source: `sys/page_allocator.cpp` `PageAllocator::AllocLocal`
Kind: L -/
theorem splitTo {order d : ℕ} (hinv : NodeInv s n [⟨p, order + d⟩] held S)
    (h : Tight blocks n [⟨p, order + d⟩] held s) (hs' : PageState.splitTo n p order d s = some s') :
    Tight blocks n [⟨p, order⟩] held s' := by
  induction d generalizing s with
  | zero =>
      cases hs'
      exact h
  | succ d ih =>
      have hinv' : NodeInv s n [⟨p, (order + d) + 1⟩] held S := hinv
      have hal : 2 ^ (order + d + 1) ∣ p := hinv.aligned ⟨p, order + d + 1⟩ (List.mem_cons_self ..)
      have hsmall : order + d + 1 ≤ maxOrder :=
        hinv.small ⟨p, order + d + 1⟩ (List.mem_cons_self ..)
      obtain ⟨s₁, h1, hinv₁, -⟩ := hinv'.split.push
      have hbuddy : buddy (p + 2 ^ (order + d)) (order + d) = p := by
        rw [← buddy_of_dvd hal, buddy_buddy]
      -- the lower half starts where the block in hand does
      have hnot : ⟨buddy (p + 2 ^ (order + d)) (order + d), order + d⟩ ∉ s.freeBlocks n := by
        rw [hbuddy]
        intro hmem
        exact hinv.start_ne (List.mem_append_right _ hmem) rfl
      have h' : Tight blocks n [⟨p, order + d + 1⟩] held s := h
      have htight := h'.split.push (by omega) (fun _ => hnot) h1
      rw [PageState.splitTo, pfnToBuddy_eq, buddy_of_dvd hal, h1, Option.bind_some] at hs'
      exact ih hinv₁ htight hs'

/-- **`AllocLocal` leaves no buddies** where it does not come to a block at page 0.
Source: `sys/page_allocator.cpp` `PageAllocator::AllocLocal`
Kind: L -/
theorem allocLocal {order : ℕ} {r : Option ℕ × PageState} (hinv : NodeInv s n [] held S)
    (h : Tight blocks n [] held s) (hnull : ¬TakesNull n order s)
    (hr : PageState.allocLocal n order s = some r) :
    Tight blocks n [] (match r.1 with | none => held | some pfn => ⟨pfn, order⟩ :: held) r.2 := by
  unfold PageState.allocLocal at hr
  cases hfind : s.findFree n (maxOrder + 1 - order) order with
  | none =>
      rw [hfind] at hr
      cases hr
      exact h
  | some found =>
      obtain ⟨j, q⟩ := found
      have hq : q ≠ 0 := by
        rintro rfl
        exact hnull (by rw [TakesNull, hfind]; rfl)
      rw [hfind] at hr
      dsimp only at hr
      rw [if_neg hq] at hr
      obtain ⟨hj, hj', hlist, -⟩ := findFree_eq_some hfind
      obtain ⟨d, rfl⟩ := Nat.exists_eq_add_of_le hj
      have hle : order + d ≤ maxOrder := by omega
      obtain ⟨hpop, -⟩ := hinv.pop hle hlist
      obtain ⟨s₂, h2, hr⟩ := Option.bind_eq_some_iff.mp hr
      rw [Nat.add_sub_cancel_left] at h2
      have htight := Tight.splitTo hpop (h.pop hle hlist) h2
      cases hpage : s₂.pfnToPage q with
      | none =>
          rw [hpage] at hr
          cases hr
      | some page =>
          rw [hpage] at hr
          cases hr
          exact ⟨htight.noBuddies, htight.inside⟩

/-- **The loop of `Free` goes as far as it can.** It ends at a block whose buddy is not free, inside
the initial blocks.
Source: `sys/page_allocator.cpp` `PageAllocator::Free`
Kind: P -/
theorem coalesce {T : ℕ → Set ℕ} {others : ℕ → List Block} {fuel : ℕ}
    (hal : ∀ b ∈ blocks, b.Aligned) (hno : NoBuddies maxOrder blocks)
    (hinv : NodeInv s n [⟨p, k⟩] rest (T n))
    (hoth : ∀ m, m ≠ n → NodeInv s m [] (others m) (T m) ∧ Disjoint (T n) (T m))
    (hfuel : k + fuel = maxOrder) (hup : s.MergesUp p k) (hin : s.MergesWithin p k (T n))
    (h : Tight blocks n [⟨p, k⟩] rest s) :
    Tight blocks n [⟨p, (PageState.coalesce p fuel k s).1⟩] rest (PageState.coalesce p fuel k s).2 ∧
      ((PageState.coalesce p fuel k s).1 < maxOrder →
        ⟨buddy p (PageState.coalesce p fuel k s).1, (PageState.coalesce p fuel k s).1⟩ ∉
          (PageState.coalesce p fuel k s).2.freeBlocks n) := by
  induction fuel generalizing k s with
  | zero =>
      refine ⟨h, fun hlt => ?_⟩
      have hk : k < maxOrder := hlt
      omega
  | succ fuel ih =>
      by_cases hfree : s.isFree (pfnToBuddy p k) k = true
      · have hco : PageState.coalesce p (fuel + 1) k s =
            PageState.coalesce p fuel (k + 1) (s.unlink (pfnToBuddy p k)) := by
          rw [PageState.coalesce]
          rw [if_pos hfree]
        have hpass : s.Passes p k k := ⟨le_rfl, fun j hj hkj => by
          obtain rfl : j = k := by omega
          exact hfree⟩
        have hkmax : k < maxOrder := by omega
        have hlt := hup k hkmax hpass
        have hmem := hin k hkmax hpass
        have hpassed : ∀ i, (s.unlink (pfnToBuddy p k)).Passes p (k + 1) i → s.Passes p k i :=
          fun i hi => hi.of_unlink hfree
        rw [hco]
        rw [pfnToBuddy_eq] at hlt hmem hfree hpassed ⊢
        have hb : buddy p k ∈ s.lists n k := hinv.buddy_mem hmem (Nat.ne_of_gt (Nat.zero_lt_of_lt hlt)) hfree
        obtain ⟨hinv', hf⟩ := hinv.merge hkmax hlt hb
          fun m j hj => not_mem_other hinv hoth (Nat.le_of_lt hkmax) hb m j hj
        have hp : 2 ^ k ∣ p := hinv.aligned ⟨p, k⟩ (List.mem_cons_self ..)
        obtain ⟨heq, hdvd⟩ := buddy_of_lt hp hlt
        have hfreeb : (⟨p + 2 ^ k, k⟩ : Block) ∈ s.freeBlocks n := by
          rw [← heq]
          exact mem_binned.mpr ⟨Nat.lt_succ_of_lt hkmax, hb⟩
        have hparent := inside_parent hal hno hkmax hdvd (h.inside ⟨p, k⟩ (by simp))
          (h.inside _ (List.mem_append_right _ hfreeb))
        have htight : Tight blocks n [⟨p, k + 1⟩] rest (s.unlink (buddy p k)) := by
          refine ⟨h.noBuddies.subset fun b hb => freeBlocks_unlink hb, ?_⟩
          intro b hb
          simp only [List.cons_append, List.nil_append, List.mem_cons, List.mem_append] at hb
          rcases hb with rfl | hb | hb
          · exact hparent
          · exact h.inside b (by simp [hb])
          · exact h.inside b (by simp [freeBlocks_unlink hb])
        exact ih hinv' (fun m hm => ⟨(hoth m hm).1.of_frame hm (hoth m hm).2 hf, (hoth m hm).2⟩)
          (by omega) (fun i hi hi' => hup i hi (hpassed i hi')) (fun i hi hi' => hin i hi (hpassed i hi'))
          htight
      · have hco : PageState.coalesce p (fuel + 1) k s = (k, s) := by
          simp only [PageState.coalesce, hfree]
          rfl
        rw [hco]
        refine ⟨h, fun _ hmem => hfree ?_⟩
        dsimp only at hmem
        obtain ⟨husage, horder⟩ := hinv.freeHead _ hmem
        have hS : buddy p k ∈ T n :=
          hinv.tiles.mem_of_mem_part (List.mem_append_right _ hmem) (Block.start_mem_cells _)
        rw [pfnToBuddy_eq]
        exact isFree_iff.mpr ⟨hinv.present _ hS, husage, horder⟩

/-- **`Free` leaves no buddies.**
Source: `sys/page_allocator.cpp` `PageAllocator::Free`
Kind: L -/
theorem free {T : ℕ → Set ℕ} {helds : ℕ → List Block} (hal : ∀ b ∈ blocks, b.Aligned)
    (hno : NoBuddies maxOrder blocks) (hinv : Inv s helds T) (hheld : ⟨p, k⟩ ∈ helds n)
    (hup : s.MergesUp p k) (hin : s.MergesWithin p k (T n)) (h : Tight blocks n [] (helds n) s)
    (hs' : PageState.free n p k s = some s') : Tight blocks n [] ((helds n).erase ⟨p, k⟩) s' := by
  have hk : k ≤ maxOrder := (hinv.node n).small ⟨p, k⟩ (by simpa using hheld)
  have htaken : Tight blocks n [⟨p, k⟩] ((helds n).erase ⟨p, k⟩) s := by
    refine ⟨h.noBuddies, fun b hb => h.inside b ?_⟩
    simp only [List.cons_append, List.nil_append, List.mem_cons, List.mem_append] at hb ⊢
    rcases hb with rfl | hb | hb
    · exact Or.inl hheld
    · exact Or.inl (List.mem_of_mem_erase hb)
    · exact Or.inr hb
  obtain ⟨htight, hend⟩ := htaken.coalesce hal hno ((hinv.node n).unhold hheld)
    (fun m hm => ⟨hinv.node m, hinv.disjoint n m (Ne.symm hm)⟩)
    (show k + (maxOrder - k) = maxOrder by omega) hup hin
  have hbound := (coalesce_order_bounds p (maxOrder - k) k s).2
  unfold PageState.free at hs'
  rw [if_pos hk] at hs'
  exact htight.push (by omega) hend hs'

end Tight

/-! ## Runs -/

/-- `Init` puts the given blocks on the free lists, and only blocks that it may.
Source: `sys/page_allocator.cpp` `PageAllocator::early_free_page`
Kind: L -/
theorem freeBlocks_place
    (h : blocks.foldlM (fun s b => PageState.earlyFreePage b.start b.order n s) s = some s') :
    (∀ b ∈ blocks, b.order ≤ maxOrder) ∧
      ∀ b, b ∈ s'.freeBlocks n ↔ b ∈ blocks ∨ b ∈ s.freeBlocks n := by
  induction blocks generalizing s with
  | nil =>
      cases h
      simp
  | cons b rest ih =>
      rw [List.foldlM_cons] at h
      obtain ⟨s₁, h1, h2⟩ := Option.bind_eq_some_iff.mp h
      unfold earlyFreePage at h1
      by_cases hb : b.order ≤ maxOrder
      · rw [if_pos hb] at h1
        obtain ⟨hsmall, hmem⟩ := ih h2
        have hperm := freeBlocks_freePageNoCoalesce hb h1
        refine ⟨List.forall_mem_cons.mpr ⟨hb, hsmall⟩, fun c => ?_⟩
        rw [hmem c, hperm.mem_iff, List.mem_cons, List.mem_cons]
        tauto
      · rw [if_neg hb] at h1
        cases h1

/-- No two free blocks are buddies, and when nothing is held the free blocks are the initial ones.
Source: `sys/page_allocator.cpp` `PageAllocator::Free`
Kind: D -/
structure Coalesced (n : ℕ) (blocks : List Block) (s : BuddyState) : Prop where
  noBuddies : NoBuddies maxOrder (s.pages.freeBlocks n)
  quiescent : s.held = [] → ∀ b, b ∈ s.pages.freeBlocks n ↔ b ∈ blocks

/-- The invariant of the pages, and that nothing is left to coalesce.
Source: none: infrastructure
Kind: D -/
structure TightInv (n : ℕ) (blocks : List Block) (s : BuddyState) : Prop where
  inv : BuddyInv n blocks s
  tight : Tight blocks n [] s.held s.pages

/-- Source: `sys/page_allocator.cpp` `PageAllocator::early_free_page`
Kind: L -/
theorem tightInv_init {present : ℕ → Bool} {t : BuddyState}
    (hdis : blocks.Pairwise fun a b => Disjoint a.cells b.cells) (hal : ∀ b ∈ blocks, b.Aligned)
    (hno : NoBuddies maxOrder blocks) (ht : BuddyState.init n present blocks = some t) :
    TightInv n blocks t := by
  refine ⟨buddyInv_init hdis hal ht, ?_⟩
  obtain ⟨s, hs, rfl⟩ := Option.map_eq_some_iff.mp ht
  have hmem := (freeBlocks_place hs).2
  have hboot : ∀ b, b ∉ (boot present).freeBlocks n := by
    intro b hb
    exact List.not_mem_nil (mem_binned.mp hb).2
  have hsub : ∀ b ∈ s.freeBlocks n, b ∈ blocks :=
    fun b hb => ((hmem b).mp hb).resolve_right (hboot b)
  refine ⟨hno.subset hsub, fun b hb => ⟨b, hsub b ?_, fun _ hq => hq⟩⟩
  simpa using hb

/-- **A call keeps it.**
Source: `sys/page_allocator.cpp` `PageAllocator::AllocLocal`, `PageAllocator::Free`
Kind: P -/
theorem TightInv.step {s s' : BuddyState} {op : BuddyOp} (hal : ∀ b ∈ blocks, b.Aligned)
    (hno : NoBuddies maxOrder blocks) (h : TightInv n blocks s) (hlegal : BuddyLegal s op)
    (hok : Handled n s op) (hstep : buddyStep n s op = some s') : TightInv n blocks s' := by
  have hnode := h.inv.node n
  cases op with
  | allocLocal order =>
      obtain ⟨s'', hs'', hinv'⟩ := h.inv.allocLocal hlegal hok
      obtain rfl : s'' = s' := Option.some.inj (hs''.symm.trans hstep)
      refine ⟨hinv', ?_⟩
      obtain ⟨r, hr, rfl⟩ := Option.map_eq_some_iff.mp hstep
      rw [onlyHeld, Function.update_self] at hnode
      have htight := Tight.allocLocal hnode h.tight hok hr
      obtain ⟨found, pages⟩ := r
      cases found <;> exact htight
  | free pfn order =>
      obtain ⟨s'', hs'', hinv'⟩ := h.inv.free hlegal hok
      obtain rfl : s'' = s' := Option.some.inj (hs''.symm.trans hstep)
      refine ⟨hinv', ?_⟩
      obtain ⟨pages, hpages, rfl⟩ := Option.map_eq_some_iff.mp hstep
      have hheld : onlyHeld n s.held n = s.held := Function.update_self ..
      have hin : s.pages.MergesWithin pfn order (onlyNode n {p | ∃ b ∈ blocks, p ∈ b.cells} n) := by
        intro i _ hpass
        obtain ⟨-, husage, -⟩ := isFree_iff.mp (hpass.2 i (by omega) hpass.1)
        obtain ⟨m, hm⟩ := h.inv.outside _ husage
        by_cases hmn : m = n
        · exact hmn ▸ hm
        · rw [onlyNode, Function.update_of_ne hmn] at hm
          exact absurd hm (Set.notMem_empty _)
      have htight := Tight.free (n := n) hal hno h.inv (by rw [hheld]; exact hlegal) hok hin
        (by rw [hheld]; exact h.tight) hpages
      rw [hheld] at htight
      exact htight

/-- When nothing is held the free blocks are the initial ones.
Source: `sys/page_allocator.cpp` `PageAllocator::Free`
Kind: L -/
theorem TightInv.coalesced {s : BuddyState} (hdis : blocks.Pairwise fun a b => Disjoint a.cells b.cells)
    (hal : ∀ b ∈ blocks, b.Aligned) (hsmall : ∀ b ∈ blocks, b.order ≤ maxOrder)
    (h : TightInv n blocks s) : Coalesced n blocks s := by
  refine ⟨h.tight.noBuddies, fun hheld => ?_⟩
  have hcons := h.inv.conserved
  have htiles := hcons.tiles
  have haligned := hcons.aligned
  have hinside := h.tight.inside
  rw [hheld] at htiles haligned hinside
  exact mem_iff_of_no_buddies htiles haligned hal hdis (fun c hc q hq => ⟨c, hc, hq⟩) hinside hsmall
    h.tight.noBuddies

/-- **Coalescing is complete.** From disjoint aligned blocks with no buddies among them, in every run
of calls in which no `AllocLocal` comes to a block at page 0 and no `Free` merges with a buddy below the
block, no two free blocks of one order are ever buddies, and whenever everything has been freed the free
blocks are the initial ones.
Source: `sys/page_allocator.cpp` `PageAllocator::Free`, `PageAllocator::AllocLocal`
Kind: C
Fidelity: weaker than the code promises: `Handled`, as in `buddySystem`
Hyps: `hdis`, `hal`, `hno`: the blocks that `Init` adds for one node -/
theorem coalescing_always (n : ℕ) (present : ℕ → Bool) (blocks : List Block) (t : BuddyState)
    (hdis : blocks.Pairwise fun a b => Disjoint a.cells b.cells) (hal : ∀ b ∈ blocks, b.Aligned)
    (hno : NoBuddies maxOrder blocks) (ht : BuddyState.init n present blocks = some t)
    (ops : List BuddyOp) (s : BuddyState) (hrun : ((buddySystem n).guard (Handled n)).Run t ops s) :
    Coalesced n blocks s := by
  have hsmall : ∀ b ∈ blocks, b.order ≤ maxOrder := by
    obtain ⟨pages, hpages, -⟩ := Option.map_eq_some_iff.mp ht
    exact (freeBlocks_place hpages).1
  have htight : TightInv n blocks s := hrun.invariant (tightInv_init hdis hal hno ht)
    fun _ _ _ h hlegal hstep => h.step hal hno hlegal.1 hlegal.2 hstep
  exact htight.coalesced hdis hal hsmall

/-- A block of two pages, split for two callers and freed in the order that merges upward: it is the
only free block again.
Source: `sys/page_allocator.cpp` `PageAllocator::Free`
Kind: C -/
theorem coalescing_always_merged :
    ∃ t s, BuddyState.init 0 (fun _ => true) [⟨2, 1⟩] = some t ∧
      ((buddySystem 0).guard (Handled 0)).Run t
        [.allocLocal 0, .allocLocal 0, .free 3 0, .free 2 0] s ∧
      Coalesced 0 [⟨2, 1⟩] s ∧ s.held = [] ∧ s.pages.lists 0 1 = [2] := by
  obtain ⟨t, ht, hadm⟩ : ∃ t, BuddyState.init 0 (fun _ => true) [⟨2, 1⟩] = some t ∧
      ((buddySystem 0).guard (Handled 0)).Admits t
        [.allocLocal 0, .allocLocal 0, .free 3 0, .free 2 0] := ⟨_, rfl, by decide⟩
  obtain ⟨s, hs, hrun⟩ := System.Run.of_admits hadm
  refine ⟨t, s, ht, hrun, ?_, ?_, ?_⟩
  · exact coalescing_always 0 (fun _ => true) [⟨2, 1⟩] t (by simp) (by decide) (by decide) ht _ s hrun
  · obtain rfl := Option.some.inj ht
    obtain rfl := Option.some.inj hs
    rfl
  · obtain rfl := Option.some.inj ht
    obtain rfl := Option.some.inj hs
    rfl

/-- The same two pages freed in the other order: nothing is held, but the free block of order 1 starts
at page 3.
Source: `sys/page_allocator.cpp` `PageAllocator::Free`
Kind: P -/
theorem coalescing_not_always :
    ¬ ∀ n present blocks t, blocks.Pairwise (fun a b => Disjoint a.cells b.cells) →
      (∀ b ∈ blocks, b.Aligned) → NoBuddies maxOrder blocks →
        BuddyState.init n present blocks = some t →
          ∀ ops s, (buddySystem n).Run t ops s → Coalesced n blocks s := by
  intro hall
  obtain ⟨t, ht, hadm⟩ : ∃ t, BuddyState.init 0 (fun _ => true) [⟨2, 1⟩] = some t ∧
      (buddySystem 0).Admits t
        [.allocLocal 0, .allocLocal 0, .free 2 0, .free 3 0] := ⟨_, rfl, by decide⟩
  obtain ⟨s, hs, hrun⟩ := System.Run.of_admits hadm
  have hcoalesced := hall 0 (fun _ => true) [⟨2, 1⟩] t (by simp) (by decide) (by decide) ht _ s hrun
  have hend : s.held = [] ∧ s.pages.lists 0 1 = [3] := by
    obtain rfl := Option.some.inj ht
    obtain rfl := Option.some.inj hs
    exact ⟨rfl, rfl⟩
  have hfree : (⟨3, 1⟩ : Block) ∈ s.pages.freeBlocks 0 :=
    mem_binned.mpr ⟨by decide, by simp [hend.2]⟩
  exact absurd ((hcoalesced.quiescent hend.1 _).mp hfree) (by decide)

end PageState

end EbbRT
