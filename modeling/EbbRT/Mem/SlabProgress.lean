import EbbRT.Mem.SlabBookkeeping
import EbbRT.Mem.SlabBounds
import EbbRT.Mem.SlabEffects
import EbbRT.Mem.SlabHome

/-!
# The assertions of the slab allocator

`SlabAllocator::Alloc` asserts that the second call of `SlabCache::Alloc`, after `AddSlab`, does not return
null. Between the two the cache may claim what was freed remotely, flush some of it, and give whole
slabs back; but the new slab stays on the partial list, as none of its objects is in use (`Unused`).
With that no step of any CPU fails (`slab_progress`).
-/

namespace EbbRT

namespace Slab

open EbbRT.Lib

variable {root : SlabAllocatorRoot} {topo : Topology} {s s' : State} {k b o : ℕ} {c : CacheId}
  {page : Option ℕ} {frame : Frame} {frames : List Frame}

/-! ## Slabs of which nothing is in use -/

/-- A slab of a cache with no object in use.
Source: `sys/slab_allocator.cpp` `SlabCache::AddSlab`
Kind: D -/
structure Unused (s : State) (c : CacheId) (b : ℕ) : Prop where
  owned : s.OwnedBy c b
  used : (s.data b).used = 0

/-- Such a slab is on the partial list. Source: `sys/slab_allocator.cpp` `SlabCache::AddSlab`. Kind: L -/
theorem Good.mem_of_unused (h : Good root s) (hb : Unused s c b) : b ∈ (s.caches c).partialPageList := by
  apply (h.bookkept.mem_partialPageList c b hb.owned).mpr
  rw [hb.used]
  exact root.numObjectsPerSlab_pos

/-- Nothing happens to the slabs. Source: none: infrastructure. Kind: L -/
theorem Unused.still (h : Unused s c b) (hstill : Still s s') (hcache : (s'.data b).cache = (s.data b).cache) :
    Unused s' c b := by
  obtain ⟨⟨hb, hc, hidle⟩, hused⟩ := h
  refine ⟨⟨?_, hcache.trans hc, ?_⟩, (hstill.used b).trans hused⟩
  · rw [hstill.blocks]
    exact hb
  · intro k
    rw [hstill.releasing]
    exact hidle k

/-- The caches of the page structures stay.
Source: `sys/slab_allocator.cpp` `SlabAllocator::FreeRemote`
Kind: L -/
theorem freeRemote_data : (freeRemote root k o s).data = s.data := by
  have hturn : ∀ c, (turnTo root k c s).data = s.data := fun c => Homed.turnTo_data
  unfold freeRemote
  dsimp only
  split
  · exact hturn _
  · exact hturn _

/-- Source: `sys/slab_allocator.cpp` `SlabCache::FlushFreeList`. Kind: L -/
theorem flushObject_cache (q : ℕ) : ((flushObject root k c o s).data q).cache = (s.data q).cache := by
  have hset : ∀ d : SlabData, d.cache = (s.data (addrToSlabPfn o root.order)).cache →
      (Function.update s.data (addrToSlabPfn o root.order) d q).cache = (s.data q).cache := by
    intro d hd
    by_cases hq : q = addrToSlabPfn o root.order
    · rw [hq, Function.update_self, hd]
    · rw [Function.update_of_ne hq]
  unfold flushObject
  dsimp only
  split
  · rw [freeRemote_data]
  · split
    · split <;> exact hset _ rfl
    · split <;> exact hset _ rfl

/-- Source: `sys/slab_allocator.cpp` `SlabAllocator`. Kind: L -/
theorem start_data (op : Op) : (start root k topo s op).data = s.data := by
  cases op with
  | alloc nid =>
      unfold start
      dsimp only
      split <;> rfl
  | free p =>
      unfold start
      dsimp only
      split
      · unfold cacheFree
        dsimp only
        split <;> rfl
      · exact freeRemote_data
  | freeRemote p => exact freeRemote_data
  | flushFreeList amount => rfl
  | flushRemoteList => rfl
  | claimRemoteFreeList => rfl

/-- Source: `sys/slab_allocator.cpp` `SlabAllocatorNode::Alloc`. Kind: L -/
theorem finish_data : (finish k s).data = s.data := by
  unfold finish
  dsimp only
  split <;> rfl

/-- A call that returns leaves nothing on the stack.
Source: `sys/slab_allocator.cpp` `SlabAllocatorNode::Alloc`
Kind: L -/
theorem finish_stack (s : State) : ((finish k s).cpus k).stack = [] := by
  rw [finish]
  split <;> simp only [State.setStack_cpus, Function.update_self]

/-- **A turn of `FlushFreeList`** puts back an object that was in use.
Source: `sys/slab_allocator.cpp` `SlabCache::FlushFreeList`
Kind: P -/
theorem Unused.flushObject (h : Unused s c b) {c' : CacheId} (hinv : Inv root [o] s) :
    Unused (flushObject root k c' o s) c b := by
  rcases flushObject_change (k := k) (c := c') hinv with hturn | ⟨b₀, hb₀, hpos, hused, hblocks, hrel, hother⟩
  · exact h.still hturn (flushObject_cache b)
  · obtain ⟨⟨hb, hc, hidle⟩, hzero⟩ := h
    have hne : b ≠ b₀ := by
      rintro rfl
      omega
    refine ⟨⟨?_, (flushObject_cache b).trans hc, ?_⟩, ?_⟩
    · rw [hblocks]
      exact hb
    · intro k'
      by_cases hk : k' = k
      · subst hk
        rw [hrel]
        split
        · intro hmem
          exact (List.mem_cons.mp hmem).elim hne (hidle k')
        · exact hidle k'
      · rw [hother k' hk]
        exact hidle k'
    · rw [hused, if_neg hne]
      exact hzero

/-- Another slab is passed to the page allocator.
Source: `sys/slab_allocator.cpp` `SlabCache::FlushFreeList`
Kind: L -/
theorem Unused.release (h : Unused s c b) {b₀ : ℕ} (hstack : (s.cpus k).stack = .release b₀ :: frames) :
    Unused (release b₀ (s.setStack k frames)) c b := by
  obtain ⟨⟨hb, hc, hidle⟩, hzero⟩ := h
  have hne : b ≠ b₀ := by
    rintro rfl
    apply hidle k
    rw [hstack]
    exact List.mem_cons_self
  have hdata : (Slab.release b₀ (s.setStack k frames)).data b = s.data b := Function.update_of_ne hne _ _
  refine ⟨⟨(List.mem_erase_of_ne hne).mpr hb, ?_, ?_⟩, ?_⟩
  · rw [hdata]
    exact hc
  · intro k' hmem
    apply hidle k'
    by_cases hk : k' = k
    · subst hk
      rw [release_stack] at hmem
      rw [hstack]
      exact List.mem_cons_of_mem b₀ hmem
    · have hsame : (Slab.release b₀ (s.setStack k frames)).cpus k' = s.cpus k' := Function.update_of_ne hk _ _
      rwa [hsame] at hmem
  · rw [hdata]
    exact hzero

/-- Another slab is added. Source: `sys/slab_allocator.cpp` `SlabCache::AddSlab`. Kind: L -/
theorem Unused.addSlab (h : Unused s c b) {c' : CacheId} {b₀ : ℕ} (hgood : Good root s)
    (hpage : PageLegal root s (some b₀)) (hrel : releasing frames = releasing (s.cpus k).stack) :
    Unused (addSlab root c' b₀ { s.setStack k frames with blocks := b₀ :: s.blocks }) c b := by
  obtain ⟨⟨hb, hc, hidle⟩, hzero⟩ := h
  obtain ⟨hblock, hfresh, -⟩ := hpage
  have hne : b ≠ b₀ := by
    rintro rfl
    have hpos := Nat.two_pow_pos root.order
    have hapart := hfresh b hb
    omega
  refine ⟨⟨List.mem_cons_of_mem b₀ hb, ?_, ?_⟩, (addSlab_used hne).trans hzero⟩
  · rw [addSlab_data]
    dsimp only
    rw [if_neg]
    · exact hc
    · intro hmem
      exact hne (root.eq_of_mem_frames hblock (hgood.inv.block b hb) hmem)
  · intro k' hmem
    apply hidle k'
    rw [← (still_setStack frames hrel).releasing]
    exact hmem

/-- **What a CPU does to a slab of which nothing is in use**: nothing, or `Alloc` takes from it and returns.
Source: `sys/slab_allocator.cpp` `SlabCache::Alloc`, `SlabCache::FlushFreeList`
Kind: P -/
theorem Unused.run (h : Unused s c b) (hgood : Good root s) (hpage : PageLegal root s page)
    (hstack : (s.cpus k).stack = frame :: frames) (hran : Ran root k page s frames frame s') :
    Unused s' c b ∨ frame ≠ .lock ∧ (s.cpus k).target = c ∧ (s'.cpus k).stack = [] := by
  cases hran with
  | lock nid htarget hfree =>
      left
      obtain rfl := hgood.frames_eq_nil hstack (Or.inl rfl)
      have hstill : Still s (s.setStack k [.alloc false]) := still_setStack _ (by rw [hstack]; rfl)
      exact h.still ⟨hstill.used, hstill.blocks, hstill.releasing⟩ rfl
  | spin => exact Or.inl h
  | pop second o list hlist =>
      left
      obtain rfl := hgood.frames_eq_nil hstack (Or.inr (Or.inl ⟨second, rfl⟩))
      have hgive : Still s ((s.setCache (s.cpus k).target
          { s.caches (s.cpus k).target with objectList := list }).give o) :=
        ⟨fun _ => rfl, rfl, fun _ => rfl⟩
      refine h.still (hgive.trans (Still.finish ?_)) ?_
      · show releasing (s.cpus k).stack = []
        rw [hstack]
        rfl
      · rw [finish_data]
        rfl
  | retry => exact Or.inl (h.still (still_setStack _ (by rw [hstack]; rfl)) rfl)
  | partialPage second s' hpartial =>
      obtain rfl := hgood.frames_eq_nil hstack (Or.inr (Or.inl ⟨second, rfl⟩))
      rcases allocPartial_cases hpartial with rfl | ⟨b₀, pages, o, d, t, hpages, ht, hused, hcache, rfl⟩
      · exact Or.inl (h.still (still_setStack _ (by rw [hstack]; rfl)) rfl)
      · by_cases hne : b = b₀
        · -- it is taken from here: the slab is of the CPU's own cache
          right
          subst hne
          refine ⟨by simp, ?_, finish_stack _⟩
          have hmem : b ∈ (s.caches (s.cpus k).target).partialPageList := by
            rw [hpages]
            exact List.mem_cons_self
          rw [← (hgood.inv.of_mem_partialPages hmem).2.2]
          exact h.owned.2.1
        · left
          obtain ⟨htdata, htblocks, htcpus⟩ : t.data = s.data ∧ t.blocks = s.blocks ∧ t.cpus = s.cpus := by
            rcases ht with rfl | rfl <;> exact ⟨rfl, rfl, rfl⟩
          have hdata : ((t.setData b₀ d).give o).data b = s.data b := by
            rw [State.give_data, State.setData_data, Function.update_of_ne hne, htdata]
          have hgive : Unused ((t.setData b₀ d).give o) c b := by
            refine ⟨⟨?_, ?_, ?_⟩, ?_⟩
            · rw [State.give_blocks, State.setData_blocks, htblocks]
              exact h.owned.1
            · rw [hdata]
              exact h.owned.2.1
            · intro k'
              rw [State.give_cpus, State.setData_cpus, htcpus]
              exact h.owned.2.2 k'
            · rw [hdata]
              exact h.used
          apply hgive.still (Still.finish ?_)
          · rw [finish_data]
          · rw [State.give_cpus, State.setData_cpus, htcpus, hstack]
            rfl
  | noPage hpage =>
      left
      obtain rfl := hgood.frames_eq_nil hstack (Or.inr (Or.inr ⟨false, rfl⟩))
      apply h.still (Still.finish (by rw [hstack]; rfl))
      rw [finish_data]
  | addSlab b₀ heq =>
      left
      subst heq
      exact h.addSlab hgood hpage (by rw [hstack]; rfl)
  | claim =>
      left
      exact h.still ((still_setStack _ (by rw [hstack]; rfl)).trans (Still.setCache _)) rfl
  | drain => exact Or.inl (h.still (still_setStack _ (by rw [hstack]; rfl)) rfl)
  | drained => exact Or.inl (h.still (still_setStack _ (by rw [hstack]; rfl)) rfl)
  | flush freed amount o list hfreed hlist =>
      left
      have hrel : releasing (.flush (freed + 1) amount :: frames) = releasing (s.cpus k).stack := by
        rw [hstack]
        rfl
      apply (h.still ((still_setStack _ hrel).trans (Still.setCache _)) rfl).flushObject
      exact (hgood.inv.setStack hrel).pop hlist
  | flushed => exact Or.inl (h.still (still_setStack _ (by rw [hstack]; rfl)) rfl)
  | release b₀ => exact Or.inl (h.release hstack)
  | flushRemote =>
      left
      apply h.still ((still_setStack _ (by rw [hstack]; rfl)).trans Still.flushRemoteList)
      rw [Homed.flushRemoteList_data]
      rfl

/-! ## What the assertions need -/

/-- What the frames of a CPU need: between the two calls of `SlabCache::Alloc` there is a slab to take from,
only a `SlabAllocatorNode` has a lock, and the second call has not returned null.
Source: `sys/slab_allocator.cpp` `SlabAllocator::Alloc`, `SlabAllocatorNode::Alloc`
Kind: D -/
structure Sane (s : State) (k : ℕ) : Prop where
  second : .alloc true ∈ (s.cpus k).stack → ∃ b, Unused s (s.cpus k).target b
  lock : .lock ∈ (s.cpus k).stack → ∃ nid, (s.cpus k).target = .node nid
  nonnull : .nullptr true ∉ (s.cpus k).stack

/-- Frames that need nothing. Source: `sys/slab_allocator.cpp` `SlabCache::FlushFreeList`. Kind: D -/
def Harmless (frame : Frame) : Prop := frame ≠ .alloc true ∧ frame ≠ .lock ∧ frame ≠ .nullptr true

namespace Sane

/-- Source: none: infrastructure. Kind: L -/
theorem of_stack_nil (h : (s.cpus k).stack = []) : Sane s k := by
  refine ⟨?_, ?_, ?_⟩ <;> rw [h] <;> simp

/-- Frames that need nothing may come on top. Source: none: infrastructure. Kind: L -/
theorem of_subset (h : Sane s k) (htarget : (s'.cpus k).target = (s.cpus k).target)
    (hsub : ∀ f ∈ (s'.cpus k).stack, f ∈ (s.cpus k).stack ∨ Harmless f)
    (hunused : ∀ b, Unused s (s.cpus k).target b → Unused s' (s.cpus k).target b) : Sane s' k where
  second hmem := by
    rcases hsub _ hmem with hold | hharmless
    · obtain ⟨b, hb⟩ := h.second hold
      rw [htarget]
      exact ⟨b, hunused b hb⟩
    · exact absurd rfl hharmless.1
  lock hmem := by
    rcases hsub _ hmem with hold | hharmless
    · rw [htarget]
      exact h.lock hold
    · exact absurd rfl hharmless.2.1
  nonnull hmem := by
    rcases hsub _ hmem with hold | hharmless
    · exact h.nonnull hold
    · exact hharmless.2.2 rfl

/-- **The other CPUs** take from no slab of this CPU's cache.
Source: `sys/slab_allocator.cpp` `SlabAllocatorNode::Alloc`
Kind: P -/
theorem other {k' : ℕ} (h : Sane s k') (hk : k' ≠ k) (hgood : Good root s) (hpage : PageLegal root s page)
    (hstack : (s.cpus k).stack = frame :: frames) (hran : Ran root k page s frames frame s')
    (hcpus : s'.cpus k' = s.cpus k') : Sane s' k' := by
  refine ⟨?_, ?_, ?_⟩ <;> rw [hcpus]
  · intro hmem
    obtain ⟨b, hb⟩ := h.second hmem
    refine ⟨b, (hb.run hgood hpage hstack hran).resolve_right ?_⟩
    rintro ⟨hlock, htarget, -⟩
    have hholds : Holds s k (s.cpus k).target := hgood.wf.holds hstack hlock
    have hholds' : Holds s k' (s.cpus k').target := by
      apply (hgood.wf.owns k').holds
      · exact List.ne_nil_of_mem hmem
      · intro heq
        rw [heq] at hmem
        simp at hmem
    rw [htarget] at hholds
    exact hk (hholds'.eq hholds)
  · exact h.lock
  · exact h.nonnull

/-- Frames that need nothing, alone. Source: `sys/slab_allocator.cpp` `SlabCache::FlushFreeList`. Kind: L -/
theorem of_harmless (h : ∀ f ∈ (s.cpus k).stack, Harmless f) : Sane s k where
  second hmem := absurd rfl (h _ hmem).1
  lock hmem := absurd rfl (h _ hmem).2.1
  nonnull hmem := (h _ hmem).2.2 rfl

/-- `SlabCache::Alloc` returns null only with an empty partial list.
Source: `sys/slab_allocator.cpp` `SlabCache::Alloc`
Kind: L -/
theorem allocPartial_null {second : Bool} (hstep : allocPartial root k second c frames s = some s') :
    (s.caches c).partialPageList = [] ∧ s' = s.setStack k (.nullptr second :: frames) ∨
      (s'.cpus k).stack = [] := by
  cases hpages : (s.caches c).partialPageList with
  | nil =>
      rw [allocPartial, hpages] at hstep
      cases hstep
      exact Or.inl ⟨rfl, rfl⟩
  | cons b pages =>
      right
      rw [allocPartial, hpages] at hstep
      simp only at hstep
      split at hstep
      · split at hstep
        · cases hstep
        · cases hstep
          exact finish_stack _
      · cases hstep

/-- **A new slab** is there to take from. Source: `sys/slab_allocator.cpp` `SlabCache::AddSlab`. Kind: P -/
theorem of_addSlab {b₀ : ℕ} (hgood : Good root s) (hpage : PageLegal root s (some b₀))
    (hstack : (s.cpus k).stack = [.nullptr false]) :
    Sane (addSlab root (s.cpus k).target b₀ { s.setStack k [.alloc true] with blocks := b₀ :: s.blocks }) k := by
  obtain ⟨hblock, hfresh, -⟩ := hpage
  have hself : (addSlab root (s.cpus k).target b₀
      { s.setStack k [.alloc true] with blocks := b₀ :: s.blocks }).cpus k =
        { s.cpus k with stack := [.alloc true] } := Function.update_self ..
  refine ⟨fun _ => ⟨b₀, ⟨List.mem_cons_self, ?_, ?_⟩, ?_⟩, ?_, ?_⟩
  · rw [hself, addSlab_data]
    exact if_pos (root.mem_frames hblock)
  · intro k' hmem
    have hmem : b₀ ∈ releasing ((s.setStack k [.alloc true]).cpus k').stack := hmem
    rw [(still_setStack [.alloc true] (by rw [hstack]; rfl)).releasing] at hmem
    have hapart := hfresh b₀ (hgood.inv.of_mem_releasing hmem).1
    have hpos := Nat.two_pow_pos root.order
    omega
  · rw [addSlab_data]
    exact if_pos rfl
  · rw [hself]
    simp
  · rw [hself]
    simp

/-- **The CPU itself.**
Source: `sys/slab_allocator.cpp` `SlabAllocator::Alloc`, `SlabCache::Alloc`
Kind: P -/
theorem own (h : Sane s k) (hgood : Good root s) (hpage : PageLegal root s page)
    (hstack : (s.cpus k).stack = frame :: frames) (hran : Ran root k page s frames frame s') : Sane s' k := by
  have hkeep : (s'.cpus k).stack ≠ [] → ∀ b, Unused s (s.cpus k).target b → Unused s' (s.cpus k).target b := by
    intro hne b hb
    apply (hb.run hgood hpage hstack hran).resolve_right
    rintro ⟨-, -, hnil⟩
    exact hne hnil
  have hsub : (s'.cpus k).target = (s.cpus k).target →
      (∀ f ∈ (s'.cpus k).stack, f ∈ (s.cpus k).stack ∨ Harmless f) → Sane s' k := by
    intro htarget hsub
    by_cases hnil : (s'.cpus k).stack = []
    · exact of_stack_nil hnil
    · exact h.of_subset htarget hsub (hkeep hnil)
  have hset : ∀ new, s'.cpus k = { s.cpus k with stack := new } →
      (∀ f ∈ new, f ∈ frame :: frames ∨ Harmless f) → Sane s' k := by
    intro new hcpu hnew
    apply hsub
    · rw [hcpu]
    · rw [hcpu, hstack]
      exact hnew
  have hpopped : ∀ f ∈ frames, f ∈ frame :: frames ∨ Harmless f :=
    fun f hf => Or.inl (List.mem_cons_of_mem frame hf)
  cases hran with
  | lock nid htarget hfree =>
      obtain rfl := hgood.frames_eq_nil hstack (Or.inl rfl)
      apply hset [.alloc false] (Function.update_self ..)
      simp [Harmless]
  | spin => exact h
  | pop => exact of_stack_nil (finish_stack _)
  | retry second hnil hcheck =>
      apply hset (.claim :: .drain :: .alloc second :: frames) (Function.update_self ..)
      intro f hf
      rcases List.mem_cons.mp hf with rfl | hf
      · exact Or.inr (by simp [Harmless])
      · rcases List.mem_cons.mp hf with rfl | hf
        · exact Or.inr (by simp [Harmless])
        · exact Or.inl hf
  | partialPage second s' hpartial =>
      rcases allocPartial_null hpartial with ⟨hnil, rfl⟩ | hnil
      · cases second with
        | false =>
            apply hset (.nullptr false :: frames) (Function.update_self ..)
            intro f hf
            rcases List.mem_cons.mp hf with rfl | hf
            · exact Or.inr (by simp [Harmless])
            · exact hpopped f hf
        | true =>
            obtain ⟨b, hb⟩ := h.second (by rw [hstack]; exact List.mem_cons_self)
            have hmem := hgood.mem_of_unused hb
            rw [hnil] at hmem
            exact absurd hmem List.not_mem_nil
      · exact of_stack_nil hnil
  | noPage => exact of_stack_nil (finish_stack _)
  | addSlab b₀ heq =>
      subst heq
      obtain rfl := hgood.frames_eq_nil hstack (Or.inr (Or.inr ⟨false, rfl⟩))
      exact of_addSlab hgood hpage hstack
  | claim => exact hset frames (Function.update_self ..) hpopped
  | drain hlen =>
      apply hset (.flush 0 root.freeBatch :: .drain :: frames) (Function.update_self ..)
      intro f hf
      rcases List.mem_cons.mp hf with rfl | hf
      · exact Or.inr (by simp [Harmless])
      · exact Or.inl hf
  | drained => exact hset frames (Function.update_self ..) hpopped
  | flush freed amount o list hfreed hlist =>
      have hcpu : ((s.setStack k (.flush (freed + 1) amount :: frames)).setCache (s.cpus k).target
          { s.caches (s.cpus k).target with objectList := list }).cpus k =
            { s.cpus k with stack := .flush (freed + 1) amount :: frames } := Function.update_self ..
      apply hsub (Quiet.flushObject.target.trans (by rw [hcpu]))
      rw [hstack]
      have hnew : ∀ f ∈ Frame.flush (freed + 1) amount :: frames,
          f ∈ .flush freed amount :: frames ∨ Harmless f := by
        intro f hf
        rcases List.mem_cons.mp hf with rfl | hf
        · exact Or.inr (by simp [Harmless])
        · exact hpopped f hf
      rcases flushObject_stack root k o (s.cpus k).target
        ((s.setStack k (.flush (freed + 1) amount :: frames)).setCache (s.cpus k).target
          { s.caches (s.cpus k).target with objectList := list }) with h' | h' | ⟨pfn, h'⟩
      · rw [h', hcpu]
        exact hnew
      · rw [h', hcpu]
        exact List.forall_mem_cons.mpr ⟨Or.inr (by simp [Harmless]), hnew⟩
      · rw [h', hcpu]
        exact List.forall_mem_cons.mpr ⟨Or.inr (by simp [Harmless]), hnew⟩
  | flushed => exact hset frames (Function.update_self ..) hpopped
  | release b₀ => exact hset frames (Function.update_self ..) hpopped
  | flushRemote =>
      have hcpu : (s.setStack k frames).cpus k = { s.cpus k with stack := frames } := Function.update_self ..
      apply hsub (Quiet.flushRemoteList.target.trans (by rw [hcpu]))
      rw [flushRemoteList_stack, hcpu, hstack]
      exact hpopped

/-- **A call begins.**
Source: `sys/slab_allocator.cpp` `SlabAllocator::Alloc`, `SlabAllocator::Free`
Kind: P -/
theorem start (hidle : (s.cpus k).stack = []) (op : Op) : Sane (start root k topo s op) k := by
  have hself : ∀ v : SlabAllocator, (s.setCpu k v).cpus k = v := fun v => Function.update_self ..
  have htaken : ∀ p, (((s.setCpu k { s.cpus k with target := .cpu k }).take p).cpus k).stack = [] := by
    intro p
    rw [State.take_cpus, hself]
    exact hidle
  have hremote : ∀ p, Sane (freeRemote root k p ((s.setCpu k { s.cpus k with target := .cpu k }).take p)) k := by
    intro p
    apply of_harmless
    rcases freeRemote_stack root k p ((s.setCpu k { s.cpus k with target := .cpu k }).take p) with h' | h'
    · rw [h', htaken]
      simp
    · rw [h', htaken]
      simp [Harmless]
  cases op with
  | alloc nid =>
      unfold Slab.start
      dsimp only
      split
      · apply of_harmless
        rw [hself]
        simp [Harmless]
      · refine ⟨?_, ?_, ?_⟩
        · rw [hself]
          simp
        · rw [hself]
          intro _
          exact ⟨nid, rfl⟩
        · rw [hself]
          simp
  | free p =>
      unfold Slab.start
      dsimp only
      split
      · apply of_harmless
        unfold cacheFree
        dsimp only
        split
        · rw [push_stack, State.setCache_cpus, htaken]
          simp [Harmless]
        · rw [State.setCache_cpus, htaken]
          simp
      · exact hremote p
  | freeRemote p => exact hremote p
  | flushFreeList amount =>
      apply of_harmless
      rw [Slab.start, hself]
      simp [Harmless]
  | flushRemoteList =>
      apply of_harmless
      rw [Slab.start, hself]
      simp [Harmless]
  | claimRemoteFreeList =>
      apply of_harmless
      rw [Slab.start, hself]
      simp [Harmless]

end Sane

/-- A call is of one CPU. Source: `sys/slab_allocator.cpp` `SlabAllocator`. Kind: L -/
theorem start_cpus {k' : ℕ} (hk : k' ≠ k) (op : Op) : (start root k topo s op).cpus k' = s.cpus k' := by
  have htake : ∀ p, ((s.setCpu k { s.cpus k with target := .cpu k }).take p).cpus k' = s.cpus k' :=
    fun p => Function.update_of_ne hk _ _
  cases op with
  | alloc nid => exact (kept_start_alloc nid).cpus k' hk
  | free p => exact (kept_start_free p).cpus k' hk
  | freeRemote p => exact (Kept.freeRemote.cpus k' hk).trans (htake p)
  | flushFreeList amount => exact Function.update_of_ne hk _ _
  | flushRemoteList => exact Function.update_of_ne hk _ _
  | claimRemoteFreeList => exact Function.update_of_ne hk _ _

/-- A step of a running CPU is of that CPU. Source: `sys/slab_allocator.cpp` `SlabAllocator`. Kind: L -/
theorem ran_cpus {k' : ℕ} (hran : Ran root k page s frames frame s') (hk : k' ≠ k) :
    s'.cpus k' = s.cpus k' := by
  have hset : ∀ new, (s.setStack k new).cpus k' = s.cpus k' := fun new => Function.update_of_ne hk _ _
  cases hran with
  | lock => exact hset _
  | spin => rfl
  | pop => exact Kept.finish.cpus k' hk
  | retry => exact hset _
  | partialPage second s' hpartial =>
      rcases allocPartial_cases hpartial with rfl | ⟨b, pages, o, d, t, -, rfl | rfl, -, -, rfl⟩
      · exact hset _
      · exact Kept.finish.cpus k' hk
      · exact Kept.finish.cpus k' hk
  | noPage => exact Kept.finish.cpus k' hk
  | addSlab => exact hset _
  | claim => exact hset _
  | drain => exact hset _
  | drained => exact hset _
  | flush => exact (Kept.flushObject.cpus k' hk).trans (hset _)
  | flushed => exact hset _
  | release => exact hset _
  | flushRemote => exact (Kept.flushRemoteList.cpus k' hk).trans (hset _)

/-- **Every step keeps what the assertions need.**
Source: `sys/slab_allocator.cpp` `SlabAllocator::Alloc`, `SlabCache::Alloc`
Kind: P -/
theorem sane_step (h : ∀ k, Sane s k) (hgood : Good root s) {a : Step} (hlegal : Legal root s a)
    (hstep : step root topo s a = some s') (k' : ℕ) : Sane s' k' := by
  cases a with
  | call k op =>
      cases hstep
      by_cases hk : k' = k
      · subst hk
        exact Sane.start hlegal.1 op
      · have hcpu : (start root k topo s op).cpus k' = s.cpus k' := start_cpus hk op
        apply (h k').of_subset
        · rw [hcpu]
        · rw [hcpu]
          exact fun f hf => Or.inl hf
        · intro b hb
          apply hb.still (still_start hlegal.1 op)
          rw [start_data]
  | run k page =>
      obtain ⟨frame, frames, hstack, hran⟩ := ran_of_step hstep
      by_cases hk : k' = k
      · subst hk
        exact (h k').own hgood hlegal.2 hstack hran
      · apply (h k').other hk hgood hlegal.2 hstack hran
        exact ran_cpus hran hk

/-- **No assertion fails.**
Source: `sys/slab_allocator.cpp` `SlabAllocator::Alloc`, `SlabCache::Alloc`
Kind: P -/
theorem Sane.isSome (h : Sane s k) (hgood : Good root s) (hne : (s.cpus k).stack ≠ []) :
    (step root topo s (.run k page)).isSome := by
  obtain ⟨frame, frames, hstack⟩ := List.exists_cons_of_ne_nil hne
  have hmem : frame ∈ (s.cpus k).stack := by
    rw [hstack]
    exact List.mem_cons_self
  rw [step, hstack]
  dsimp only
  cases frame with
  | lock =>
      obtain ⟨nid, htarget⟩ := h.lock hmem
      unfold runFrame
      rw [htarget]
      dsimp only
      split <;> rfl
  | alloc second =>
      have halloc : (cacheStep root topo s (.system (.run k page))).isSome :=
        hgood.alloc_isSome ⟨k, page, second, frames, rfl, hstack⟩
      rwa [cacheStep, step, hstack] at halloc
  | nullptr second =>
      cases second with
      | false =>
          cases page <;> rfl
      | true => exact absurd hmem h.nonnull
  | claim => rfl
  | drain =>
      rw [runFrame]
      split <;> rfl
  | flush freed amount =>
      rw [runFrame]
      dsimp only
      split
      · rfl
      · split <;> rfl
  | release pfn => rfl
  | flushRemote => rfl

/-- **The assertions of the slab allocator hold, once the allocators are there.** Whatever the CPUs, the order of
their steps, and what the page allocator returns: in every reachable state every step that can be taken
succeeds.
Source: `sys/slab_allocator.cpp` `SlabAllocator::Alloc`, `SlabAllocatorNode::Alloc`, `SlabCache::Alloc`
Kind: P
Fidelity: every node's allocator is there from the start, as in `slab_always`. -/
theorem slab_progress (root : SlabAllocatorRoot) (topo : Topology) (boot : ℕ → SlabData) (as : List Step)
    (s : State) (hrun : (slabSystem root topo).Run (State.init boot) as s) (a : Step)
    (hlegal : Legal root s a) : (step root topo s a).isSome := by
  have hinv : Good root s ∧ ∀ k, Sane s k := by
    apply hrun.invariant
    · exact ⟨Good.init boot, fun k => Sane.of_stack_nil rfl⟩
    · rintro s a s' ⟨hgood, hsane⟩ hlegal hstep
      exact ⟨hgood.step hlegal hstep, sane_step hsane hgood hlegal hstep⟩
  obtain ⟨hgood, hsane⟩ := hinv
  cases a with
  | call k op => rfl
  | run k page => exact (hsane k).isSome hgood hlegal.1

end Slab

end EbbRT
