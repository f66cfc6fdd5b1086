import EbbRT.Mem.SlabFlush

/-!
# Destroying a slab root

`~SlabAllocatorRoot` runs on one CPU, when no call is in progress any more. It flushes the caches of
the CPUs one after another, each followed by that CPU's remote list; then it claims and flushes the
caches of the CPUs, and then those of the nodes. A flush gives an object of another cache to the
remote list of the CPU that runs the destructor, which is flushed only when its own turn comes: what
later CPUs hold for others stays there, unless the last batch was just full. And a slab that was
added but never used is on no list that is flushed. `slabDestroy_exactlyWhen`: these two are all that
can go wrong.
-/

namespace EbbRT

namespace Slab

open EbbRT.Lib

/-! ## The code -/

variable (root : SlabAllocatorRoot) (k : ℕ)

/-- The first loop, for the allocator of CPU `i`.
Source: `sys/slab_allocator.cpp` `SlabAllocatorRoot::~SlabAllocatorRoot`
Kind: D -/
def flushCpu (t : Teardown) (i : ℕ) : Teardown :=
  let t := flushFreeListAll root k (.cpu i) t
  ⟨flushRemoteList root i t.state, t.returned⟩

/-- The other two loops, for one cache.
Source: `sys/slab_allocator.cpp` `SlabAllocatorRoot::~SlabAllocatorRoot`
Kind: D -/
def reclaim (t : Teardown) (c : CacheId) : Teardown :=
  flushFreeListAll root k c ⟨claimRemoteFreeList c t.state, t.returned⟩

/-- The destructor, run by CPU `k`. An allocator that does not exist has nothing in its lists.
Source: `sys/slab_allocator.cpp` `SlabAllocatorRoot::~SlabAllocatorRoot`
Kind: D -/
def destroy (s : State) : Teardown :=
  let t := (List.range maxNumCpus).foldl (flushCpu root k) ⟨s, []⟩
  let t := ((List.range maxNumCpus).map CacheId.cpu).foldl (reclaim root k) t
  ((List.range maxNumaNodes).map CacheId.node).foldl (reclaim root k) t

variable {root : SlabAllocatorRoot} {k : ℕ} {s : State} {t : Teardown} {b : ℕ} {c : CacheId}

/-! ## The loops of the destructor -/

/-- Between the calls of the destructor: the invariants hold and nothing runs.
Source: none: infrastructure
Kind: D -/
structure Tidy (root : SlabAllocatorRoot) (s : State) : Prop where
  inv : Inv root [] s
  homed : Homed root s
  idle : ∀ k, (s.cpus k).stack = []

/-- There are fewer objects than `size_t(-1)`.
Source: `sys/slab_allocator.cpp` `SlabCache::FlushFreeListAll`
Kind: L -/
theorem length_objectList (h : Inv root [] s) (c : CacheId) :
    (s.caches c).objectList.length < word - 1 := by
  have hnd : (s.caches c).objectList.Nodup := h.objects.nodup (some (.objectList c))
  have hsub : (s.caches c).objectList.toFinset ⊆ Finset.range (maxPhysPfn * pageSize) := by
    intro o ho
    have hmem : o ∈ s.withHand [] (some (.objectList c)) := List.mem_toFinset.mp ho
    obtain ⟨hb, hob⟩ := h.slab_of_mem hmem
    have hblock := h.block _ hb
    have hlt := (root.bounds_of_mem_objects hblock hob).2
    exact Finset.mem_range.mpr (hlt.trans_le (Nat.mul_le_mul_right _ hblock.2))
  have hcard := Finset.card_le_card hsub
  rw [List.toFinset_card_of_nodup hnd, Finset.card_range] at hcard
  exact hcard.trans_lt (by decide)

/-- **`FlushFreeListAll`** empties the list of the cache.
Source: `sys/slab_allocator.cpp` `SlabCache::FlushFreeListAll`
Kind: L -/
theorem flushFreeListAll_spec (h : Tidy root t.state) (hk : k < maxNumCpus) (hc : c.Known) :
    Tidy root (flushFreeListAll root k c t).state ∧
      ((flushFreeListAll root k c t).state.caches c).objectList = [] ∧
      Flushed root k c (t.state.strays c) t (flushFreeListAll root k c t) := by
  obtain ⟨t₀, ht₀⟩ : ∃ t₀ : Teardown, t₀ = ⟨t.state.setCpu k
      { t.state.cpus k with target := c, stack := [.flush 0 (word - 1)] }, t.returned⟩ := ⟨_, rfl⟩
  have hself : t₀.state.cpus k =
      { t.state.cpus k with target := c, stack := [.flush 0 (word - 1)] } := by
    rw [ht₀, State.setCpu_cpus, Function.update_self]
  have hinv : Inv root [] t₀.state := by
    rw [ht₀]
    refine h.inv.setCpu rfl ?_
    rw [h.idle k]
    rfl
  have hhomed : Homed root t₀.state := by
    rw [ht₀]
    exact h.homed.setCpu (fun _ => hc) (h.homed.remoteList k)
  have hlists : t₀.state.caches = t.state.caches := by
    rw [ht₀]
    rfl
  have hlength := length_objectList h.inv c
  have hstart : Flushed root k c [] t t₀ := by
    rw [ht₀]
    refine Flushed.of_lists rfl rfl rfl (fun _ _ => rfl) (fun _ => rfl) (fun k' hk' => ?_) ?_
    · rw [State.setCpu_cpus, Function.update_of_ne hk']
    · unfold State.batchOf
      rw [State.setCpu_cpus, Function.update_self]
  have hall : flushFreeListAll root k c t = runCall root k (2 * word) t₀ := by
    rw [ht₀]
    rfl
  obtain ⟨hinv', hhomed', hidle, hnil, hflushed⟩ := flush_loop (2 * word) hinv hhomed hk
    (congrArg SlabAllocator.stack hself) (congrArg SlabAllocator.target hself)
    (congrArg (fun caches => SlabCache.objectList (caches c)) hlists) (by omega) (by omega)
  rw [hall]
  have hflushed' := hstart.trans hflushed
  rw [List.nil_append, hstart.progress.owner_eq] at hflushed'
  refine ⟨⟨hinv', hhomed', fun k' => ?_⟩, hnil, hflushed'⟩
  by_cases hk' : k' = k
  · rw [hk']
    exact hidle
  · rw [hflushed'.cpus k' hk']
    exact h.idle k'

/-- **The first loop, one CPU.** Its list and its remote list are empty then; what it held for others
was batched on CPU `k`.
Source: `sys/slab_allocator.cpp` `SlabAllocatorRoot::~SlabAllocatorRoot`
Kind: L -/
theorem flushCpu_spec {i : ℕ} (h : Tidy root t.state) (hk : k < maxNumCpus) (hi : i < maxNumCpus) :
    Tidy root (flushCpu root k t i).state ∧ Progress t (flushCpu root k t i) ∧
      ((flushCpu root k t i).state.caches (.cpu i)).objectList = [] ∧
      (∀ c ≠ .cpu i, ((flushCpu root k t i).state.caches c).objectList = (t.state.caches c).objectList) ∧
      ((flushCpu root k t i).state.cpus i).remoteList = [] ∧
      (∀ i' ≠ i, i' ≠ k → (flushCpu root k t i).state.cpus i' = t.state.cpus i') ∧
      (i ≠ k → (flushCpu root k t i).state.batchOf k =
        (t.state.strays (.cpu i)).foldl (batch root.freeBatch) (t.state.batchOf k)) := by
  obtain ⟨htidy, hnil, hflushed⟩ := flushFreeListAll_spec (c := .cpu i) h hk hi
  obtain ⟨u, hu⟩ : ∃ u, u = flushFreeListAll root k (.cpu i) t := ⟨_, rfl⟩
  have hflush : flushCpu root k t i = ⟨flushRemoteList root i u.state, u.returned⟩ := by
    rw [hu]
    rfl
  rw [← hu] at htidy hnil hflushed
  rw [hflush]
  have hquiet : Quiet root i u.state (flushRemoteList root i u.state) := Quiet.flushRemoteList
  refine ⟨⟨htidy.inv.flushRemoteList, htidy.homed.flushRemoteList, fun k' => ?_⟩, ?_, ?_, ?_,
    htidy.homed.flushRemoteList_eq_nil, ?_, ?_⟩
  · by_cases hk' : k' = i
    · rw [hk', flushRemoteList_stack]
      exact htidy.idle i
    · rw [hquiet.cpus k' hk']
      exact htidy.idle k'
  · exact hflushed.progress.trans (Progress.of_pages Homed.flushRemoteList_data
      flushRemoteList_pages.1 flushRemoteList_pages.2)
  · exact (hquiet.objectList _).trans hnil
  · exact fun c hc => (hquiet.objectList c).trans (hflushed.objectList c hc)
  · exact fun i' hi' hk' => (hquiet.cpus i' hi').trans (hflushed.cpus i' hk')
  · intro hik
    rw [← hflushed.batch]
    unfold State.batchOf
    dsimp only
    rw [hquiet.cpus k (Ne.symm hik)]

/-- **The first loop**, over some CPUs.
Source: `sys/slab_allocator.cpp` `SlabAllocatorRoot::~SlabAllocatorRoot`
Kind: L -/
theorem foldl_flushCpu (is : List ℕ) (hk : k < maxNumCpus) (h : Tidy root t.state)
    (his : ∀ i ∈ is, i < maxNumCpus) (hnd : is.Nodup) :
    Tidy root (is.foldl (flushCpu root k) t).state ∧ Progress t (is.foldl (flushCpu root k) t) ∧
      (∀ i ∈ is, ((is.foldl (flushCpu root k) t).state.caches (.cpu i)).objectList = []) ∧
      (∀ c, (∀ i ∈ is, c ≠ .cpu i) → ((is.foldl (flushCpu root k) t).state.caches c).objectList =
        (t.state.caches c).objectList) ∧
      (∀ i ∈ is, i ≠ k → ((is.foldl (flushCpu root k) t).state.cpus i).remoteList = []) ∧
      (∀ i ∉ is, i ≠ k → (is.foldl (flushCpu root k) t).state.cpus i = t.state.cpus i) ∧
      (k ∉ is → (is.foldl (flushCpu root k) t).state.batchOf k =
        (is.flatMap fun i => t.state.strays (.cpu i)).foldl (batch root.freeBatch)
          (t.state.batchOf k)) := by
  induction is generalizing t with
  | nil => exact ⟨h, Progress.of_pages rfl rfl rfl, by simp, fun _ _ => rfl, by simp,
      fun _ _ _ => rfl, fun _ => rfl⟩
  | cons i is ih =>
      obtain ⟨hnot, hnd⟩ := List.nodup_cons.mp hnd
      obtain ⟨hi, his⟩ := List.forall_mem_cons.mp his
      obtain ⟨h1, hprogress, hnil, hother, hremote, hcpus, hbatch⟩ := flushCpu_spec h hk hi
      obtain ⟨h2, hprogress', hnil', hother', hremote', hcpus', hbatch'⟩ := ih h1 his hnd
      rw [List.foldl_cons]
      refine ⟨h2, hprogress.trans hprogress', ?_, ?_, ?_, ?_, ?_⟩
      · refine List.forall_mem_cons.mpr ⟨?_, hnil'⟩
        rw [hother' (.cpu i) fun i' hi' heq => hnot (CacheId.cpu.inj heq ▸ hi')]
        exact hnil
      · intro c hc
        obtain ⟨hci, hcis⟩ := List.forall_mem_cons.mp hc
        rw [hother' c hcis, hother c hci]
      · refine List.forall_mem_cons.mpr ⟨fun hik => ?_, hremote'⟩
        rw [hcpus' i hnot hik]
        exact hremote
      · intro i' hi' hk'
        rw [hcpus' i' (List.not_mem_of_not_mem_cons hi') hk',
          hcpus i' (List.ne_of_not_mem_cons hi') hk']
      · intro hk'
        rw [hbatch' (List.not_mem_of_not_mem_cons hk'), hbatch (Ne.symm (List.ne_of_not_mem_cons hk')),
          List.flatMap_cons, List.foldl_append]
        congr 1
        refine List.flatMap_congr fun i' hi' => ?_
        unfold State.strays
        rw [hprogress.owner_eq, hother (.cpu i') fun heq => hnot (CacheId.cpu.inj heq ▸ hi')]

/-- **The other loops, one cache** that holds no objects of others: its lists are empty then.
Source: `sys/slab_allocator.cpp` `SlabAllocatorRoot::~SlabAllocatorRoot`
Kind: L -/
theorem reclaim_spec (h : Tidy root t.state) (hk : k < maxNumCpus) (hc : c.Known)
    (hown : ∀ o ∈ (t.state.caches c).objectList, t.state.owner o = c) :
    Tidy root (reclaim root k t c).state ∧ Progress t (reclaim root k t c) ∧
      ((reclaim root k t c).state.caches c).objectList = [] ∧
      ((reclaim root k t c).state.caches c).remote = [] ∧
      (∀ c' ≠ c, ((reclaim root k t c).state.caches c').objectList = (t.state.caches c').objectList ∧
        ((reclaim root k t c).state.caches c').remote = (t.state.caches c').remote) ∧
      ∀ i, ((reclaim root k t c).state.cpus i).remoteList.length =
        (t.state.cpus i).remoteList.length := by
  obtain ⟨u, hu⟩ : ∃ u : Teardown, u = ⟨claimRemoteFreeList c t.state, t.returned⟩ := ⟨_, rfl⟩
  have htidy : Tidy root u.state := by
    rw [hu]
    exact ⟨h.inv.claimRemoteFreeList, h.homed.claimRemoteFreeList, h.idle⟩
  have hself : u.state.caches c = { t.state.caches c with
      objectList := spliceAfterEnd (t.state.caches c).objectList (t.state.caches c).remote
      remote := [] } := by
    rw [hu]
    unfold claimRemoteFreeList
    rw [State.setCache_caches, Function.update_self]
  have hother : ∀ c' ≠ c, u.state.caches c' = t.state.caches c' := by
    intro c' hc'
    rw [hu]
    unfold claimRemoteFreeList
    rw [State.setCache_caches, Function.update_of_ne hc']
  have hcpus : u.state.cpus = t.state.cpus := by
    rw [hu]
    rfl
  have hprogress : Progress t u := by
    rw [hu]
    exact Progress.of_pages rfl rfl rfl
  -- what is claimed belongs to the cache
  have hstrays : u.state.strays c = [] := by
    unfold State.strays
    refine List.filter_eq_nil_iff.mpr fun c' hc' => ?_
    obtain ⟨o, ho, rfl⟩ := List.mem_map.mp hc'
    rw [hself] at ho
    have hmem := (perm_spliceAfterEnd _ _).mem_iff.mp ho
    rw [hprogress.owner_eq]
    rcases List.mem_append.mp hmem with ho | ho
    · simp [hown o ho]
    · simp [(h.homed.remote c o ho).1]
  obtain ⟨htidy', hnil, hflushed⟩ := flushFreeListAll_spec htidy hk hc
  rw [hstrays] at hflushed
  have hreclaim : reclaim root k t c = flushFreeListAll root k c u := by
    rw [hu]
    rfl
  rw [hreclaim]
  refine ⟨htidy', hprogress.trans hflushed.progress, hnil, ?_, ?_, ?_⟩
  · rw [hflushed.remote rfl, hself]
  · intro c' hc'
    rw [hflushed.objectList c' hc', hflushed.remote rfl, hother c' hc']
    exact ⟨rfl, rfl⟩
  · intro i
    by_cases hik : i = k
    · rw [hik]
      have hbatch := congrArg Prod.snd hflushed.batch
      rw [List.foldl_nil] at hbatch
      unfold State.batchOf at hbatch
      dsimp only at hbatch
      rw [hbatch, hcpus]
    · rw [hflushed.cpus i hik, hcpus]

/-- **The other loops**, over some caches.
Source: `sys/slab_allocator.cpp` `SlabAllocatorRoot::~SlabAllocatorRoot`
Kind: L -/
theorem foldl_reclaim (cs : List CacheId) (hk : k < maxNumCpus) (h : Tidy root t.state)
    (hcs : ∀ c ∈ cs, c.Known) (hown : ∀ c ∈ cs, ∀ o ∈ (t.state.caches c).objectList,
      t.state.owner o = c) :
    Tidy root (cs.foldl (reclaim root k) t).state ∧ Progress t (cs.foldl (reclaim root k) t) ∧
      (∀ c, (c ∈ cs ∨ (t.state.caches c).objectList = [] ∧ (t.state.caches c).remote = []) →
        ((cs.foldl (reclaim root k) t).state.caches c).objectList = [] ∧
        ((cs.foldl (reclaim root k) t).state.caches c).remote = []) ∧
      (∀ c ∉ cs, ((cs.foldl (reclaim root k) t).state.caches c).objectList =
        (t.state.caches c).objectList) ∧
      ∀ i, ((cs.foldl (reclaim root k) t).state.cpus i).remoteList.length =
        (t.state.cpus i).remoteList.length := by
  induction cs generalizing t with
  | nil =>
      refine ⟨h, Progress.of_pages rfl rfl rfl, fun c hc => ?_, fun _ _ => rfl, fun _ => rfl⟩
      exact hc.resolve_left List.not_mem_nil
  | cons c cs ih =>
      obtain ⟨hc, hcs⟩ := List.forall_mem_cons.mp hcs
      obtain ⟨hownc, hown⟩ := List.forall_mem_cons.mp hown
      obtain ⟨h1, hprogress, hlist, hremote, hother, hlength⟩ := reclaim_spec h hk hc hownc
      have hown' : ∀ c' ∈ cs, ∀ o ∈ ((reclaim root k t c).state.caches c').objectList,
          (reclaim root k t c).state.owner o = c' := by
        intro c' hc' o ho
        rw [hprogress.owner_eq]
        by_cases heq : c' = c
        · rw [heq, hlist] at ho
          cases ho
        · rw [(hother c' heq).1] at ho
          exact hown c' hc' o ho
      obtain ⟨h2, hprogress', hdone, hrest, hlength'⟩ := ih h1 hcs hown'
      rw [List.foldl_cons]
      refine ⟨h2, hprogress.trans hprogress', fun c' hc' => hdone c' ?_, fun c' hc' => ?_, fun i => ?_⟩
      · by_cases heq : c' = c
        · rw [heq]
          exact Or.inr ⟨hlist, hremote⟩
        · rcases hc' with hmem | hnil
          · exact Or.inl ((List.mem_cons.mp hmem).resolve_left heq)
          · rw [(hother c' heq).1, (hother c' heq).2]
            exact Or.inr hnil
      · rw [hrest c' (List.not_mem_of_not_mem_cons hc'), (hother c' (List.ne_of_not_mem_cons hc')).1]
      · rw [hlength' i, hlength i]

/-! ## The destructor -/

/-- Everything is returned: the lists of all caches and CPUs are empty, and each slab that there was
has been passed to the page allocator once.
Source: `sys/slab_allocator.cpp` `SlabCache::~SlabCache`
Kind: D -/
structure Emptied (s : State) (t : Teardown) : Prop where
  objectList : ∀ c, (t.state.caches c).objectList = []
  remote : ∀ c, (t.state.caches c).remote = []
  partialPageList : ∀ c, (t.state.caches c).partialPageList = []
  remoteList : ∀ k, (t.state.cpus k).remoteList = []
  returned : t.returned.Perm s.blocks

/-- What the CPUs after `k` hold for other caches, in the order in which it is flushed.
Source: `sys/slab_allocator.cpp` `SlabAllocatorRoot::~SlabAllocatorRoot`
Kind: D -/
def State.laterStrays (s : State) (k : ℕ) : List CacheId :=
  (List.range' (k + 1) (maxNumCpus - (k + 1))).flatMap fun i => s.strays (.cpu i)

/-- What the destructor handles: every slab has an object that is in use (or was freed and not flushed
yet), and what later CPUs hold for others fills its last batch.
Source: `sys/slab_allocator.cpp` `SlabAllocatorRoot::~SlabAllocatorRoot`
Kind: D -/
def Reclaimable (root : SlabAllocatorRoot) (k : ℕ) (s : State) : Prop :=
  (∀ b ∈ s.blocks, (s.data b).used ≠ 0) ∧ root.freeBatch + 1 ∣ lastRun (s.laterStrays k)

/-- **The first loop** leaves on CPU `k` what the last run of objects of one cache among the strays of
later CPUs leaves over.
Source: `sys/slab_allocator.cpp` `SlabAllocatorRoot::~SlabAllocatorRoot`
Kind: L -/
theorem foldl_flushCpu_length (h : Tidy root s) (hk : k < maxNumCpus) :
    (((List.range maxNumCpus).foldl (flushCpu root k) ⟨s, []⟩).state.cpus k).remoteList.length =
      lastRun (s.laterStrays k) % (root.freeBatch + 1) := by
  have hsplit : List.range maxNumCpus =
      List.range k ++ k :: List.range' (k + 1) (maxNumCpus - (k + 1)) := by
    rw [List.range_eq_range', List.range_eq_range', ← List.range'_succ]
    have hcount : maxNumCpus = k + (maxNumCpus - (k + 1) + 1) := by omega
    conv_lhs => rw [hcount]
    rw [← List.range'_append_1]
    simp
  obtain ⟨t₁, ht₁⟩ : ∃ t₁, t₁ = (List.range k).foldl (flushCpu root k) ⟨s, []⟩ := ⟨_, rfl⟩
  obtain ⟨h1, hprogress, -, hother, -, -, -⟩ := foldl_flushCpu (t := ⟨s, []⟩) (List.range k) hk h
    (fun i hi => (List.mem_range.mp hi).trans hk) List.nodup_range
  rw [← ht₁] at h1 hprogress hother
  obtain ⟨h2, hprogress', -, hother', hremote, -, -⟩ := flushCpu_spec h1 hk hk
  obtain ⟨t₂, ht₂⟩ : ∃ t₂, t₂ = flushCpu root k t₁ k := ⟨_, rfl⟩
  rw [← ht₂] at h2 hprogress' hother' hremote
  have hlater : ∀ i ∈ List.range' (k + 1) (maxNumCpus - (k + 1)), k < i ∧ i < maxNumCpus := by
    intro i hi
    have hmem := List.mem_range'_1.mp hi
    omega
  obtain ⟨-, -, -, -, -, -, hbatch⟩ := foldl_flushCpu (t := t₂)
    (List.range' (k + 1) (maxNumCpus - (k + 1))) hk h2
    (fun i hi => (hlater i hi).2) (List.nodup_range' (s := k + 1) (n := maxNumCpus - (k + 1)))
  have hstrays : (List.range' (k + 1) (maxNumCpus - (k + 1))).flatMap
      (fun i => t₂.state.strays (.cpu i)) = s.laterStrays k := by
    refine List.flatMap_congr fun i hi => ?_
    have hlt := (hlater i hi).1
    unfold State.strays
    rw [hprogress'.owner_eq, hprogress.owner_eq, hother' (.cpu i) (by simp; omega),
      hother (.cpu i) fun i' hi' heq => by
        have hlt' := List.mem_range.mp hi'
        have heq' := CacheId.cpu.inj heq
        omega]
  have hbatch' := hbatch fun hmem => absurd (hlater k hmem).1 (lt_irrefl k)
  rw [hstrays] at hbatch'
  have hempty : t₂.state.batchOf k = ((t₂.state.cpus k).remoteCache, 0) := by
    unfold State.batchOf
    rw [hremote]
    rfl
  rw [hempty, foldl_batch] at hbatch'
  rw [hsplit, List.foldl_append, ← ht₁, List.foldl_cons, ← ht₂]
  exact congrArg Prod.snd hbatch'

/-- **What the destructor comes to.** All lists of the caches are empty, and of the CPUs' remote lists
only that of CPU `k` may have objects left.
Source: `sys/slab_allocator.cpp` `SlabAllocatorRoot::~SlabAllocatorRoot`
Kind: L -/
theorem destroy_spec (h : Tidy root s) (hk : k < maxNumCpus) :
    Tidy root (destroy root k s).state ∧ Progress ⟨s, []⟩ (destroy root k s) ∧
      (∀ c, ((destroy root k s).state.caches c).objectList = [] ∧
        ((destroy root k s).state.caches c).remote = []) ∧
      (∀ i ≠ k, ((destroy root k s).state.cpus i).remoteList = []) ∧
      ((destroy root k s).state.cpus k).remoteList.length =
        lastRun (s.laterStrays k) % (root.freeBatch + 1) := by
  have hlength := foldl_flushCpu_length h hk
  obtain ⟨h1, hprogress, hnil, -, hremote, -, -⟩ := foldl_flushCpu (t := ⟨s, []⟩)
    (List.range maxNumCpus) hk h (fun i hi => List.mem_range.mp hi) List.nodup_range
  obtain ⟨t₁, ht₁⟩ : ∃ t₁, t₁ = (List.range maxNumCpus).foldl (flushCpu root k) ⟨s, []⟩ := ⟨_, rfl⟩
  rw [← ht₁] at h1 hprogress hnil hremote hlength
  have hcpus : ∀ c ∈ (List.range maxNumCpus).map CacheId.cpu, ∃ i < maxNumCpus, c = .cpu i := by
    intro c hc
    obtain ⟨i, hi, rfl⟩ := List.mem_map.mp hc
    exact ⟨i, List.mem_range.mp hi, rfl⟩
  have hnodes : ∀ c ∈ (List.range maxNumaNodes).map CacheId.node, ∃ n < maxNumaNodes, c = .node n := by
    intro c hc
    obtain ⟨n, hn, rfl⟩ := List.mem_map.mp hc
    exact ⟨n, List.mem_range.mp hn, rfl⟩
  obtain ⟨h2, hprogress', hdone, -, hlength'⟩ := foldl_reclaim
    ((List.range maxNumCpus).map CacheId.cpu) hk h1
    (fun c hc => by
      obtain ⟨i, hi, rfl⟩ := hcpus c hc
      exact hi)
    (fun c hc o ho => by
      obtain ⟨i, hi, rfl⟩ := hcpus c hc
      rw [hnil i (List.mem_range.mpr hi)] at ho
      cases ho)
  obtain ⟨t₂, ht₂⟩ : ∃ t₂, t₂ = ((List.range maxNumCpus).map CacheId.cpu).foldl (reclaim root k) t₁ :=
    ⟨_, rfl⟩
  rw [← ht₂] at h2 hprogress' hdone hlength'
  obtain ⟨h3, hprogress'', hdone', -, hlength''⟩ := foldl_reclaim
    ((List.range maxNumaNodes).map CacheId.node) hk h2
    (fun c hc => by
      obtain ⟨n, hn, rfl⟩ := hnodes c hc
      exact hn)
    (fun c hc o ho => by
      obtain ⟨n, -, rfl⟩ := hnodes c hc
      exact (h2.homed.objectList _ o ho).2 n rfl)
  have hdestroy : destroy root k s =
      ((List.range maxNumaNodes).map CacheId.node).foldl (reclaim root k) t₂ := by
    rw [ht₂, ht₁]
    rfl
  rw [← hdestroy] at h3 hprogress'' hdone' hlength''
  refine ⟨h3, (hprogress.trans hprogress').trans hprogress'', fun c => ?_, fun i hi => ?_, ?_⟩
  · by_cases hc : c.Known
    · refine hdone' c ?_
      cases c with
      | cpu i => exact Or.inr (hdone _ (Or.inl (List.mem_map_of_mem (List.mem_range.mpr hc))))
      | node n => exact Or.inl (List.mem_map_of_mem (List.mem_range.mpr hc))
    · exact ⟨List.eq_nil_iff_forall_not_mem.mpr fun o ho => hc (h3.homed.objectList c o ho).1,
        List.eq_nil_iff_forall_not_mem.mpr fun o ho => hc (h3.homed.remote c o ho).2⟩
  · by_cases hin : i < maxNumCpus
    · refine List.eq_nil_of_length_eq_zero ?_
      rw [hlength'' i, hlength' i, hremote i (List.mem_range.mpr hin) hi]
      rfl
    · exact List.eq_nil_iff_forall_not_mem.mpr fun o ho => hin (h3.homed.remoteList i o ho).1
  · rw [hlength'' k, hlength' k, hlength]

/-- With all lists empty and nothing in a client's hands, a slab that is left has no used object.
Source: `sys/slab_allocator.cpp` `SlabAllocatorRoot::~SlabAllocatorRoot`
Kind: L -/
theorem used_eq_zero (h : Inv root [] s) (hheld : s.held = [])
    (hcaches : ∀ c, (s.caches c).objectList = [] ∧ (s.caches c).remote = [])
    (hcpus : ∀ k, (s.cpus k).remoteList = []) (hb : b ∈ s.blocks) : (s.data b).used = 0 := by
  have hsub : root.objects b ⊆ (s.data b).list := by
    intro o ho
    obtain ⟨p, hp⟩ := (h.objects.cover o).mp ⟨b, hb, ho⟩
    have hnil : ∀ p, (∀ q, p ≠ some (.page q)) → s.withHand [] p = [] := by
      rintro (_ | _ | c | i | c | q) hp
      · rfl
      · exact hheld
      · exact (hcaches c).1
      · exact hcpus i
      · exact (hcaches c).2
      · exact absurd rfl (hp q)
    have hpage : ∃ q, p = some (.page q) := by
      by_contra hne
      rw [hnil p fun q hq => hne ⟨q, hq⟩] at hp
      cases hp
    obtain ⟨q, rfl⟩ := hpage
    have hq : addrToSlabPfn o root.order = q := h.own q o hp
    rw [root.addrToSlabPfn_of_mem (h.block b hb) ho] at hq
    exact hq ▸ hp
  have hle := ((root.nodup_objects b).subperm hsub).length_le
  have hcount := h.count b hb
  rw [root.length_objects] at hle
  omega

/-- **Destroying a slab root.** After any allocations and frees, once no call runs and clients hold
nothing, the destructor returns everything exactly when every slab has an object that was used and
the last batch of what later CPUs hold for others is full.
Source: `sys/slab_allocator.cpp` `SlabAllocatorRoot::~SlabAllocatorRoot`
Kind: C
Fidelity: an allocator that was never created is one with empty lists
Hyps: `hidle`, `hheld`: the root is destroyed when nobody uses it; `hrun`: clients allocate and free, and
no more -/
theorem slabDestroy_exactlyWhen (root : SlabAllocatorRoot) (topo : Topology) (boot : ℕ → SlabData)
    (as : List Step) (s : State) (k : ℕ)
    (hrun : ((slabSystem root topo).guard AllocsAndFrees).Run (State.init boot) as s)
    (hidle : ∀ i, (s.cpus i).stack = []) (hheld : s.held = []) (hk : k < maxNumCpus) :
    Emptied s (destroy root k s) ↔ Reclaimable root k s := by
  have htidy : Tidy root s := ⟨(Good.of_run hrun.of_guard).inv, Homed.of_run hrun, hidle⟩
  obtain ⟨htidy', hprogress, hcaches, hcpus, hlength⟩ := destroy_spec htidy hk
  have hperm : ((destroy root k s).returned ++ (destroy root k s).state.blocks).Perm s.blocks :=
    hprogress.returned
  constructor
  · intro hemptied
    refine ⟨fun b hb hzero => ?_, Nat.dvd_of_mod_eq_zero ?_⟩
    · have hleft := (hprogress.unused b hb hzero).1
      have hcount := hperm.length_eq
      rw [List.length_append, hemptied.returned.length_eq] at hcount
      have hpos := List.length_pos_of_mem hleft
      omega
    · rw [← hlength, hemptied.remoteList k]
      rfl
  · rintro ⟨hused, hdvd⟩
    have hremote : ∀ i, ((destroy root k s).state.cpus i).remoteList = [] := by
      intro i
      by_cases hik : i = k
      · rw [hik]
        refine List.eq_nil_of_length_eq_zero ?_
        rw [hlength, Nat.mod_eq_zero_of_dvd hdvd]
      · exact hcpus i hik
    have hheld' : (destroy root k s).state.held = [] := hprogress.held.trans hheld
    have hblocks : (destroy root k s).state.blocks = [] := by
      refine List.eq_nil_iff_forall_not_mem.mpr fun b hb => ?_
      exact hprogress.used hused b hb (used_eq_zero htidy'.inv hheld' hcaches hremote hb)
    refine ⟨fun c => (hcaches c).1, fun c => (hcaches c).2, fun c => ?_, hremote, ?_⟩
    · refine List.eq_nil_iff_forall_not_mem.mpr fun b hb => ?_
      have hmem := (htidy'.inv.of_mem_partialPages hb).1
      rw [hblocks] at hmem
      cases hmem
    · rw [hblocks, List.append_nil] at hperm
      exact hperm

/-- All CPUs and all memory on one node. Source: none: infrastructure. Kind: D -/
def oneNode : Topology := ⟨fun _ => 0, fun _ => 0⟩

/-- CPU 0 allocates an object and CPU 1 frees it into its own cache.
Source: none: infrastructure
Kind: D -/
def strayFree : List Step :=
  [.call 0 (.alloc 0), .run 0 none, .run 0 (some 64), .run 0 none, .call 1 (.free 262144)]

/-- Source: none: infrastructure. Kind: L -/
theorem run_strayFree :
    ∃ s, ((slabSystem rootOf256K oneNode).guard AllocsAndFrees).Run (State.init blank) strayFree s ∧
      (∀ i, (s.cpus i).stack = []) ∧ s.held = [] ∧
      (s.blocks, (s.data 64).used, lastRun (s.laterStrays 0), lastRun (s.laterStrays 1)) =
        ([64], 1, 1, 0) := by
  have hadmits : ((slabSystem rootOf256K oneNode).guard AllocsAndFrees).Admits (State.init blank)
      strayFree := by
    decide +kernel
  have hlow : ((slabSystem rootOf256K oneNode).exec (State.init blank) strayFree).map
      (fun s => ((s.cpus 0).stack, (s.cpus 1).stack, s.held)) = some ([], [], []) := by
    decide +kernel
  have hhigh : ∀ i, ((slabSystem rootOf256K oneNode).exec (State.init blank) strayFree).map
      (fun s => (s.cpus (i + 2)).stack) = some [] := fun _ => rfl
  have hend : ((slabSystem rootOf256K oneNode).exec (State.init blank) strayFree).map
      (fun s => (s.blocks, (s.data 64).used, lastRun (s.laterStrays 0), lastRun (s.laterStrays 1))) =
        some ([64], 1, 1, 0) := by
    decide +kernel
  obtain ⟨s, hexec, hrun⟩ := System.Run.of_admits hadmits
  have hexec : (slabSystem rootOf256K oneNode).exec (State.init blank) strayFree = some s := hexec
  rw [hexec] at hlow hend
  simp only [hexec] at hhigh
  have hlow : ((s.cpus 0).stack, (s.cpus 1).stack, s.held) = ([], [], []) := Option.some.inj hlow
  simp only [Prod.mk.injEq] at hlow
  refine ⟨s, hrun, fun i => ?_, hlow.2.2, Option.some.inj hend⟩
  match i with
  | 0 => exact hlow.1
  | 1 => exact hlow.2.1
  | i + 2 => exact Option.some.inj (hhigh i)

/-- CPU 1 destroys the root: its own list is flushed before its remote list, and all is returned.
Source: `sys/slab_allocator.cpp` `SlabAllocatorRoot::~SlabAllocatorRoot`
Kind: C -/
theorem slabDestroy_exactlyWhen_ownStray :
    ∃ s, ((slabSystem rootOf256K oneNode).guard AllocsAndFrees).Run (State.init blank) strayFree s ∧
      s.blocks = [64] ∧ Emptied s (destroy rootOf256K 1 s) := by
  obtain ⟨s, hrun, hidle, hheld, hend⟩ := run_strayFree
  simp only [Prod.mk.injEq] at hend
  obtain ⟨hblocks, hused, -, hlast⟩ := hend
  refine ⟨s, hrun, hblocks, ?_⟩
  refine (slabDestroy_exactlyWhen rootOf256K oneNode blank strayFree s 1 hrun hidle hheld
    (by decide)).mpr ⟨fun b hb => ?_, ?_⟩
  · rw [hblocks] at hb
    rw [List.mem_singleton.mp hb, hused]
    exact one_ne_zero
  · rw [hlast]
    exact dvd_zero _

/-- CPU 0 destroys the root: the object that CPU 1 holds is put on CPU 0's remote list after that
list was flushed, and stays there.
Source: `sys/slab_allocator.cpp` `SlabAllocatorRoot::~SlabAllocatorRoot`
Kind: C -/
theorem slabDestroy_not_always :
    ¬ ∀ (root : SlabAllocatorRoot) (topo : Topology) (boot : ℕ → SlabData) (as : List Step)
      (s : State) (k : ℕ),
      ((slabSystem root topo).guard AllocsAndFrees).Run (State.init boot) as s →
      (∀ i, (s.cpus i).stack = []) → s.held = [] → k < maxNumCpus →
        Emptied s (destroy root k s) := by
  intro hall
  obtain ⟨s, hrun, hidle, hheld, hend⟩ := run_strayFree
  simp only [Prod.mk.injEq] at hend
  have hemptied := hall rootOf256K oneNode blank strayFree s 0 hrun hidle hheld (by decide)
  have htidy : Tidy rootOf256K s :=
    ⟨(Good.of_run hrun.of_guard).inv, Homed.of_run hrun, hidle⟩
  have hlength := (destroy_spec (k := 0) htidy (by decide)).2.2.2.2
  rw [hemptied.remoteList 0, hend.2.2.1] at hlength
  exact absurd hlength (by decide)

end Slab

end EbbRT
