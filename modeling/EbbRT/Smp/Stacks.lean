import EbbRT.Lib.Linked
import EbbRT.Lib.System
import EbbRT.Mem.PageAllocatorRuns

/-!
# The stacks of the application processors

`smp_init` links one page for each application processor through the pages' first words; a processor
that starts pops one with a compare-exchange on the head. It reads the link of a stack that another
processor may have popped in between and may be using. `stacks_always`: the compare-exchange then
fails, because a head that was popped is never the head again, so the processors' stacks are apart
and the list is what they have left.
-/

namespace EbbRT

namespace Smp

open EbbRT.Lib

/-! ## The code -/

/-- Where a processor is in the loop, with its registers: at the load of the head, at the load
through it, at the compare-exchange, or past it, with `rsp` at the end of the stack.
Source: `sys/boot.S` `smpboot64`
Kind: D -/
inductive Pc
  | loadHead
  | loadNext (rax : ℕ)
  | cmpxchg (rax rbx : ℕ)
  | taken (rax : ℕ)
  deriving DecidableEq, Repr

/-- The quadwords of memory by their address, the head of the list, which lies in the page of the
start code, and the `m` processors that execute it.
Source: `sys/boot.S` `smp_stack_free`, `smpboot64`
Kind: D -/
structure State (m : ℕ) where
  mem : ℕ → ℕ
  smpStackFree : ℕ
  pc : Fin m → Pc

/-- The pages that `Alloc` answers, the memory before, and `stack_list`; `none` is an abort.
Source: `sys/smp.cpp` `smp_init`
Kind: D -/
def linkStacks : List ℕ → (ℕ → ℕ) → ℕ → Option ((ℕ → ℕ) × ℕ)
  | [], mem, stackList => some (mem, stackList)
  | pfn :: pfns, mem, stackList =>
      if pfn = 0 then none
      else
        let addr := pfnToAddr pfn
        if 1 <<< 30 ≤ addr then none
        else linkStacks pfns (Function.update mem addr stackList) addr

variable {m : ℕ}

/-- The memory when the processors are started.
Source: `sys/smp.cpp` `smp_init`
Kind: D -/
def smpInit (m : ℕ) (pfns : List ℕ) (mem : ℕ → ℕ) : Option (State m) :=
  (linkStacks pfns mem 0).map fun (mem, stackList) => ⟨mem, stackList, fun _ => .loadHead⟩

/-- Source: none: infrastructure
Kind: D -/
def State.goto (s : State m) (i : Fin m) (pc : Pc) : State m :=
  { s with pc := Function.update s.pc i pc }

/-- The next instruction of a processor in the loop.
Source: `sys/boot.S` `smpboot64`
Kind: D -/
def State.run (s : State m) (i : Fin m) : Option (State m) :=
  match s.pc i with
  | .loadHead => some (s.goto i (.loadNext s.smpStackFree))
  | .loadNext rax => some (s.goto i (.cmpxchg rax (s.mem rax)))
  | .cmpxchg rax rbx =>
      if s.smpStackFree = rax then some { s.goto i (.taken rax) with smpStackFree := rbx }
      -- `jnz 1b`
      else some (s.goto i .loadHead)
  | .taken _ => none

/-! ## The system -/

/-- A processor executes an instruction of the loop, or what it runs on its stack stores a quadword.
Source: none: infrastructure
Kind: D -/
inductive Op (m : ℕ)
  | run (i : Fin m)
  | store (i : Fin m) (addr val : ℕ)
  deriving DecidableEq, Repr

/-- A processor that has a stack may overwrite any part of it.
Source: none: infrastructure
Kind: D -/
def Legal (s : State m) : Op m → Prop
  | .run _ => True
  | .store i addr _ =>
      match s.pc i with
      | .taken stack => stack ≤ addr ∧ addr < stack + pageSize
      | _ => False

/-- Source: none: infrastructure
Kind: D -/
def step (s : State m) : Op m → Option (State m)
  | .run i => s.run i
  | .store _ addr val => some { s with mem := Function.update s.mem addr val }

/-- `m` processors that pop their stacks in any order and use those they have.
Source: `sys/boot.S` `smpboot64`
Kind: D -/
def system (m : ℕ) : System (State m) (Op m) := ⟨Legal, step⟩

instance (s : State m) : ∀ op : Op m, Decidable ((system m).legal s op)
  | .run _ => inferInstanceAs (Decidable True)
  | .store i addr _ =>
      match h : s.pc i with
      | .taken stack =>
          decidable_of_iff (stack ≤ addr ∧ addr < stack + pageSize) (by simp [system, Legal, h])
      | .loadHead => isFalse (by simp [system, Legal, h])
      | .loadNext _ => isFalse (by simp [system, Legal, h])
      | .cmpxchg _ _ => isFalse (by simp [system, Legal, h])

/-- The stacks of the processors are apart and among `pages`, and the list is the rest of these.
Source: none: infrastructure
Kind: D -/
structure Apart (pages : List ℕ) (s : State m) : Prop where
  distinct : ∀ i j stack, s.pc i = .taken stack → s.pc j = .taken stack → i = j
  linked : ∀ i stack, s.pc i = .taken stack → stack ∈ pages
  remaining : ∃ rest, Linked s.mem 0 s.smpStackFree rest ∧ rest.Nodup ∧
    ∀ stack, stack ∈ rest ↔ stack ∈ pages ∧ ∀ i, s.pc i ≠ .taken stack

/-! ## The invariant -/

/-- Source: none: infrastructure
Kind: D -/
def Pc.stack? : Pc → Option ℕ
  | .taken stack => some stack
  | _ => none

/-- The stacks that the processors have.
Source: none: infrastructure
Kind: D -/
def State.taken (s : State m) : List ℕ := (List.finRange m).filterMap fun i => (s.pc i).stack?

/-- `rest` is the list, and with the processors' stacks it makes up all of them. A processor that has
loaded the link of a stack that is still in the list has the link that is there now.
Source: none: infrastructure
Kind: D -/
structure Inv (pages rest : List ℕ) (s : State m) : Prop where
  linked : Linked s.mem 0 s.smpStackFree rest
  perm : (s.taken ++ rest).Perm pages
  next : ∀ i rax rbx, s.pc i = .cmpxchg rax rbx → rax ∈ rest → rbx = s.mem rax

variable {s s' : State m} {pages rest : List ℕ} {i j : Fin m} {stack : ℕ} {pc : Pc}

@[simp] theorem Pc.stack?_eq_some : pc.stack? = some stack ↔ pc = .taken stack := by
  cases pc <;> simp [Pc.stack?]

/-- Source: none: infrastructure
Kind: L -/
theorem mem_taken : stack ∈ s.taken ↔ ∃ i, s.pc i = .taken stack := by
  simp [State.taken]

/-- A list that gets one more value from one more index.
Source: none: infrastructure
Kind: L -/
theorem filterMap_perm_cons {ι α : Type*} [DecidableEq ι] {f g : ι → Option α} {l : List ι} {i : ι}
    {a : α} (hl : l.Nodup) (hi : i ∈ l) (hnone : f i = none) (hsome : g i = some a)
    (hother : ∀ j ≠ i, g j = f j) : (l.filterMap g).Perm (a :: l.filterMap f) := by
  have hl' := List.perm_cons_erase hi
  have herase : (l.erase i).filterMap g = (l.erase i).filterMap f := by
    apply List.filterMap_congr
    intro j hj
    apply hother
    rintro rfl
    exact hl.not_mem_erase hj
  have hg := hl'.filterMap g
  have hf := hl'.filterMap f
  rw [List.filterMap_cons_some hsome, herase] at hg
  rw [List.filterMap_cons_none hnone] at hf
  exact hg.trans (hf.symm.cons a)

/-- A processor without a stack that moves on without one.
Source: none: infrastructure
Kind: L -/
theorem taken_goto (hfrom : (s.pc i).stack? = none) (hto : pc.stack? = none) :
    (s.goto i pc).taken = s.taken := by
  unfold State.taken
  apply List.filterMap_congr
  intro j _
  by_cases hj : j = i
  · subst hj
    simp [State.goto, hfrom, hto]
  · simp [State.goto, hj]

/-- A processor that gets a stack.
Source: none: infrastructure
Kind: L -/
theorem taken_take (hfrom : (s.pc i).stack? = none) :
    (s.goto i (.taken stack)).taken.Perm (stack :: s.taken) := by
  apply filterMap_perm_cons (List.nodup_finRange m) (List.mem_finRange i) hfrom
  · simp [State.goto]
  · intro j hj
    simp [State.goto, hj]

/-- A processor without a stack finds one in the list, if there are as many stacks as processors.
Source: none: infrastructure
Kind: L -/
theorem Inv.rest_ne_nil (h : Inv pages rest s) (hm : m ≤ pages.length)
    (hpc : (s.pc i).stack? = none) : rest ≠ [] := by
  intro hnil
  have htook : s.taken.length < (s.goto i (.taken 0)).taken.length := by
    rw [(taken_take hpc).length_eq]
    simp
  have hle : (s.goto i (.taken 0)).taken.length ≤ m := by
    unfold State.taken
    exact (List.length_filterMap_le _ _).trans (List.length_finRange).le
  have hlen := h.perm.length_eq
  rw [hnil, List.append_nil] at hlen
  omega

/-- A processor moves on, with nothing else changed.
Source: none: infrastructure
Kind: L -/
theorem Inv.goto (h : Inv pages rest s) (hfrom : (s.pc i).stack? = none)
    (hto : pc.stack? = none)
    (hnext : ∀ rax rbx, pc = .cmpxchg rax rbx → rax ∈ rest → rbx = s.mem rax) :
    Inv pages rest (s.goto i pc) where
  linked := h.linked
  perm := by
    rw [taken_goto hfrom hto]
    exact h.perm
  next j rax rbx hj := by
    by_cases hij : j = i
    · subst hij
      simp only [State.goto, Function.update_self] at hj
      exact hnext rax rbx hj
    · simp only [State.goto, Function.update_of_ne hij] at hj
      exact h.next j rax rbx hj

/-- The compare-exchange finds the head it expects: the list loses it.
Source: `sys/boot.S` `smpboot64`
Kind: L -/
theorem Inv.take {rbx : ℕ} (h : Inv pages rest s) (hm : m ≤ pages.length)
    (hpc : s.pc i = .cmpxchg s.smpStackFree rbx) :
    ∃ rest', Inv pages rest' { s.goto i (.taken s.smpStackFree) with smpStackFree := rbx } := by
  have hfrom : (s.pc i).stack? = none := by
    rw [hpc]
    rfl
  obtain ⟨rest', hrest, hlinked⟩ := h.linked.pop (h.rest_ne_nil hm hfrom)
  -- the head is still in the list, so the link loaded through it is the one there is
  have hrbx := h.next i _ _ hpc (by simp [hrest])
  refine ⟨rest', ?_, ?_, fun j rax rbx' hj hmem => ?_⟩
  · rw [← hrbx] at hlinked
    exact hlinked
  · have hperm := h.perm
    rw [hrest] at hperm
    exact ((taken_take hfrom).append_right rest').trans (List.perm_middle.symm.trans hperm)
  · have hij : j ≠ i := by
      rintro rfl
      simp [State.goto] at hj
    simp only [State.goto, Function.update_of_ne hij] at hj
    exact h.next j rax rbx' hj (by simp [hrest, hmem])

/-- A store into a stack that a processor has does not touch the list.
Source: none: infrastructure
Kind: L -/
theorem Inv.store {addr val : ℕ} (h : Inv pages rest s) (haligned : ∀ a ∈ pages, pageSize ∣ a)
    (hnodup : pages.Nodup) (hpc : s.pc i = .taken stack) (hlo : stack ≤ addr)
    (hhi : addr < stack + pageSize) :
    Inv pages rest { s with mem := Function.update s.mem addr val } := by
  have hnodup' := (h.perm.nodup_iff).mpr hnodup
  have htook : stack ∈ s.taken := mem_taken.mpr ⟨i, hpc⟩
  have hsame : ∀ x ∈ rest, Function.update s.mem addr val x = s.mem x := by
    intro x hx
    apply Function.update_of_ne
    rintro rfl
    have hne : stack ≠ x := by
      rintro rfl
      exact (List.disjoint_of_nodup_append hnodup') htook hx
    obtain ⟨k, rfl⟩ := haligned stack (h.perm.subset (by simp [htook]))
    obtain ⟨l, rfl⟩ := haligned x (h.perm.subset (by simp [hx]))
    have hkl : k < l := by
      apply lt_of_le_of_ne (Nat.le_of_mul_le_mul_left hlo (by decide))
      rintro rfl
      exact hne rfl
    have := Nat.mul_le_mul_left pageSize hkl
    rw [Nat.mul_succ] at this
    omega
  refine ⟨h.linked.congr hsame, h.perm, fun j rax rbx hj hmem => ?_⟩
  exact (h.next j rax rbx hj hmem).trans (hsame rax hmem).symm

/-- Every legal step keeps the invariant, with another rest.
Source: none: infrastructure
Kind: P -/
theorem Inv.step {op : Op m} (h : Inv pages rest s) (hm : m ≤ pages.length)
    (hnodup : pages.Nodup) (haligned : ∀ a ∈ pages, pageSize ∣ a) (hlegal : Legal s op)
    (hstep : step s op = some s') : ∃ rest', Inv pages rest' s' := by
  cases op with
  | run i =>
      simp only [Smp.step, State.run] at hstep
      split at hstep
      · rename_i hpc
        obtain rfl := Option.some.inj hstep
        exact ⟨rest, h.goto (by simp [hpc, Pc.stack?]) rfl (by simp)⟩
      · rename_i rax hpc
        obtain rfl := Option.some.inj hstep
        refine ⟨rest, h.goto (by simp [hpc, Pc.stack?]) rfl ?_⟩
        rintro rax' rbx heq -
        cases heq
        rfl
      · rename_i rax rbx hpc
        split at hstep
        · rename_i hhead
          obtain rfl := Option.some.inj hstep
          subst hhead
          exact h.take hm hpc
        · obtain rfl := Option.some.inj hstep
          exact ⟨rest, h.goto (by simp [hpc, Pc.stack?]) rfl (by simp)⟩
      · simp at hstep
  | store i addr val =>
      obtain rfl := Option.some.inj hstep
      simp only [Legal] at hlegal
      split at hlegal
      · rename_i stack hpc
        exact ⟨rest, h.store haligned hnodup hpc hlegal.1 hlegal.2⟩
      · exact hlegal.elim

/-- The invariant says what it is for.
Source: none: infrastructure
Kind: L -/
theorem Inv.apart (h : Inv pages rest s) (hnodup : pages.Nodup) : Apart pages s := by
  have hnodup' := (h.perm.nodup_iff).mpr hnodup
  refine ⟨fun i j stack hi hj => ?_, fun i stack hi => ?_, rest, h.linked,
    hnodup'.of_append_right, fun stack => ?_⟩
  · by_contra hij
    have hperm : s.taken.Perm (stack :: (s.goto i .loadHead).taken) := by
      apply filterMap_perm_cons (List.nodup_finRange m) (List.mem_finRange i)
      · simp [State.goto, Pc.stack?]
      · simp [hi]
      · intro k hk
        simp [State.goto, hk]
    have hmem : stack ∈ (s.goto i .loadHead).taken := by
      apply mem_taken.mpr
      refine ⟨j, ?_⟩
      simp [State.goto, Ne.symm hij, hj]
    have := hperm.nodup_iff.mp hnodup'.of_append_left
    exact (List.nodup_cons.mp this).1 hmem
  · apply h.perm.subset
    simp only [List.mem_append]
    exact Or.inl (mem_taken.mpr ⟨i, hi⟩)
  · have hmem : stack ∈ s.taken ++ rest ↔ stack ∈ pages := h.perm.mem_iff
    rw [List.mem_append, mem_taken] at hmem
    have hdis := List.disjoint_of_nodup_append hnodup'
    constructor
    · intro hrest
      refine ⟨hmem.mp (Or.inr hrest), fun i hi => ?_⟩
      exact hdis (mem_taken.mpr ⟨i, hi⟩) hrest
    · rintro ⟨hstack, hnone⟩
      apply (hmem.mpr hstack).resolve_left
      rintro ⟨i, hi⟩
      exact hnone i hi

/-! ## The list at the start -/

/-- A page frame that is not page 0 is not at address 0.
Source: `sys/smp.cpp` `smp_init`
Kind: L -/
theorem pfnToAddr_pos {pfn : ℕ} (hpfn : pfn < maxPfn) (hne : pfn ≠ 0) : pfnToAddr pfn ≠ 0 := by
  rw [pfnToAddr_of_lt hpfn]
  apply Nat.mul_ne_zero hne
  decide

/-- Distinct page frames are at distinct addresses.
Source: `sys/smp.cpp` `smp_init`
Kind: L -/
theorem nodup_map_pfnToAddr {pfns : List ℕ} (hnodup : pfns.Nodup)
    (hpfns : ∀ pfn ∈ pfns, pfn < maxPfn) : (pfns.map pfnToAddr).Nodup := by
  apply hnodup.map_on
  intro p hp q hq heq
  rw [pfnToAddr_of_lt (hpfns p hp), pfnToAddr_of_lt (hpfns q hq)] at heq
  exact Nat.eq_of_mul_eq_mul_right (by decide) heq

/-- The loop pushes the pages one after another.
Source: `sys/smp.cpp` `smp_init`
Kind: L -/
theorem linked_linkStacks {pfns l : List ℕ} {mem mem' : ℕ → ℕ} {stackList head : ℕ}
    (h : Linked mem 0 stackList l) (hnodup : (pfns.map pfnToAddr ++ l).Nodup)
    (hpfns : ∀ pfn ∈ pfns, pfn < maxPfn) (hlink : linkStacks pfns mem stackList = some (mem', head)) :
    Linked mem' 0 head ((pfns.map pfnToAddr).reverse ++ l) := by
  induction pfns generalizing l mem stackList with
  | nil =>
      obtain ⟨rfl, rfl⟩ := Prod.ext_iff.mp (Option.some.inj hlink)
      exact h
  | cons pfn pfns ih =>
      unfold linkStacks at hlink
      dsimp only at hlink
      split at hlink
      · simp at hlink
      · rename_i hzero
        split at hlink
        · simp at hlink
        · rw [List.map_cons, List.cons_append] at hnodup
          have hout : pfnToAddr pfn ∉ l := fun hmem =>
            (List.nodup_cons.mp hnodup).1 (List.mem_append_right _ hmem)
          have hpush := h.push (pfnToAddr_pos (hpfns pfn (by simp)) hzero) hout
          have := ih hpush (List.perm_middle.nodup_iff.mpr hnodup)
            (fun q hq => hpfns q (by simp [hq])) hlink
          simpa using this

/-- The invariant holds when the processors are started.
Source: `sys/smp.cpp` `smp_init`
Kind: L -/
theorem inv_smpInit {pfns : List ℕ} {mem : ℕ → ℕ} (hnodup : pfns.Nodup)
    (hpfns : ∀ pfn ∈ pfns, pfn < maxPfn) (hinit : smpInit m pfns mem = some s) :
    Inv (pfns.map pfnToAddr) (pfns.map pfnToAddr).reverse s := by
  obtain ⟨⟨mem', head⟩, hlink, rfl⟩ := Option.map_eq_some_iff.mp hinit
  have hnil : Linked mem 0 0 [] := linked_nil
  have hnodup' := nodup_map_pfnToAddr hnodup hpfns
  rw [← List.append_nil (pfns.map pfnToAddr)] at hnodup'
  have hlinked := linked_linkStacks hnil hnodup' hpfns hlink
  rw [List.append_nil] at hlinked
  refine ⟨hlinked, ?_, by simp⟩
  have hnone : State.taken (⟨mem', head, fun _ => .loadHead⟩ : State m) = [] := by
    simp [State.taken, Pc.stack?]
  rw [hnone]
  exact List.reverse_perm _

/-- The pages that the page allocator has handed out and not got back are distinct.
Source: `sys/page_allocator.hpp` `PageAllocator::Alloc`
Kind: L -/
theorem nodup_of_held {n : ℕ} {blocks : List Block} {t : PageState.BuddyState} {pfns : List ℕ}
    (h : PageState.Conserved n blocks t)
    (hheld : (pfns.map fun pfn => Block.mk pfn 0).Sublist t.held) : pfns.Nodup := by
  have hpair := h.tiles.disjoint.sublist (hheld.trans (List.sublist_append_left _ _))
  rw [List.pairwise_map] at hpair
  apply hpair.imp
  rintro p q hdis rfl
  have hmem : p ∈ (Block.mk p 0).cells := by simp [Block.cells]
  exact Set.disjoint_left.mp hdis hmem hmem

/-! ## The stacks -/

/-- **No two processors run on one stack.** When the pages of `Alloc` are distinct page frames, at most
as many processors as pages pop their stacks and use them in any order, then always their stacks are
apart, each is one of the pages, and the list is made up of those that nobody has.
Source: `sys/boot.S` `smpboot64`, `sys/smp.cpp` `smp_init`
Kind: C
Fidelity: the trampoline's loop is instruction by instruction, what a processor does on its stack any
writes there
Hyps: `hm`: `smp_init` has a page for each processor; `hnodup`: what the page allocator promises
(`nodup_of_held`) -/
theorem stacks_always (m : ℕ) (pfns : List ℕ) (mem : ℕ → ℕ) (s₀ : State m) (hm : m ≤ pfns.length)
    (hnodup : pfns.Nodup) (hpfns : ∀ pfn ∈ pfns, pfn < maxPfn)
    (hinit : smpInit m pfns mem = some s₀) (ops : List (Op m)) (s : State m)
    (hrun : (system m).Run s₀ ops s) : Apart (pfns.map pfnToAddr) s := by
  have hnodup' := nodup_map_pfnToAddr hnodup hpfns
  have haligned : ∀ a ∈ pfns.map pfnToAddr, pageSize ∣ a := by
    intro a ha
    obtain ⟨pfn, hpfn, rfl⟩ := List.mem_map.mp ha
    rw [pfnToAddr_of_lt (hpfns pfn hpfn)]
    exact Nat.dvd_mul_left _ _
  have hinv : ∃ rest, Inv (pfns.map pfnToAddr) rest s := by
    apply hrun.invariant (I := fun s => ∃ rest, Inv (pfns.map pfnToAddr) rest s)
    · exact ⟨_, inv_smpInit hnodup hpfns hinit⟩
    · rintro s op s' ⟨rest, h⟩ hlegal hstep
      exact h.step (by simpa using hm) hnodup' haligned hlegal hstep
  obtain ⟨rest, h⟩ := hinv
  exact h.apart hnodup'

/-- Two processors load the same head; the first pops it and overwrites its link before the second
loads through it, and the compare-exchange of the second fails.
Source: `sys/boot.S` `smpboot64`
Kind: C -/
theorem stacks_always_overwritten :
    ∃ s₀ s : State 2, smpInit 2 [5, 6] (fun _ => 0) = some s₀ ∧
      (system 2).Run s₀ [.run 0, .run 1, .run 0, .run 0, .store 0 24576 7, .run 1, .run 1] s ∧
      s.pc 1 = .loadHead ∧ Apart ([5, 6].map pfnToAddr) s := by
  obtain ⟨s₀, hs₀, hadm, hpc⟩ : ∃ s₀, smpInit 2 [5, 6] (fun _ => 0) = some s₀ ∧
      (system 2).Admits s₀
        [.run 0, .run 1, .run 0, .run 0, .store 0 24576 7, .run 1, .run 1] ∧
      ((system 2).exec s₀
        [.run 0, .run 1, .run 0, .run 0, .store 0 24576 7, .run 1, .run 1]).map (·.pc 1) =
          some .loadHead :=
    ⟨_, rfl, by decide +kernel, by decide +kernel⟩
  obtain ⟨s, hexec, hrun⟩ := Lib.System.Run.of_admits hadm
  refine ⟨s₀, s, hs₀, hrun, ?_, ?_⟩
  · rw [hexec] at hpc
    exact Option.some.inj hpc
  · exact stacks_always 2 [5, 6] (fun _ => 0) s₀ (by decide) (by decide) (by decide) hs₀ _ s hrun

end Smp

end EbbRT
