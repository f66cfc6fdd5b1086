import EbbRT.Lib.System

/-!
# Work under a test-and-set lock

Threads share some state and a flag. A call waits until its `testAndSet` finds the flag clear, works
on the state in small steps, and clears the flag. Between any two steps of a thread all others may
take any number of steps. `locked_sequential`: whatever the order, at most one thread is inside, and
the completed calls, in the order in which they completed, are an execution of whole calls one after
another (`Sequential`); while nobody is inside the state is what that execution leaves.

What a whole call does is found by `Body.Computes`: a function of the state and of the work that is
left, which no small step changes.
-/

namespace EbbRT.Lib

variable {ι σ α L ρ : Type*}

/-- What a small step comes to.
Source: none: infrastructure
Kind: D -/
inductive Turn (σ L ρ : Type*)
  | more (shared : σ) (l : L)
  | done (r : ρ)
  | abort

/-- What a thread does inside, in small steps; `L` is what it has in its registers and on its stack.
Source: none: infrastructure
Kind: D -/
structure Body (σ α L ρ : Type*) where
  start : α → L
  next : σ → L → Turn σ L ρ

namespace Body

/-- A small step that is not the last.
Source: none: infrastructure
Kind: D -/
def Goes (B : Body σ α L ρ) (p q : σ × L) : Prop := B.next p.1 p.2 = .more q.1 q.2

/-- A whole call.
Source: none: infrastructure
Kind: D -/
def Executes (B : Body σ α L ρ) (s : σ) (a : α) (s' : σ) (r : ρ) : Prop :=
  ∃ l, Relation.ReflTransGen B.Goes (s, B.start a) (s', l) ∧ B.next s' l = .done r

/-- `finish s l` is what comes of the work `l` that is left.
Source: none: infrastructure
Kind: D -/
structure Computes (B : Body σ α L ρ) (finish : σ → L → Option (σ × ρ)) : Prop where
  more : ∀ s l s' l', B.next s l = .more s' l' → finish s l = finish s' l'
  done : ∀ s l r, B.next s l = .done r → finish s l = some (s, r)
  abort : ∀ s l, B.next s l = .abort → finish s l = none

/-- Whole calls one after another, each legal where it is made.
Source: none: infrastructure
Kind: D -/
inductive Sequential (legal : σ → α → Prop) (B : Body σ α L ρ) (s₀ : σ) : List (ι × α × ρ) → σ → Prop
  | nil : Sequential legal B s₀ [] s₀
  | snoc {calls : List (ι × α × ρ)} {s s' : σ} {i : ι} {a : α} {r : ρ}
      (before : Sequential legal B s₀ calls s) (hlegal : legal s a) (call : B.Executes s a s' r) :
      Sequential legal B s₀ (calls ++ [(i, a, r)]) s'

variable {B : Body σ α L ρ} {finish : σ → L → Option (σ × ρ)} {legal : σ → α → Prop} {s s' s₀ : σ}
  {a : α} {l l' : L} {r : ρ}

/-- **Small steps do not change the outcome.** Source: none: infrastructure. Kind: L -/
theorem Computes.goes (h : B.Computes finish) (hgoes : Relation.ReflTransGen B.Goes (s, l) (s', l')) :
    finish s l = finish s' l' := by
  suffices hpair : ∀ p q, Relation.ReflTransGen B.Goes p q → finish p.1 p.2 = finish q.1 q.2 from
    hpair _ _ hgoes
  intro p q hpq
  induction hpq with
  | refl => rfl
  | tail _ hstep ih => exact ih.trans (h.more _ _ _ _ hstep)

/-- **A whole call** does what is found for all of its work. Source: none: infrastructure. Kind: L -/
theorem Computes.executes (h : B.Computes finish) (hcall : B.Executes s a s' r) :
    finish s (B.start a) = some (s', r) := by
  obtain ⟨l, hgoes, hdone⟩ := hcall
  rw [h.goes hgoes]
  exact h.done s' l r hdone

/-- Whole calls are the steps of a system. Source: none: infrastructure. Kind: L -/
theorem Sequential.run {M : System σ α} {calls : List (ι × α × ρ)} (h : Sequential legal B s₀ calls s)
    (hlegal : ∀ s a, legal s a → M.legal s a)
    (hstep : ∀ s a s' r, legal s a → B.Executes s a s' r → M.step s a = some s') :
    M.Run s₀ (calls.map fun c => c.2.1) s := by
  induction h with
  | nil => exact System.Run.nil
  | snoc _ hcall call ih =>
      rw [List.map_append]
      exact ih.snoc (hlegal _ _ hcall) (hstep _ _ _ _ hcall call)

end Body

/-! ## Threads -/

/-- Source: none: infrastructure
Kind: D -/
inductive Thread (α L : Type*)
  | idle
  | waiting (a : α)
  | inside (a : α) (l : L)

/-- The flag, what it protects, the threads, and a record of the completed calls.
Source: none: infrastructure
Kind: D -/
structure Locked (ι σ α L ρ : Type*) where
  flag : Bool
  shared : σ
  threads : ι → Thread α L
  history : List (ι × α × ρ)

/-- The steps of the threads.
Source: none: infrastructure
Kind: D -/
inductive LockEvent (ι α : Type*)
  | call (i : ι) (a : α)
  | testAndSet (i : ι)
  | work (i : ι)
  | unlock (i : ι)

namespace Locked

/-- Nobody has called yet.
Source: none: infrastructure
Kind: D -/
def init (s₀ : σ) : Locked ι σ α L ρ := ⟨false, s₀, fun _ => .idle, []⟩

/-- `i` is the only thread inside, and has come from `s` to where it is.
Source: none: infrastructure
Kind: D -/
structure Holder (legal : σ → α → Prop) (B : Body σ α L ρ) (c : Locked ι σ α L ρ) (s : σ) (i : ι)
    (a : α) (l : L) : Prop where
  inside : c.threads i = .inside a l
  only : ∀ j a' l', c.threads j = .inside a' l' → j = i
  hlegal : legal s a
  goes : Relation.ReflTransGen B.Goes (s, B.start a) (c.shared, l)

/-- The completed calls lead to `s`; nobody is inside and the state is `s`, or one thread is, on its
way from `s`.
Source: none: infrastructure
Kind: D -/
structure Follows (legal : σ → α → Prop) (B : Body σ α L ρ) (s₀ : σ) (c : Locked ι σ α L ρ) (s : σ) :
    Prop where
  sequential : B.Sequential legal s₀ c.history s
  free : c.flag = false → c.shared = s ∧ ∀ i a l, c.threads i ≠ .inside a l
  held : c.flag = true → ∃ i a l, c.Holder legal B s i a l

/-- Threads that are inside make the flag set. Source: none: infrastructure. Kind: L -/
theorem Follows.holder {B : Body σ α L ρ} {legal : σ → α → Prop} {s s₀ : σ} {c : Locked ι σ α L ρ} {i : ι}
    {a : α} {l : L} (h : Follows legal B s₀ c s) (hi : c.threads i = .inside a l) :
    c.flag = true ∧ c.Holder legal B s i a l := by
  cases hflag : c.flag with
  | false => exact absurd hi ((h.free hflag).2 i a l)
  | true =>
      obtain ⟨j, a', l', hj⟩ := h.held hflag
      obtain rfl := hj.only i a l hi
      rw [hj.inside] at hi
      cases hi
      exact ⟨rfl, hj⟩

variable [DecidableEq ι]

/-- Source: none: infrastructure
Kind: D -/
def step (B : Body σ α L ρ) (c : Locked ι σ α L ρ) : LockEvent ι α → Option (Locked ι σ α L ρ)
  | .call i a =>
      match c.threads i with
      | .idle => some { c with threads := Function.update c.threads i (.waiting a) }
      | _ => none
  | .testAndSet i =>
      match c.threads i with
      | .waiting a =>
          if c.flag then some c
          else some { c with flag := true, threads := Function.update c.threads i (.inside a (B.start a)) }
      | _ => none
  | .work i =>
      match c.threads i with
      | .inside a l =>
          match B.next c.shared l with
          | .more s l' =>
              some { c with shared := s, threads := Function.update c.threads i (.inside a l') }
          | _ => none
      | _ => none
  | .unlock i =>
      match c.threads i with
      | .inside a l =>
          match B.next c.shared l with
          | .done r =>
              some ⟨false, c.shared, Function.update c.threads i .idle, c.history ++ [(i, a, r)]⟩
          | _ => none
      | _ => none

/-- A call that gets in is legal then.
Source: none: infrastructure
Kind: D -/
def Legal (legal : σ → α → Prop) (c : Locked ι σ α L ρ) : LockEvent ι α → Prop
  | .testAndSet i => ∀ a, c.threads i = .waiting a → c.flag = false → legal c.shared a
  | _ => True

instance (legal : σ → α → Prop) [∀ s a, Decidable (legal s a)] (c : Locked ι σ α L ρ) :
    ∀ e, Decidable (Legal legal c e)
  | .call _ _ => inferInstanceAs (Decidable True)
  | .testAndSet i =>
      match h : c.threads i with
      | .idle => isTrue fun a ha => by rw [h] at ha; cases ha
      | .waiting a =>
          decidable_of_iff (c.flag = false → legal c.shared a)
            ⟨fun hlegal a' ha' => by rw [h] at ha'; cases ha'; exact hlegal, fun hlegal => hlegal a h⟩
      | .inside _ _ => isTrue fun a ha => by rw [h] at ha; cases ha
  | .work _ => inferInstanceAs (Decidable True)
  | .unlock _ => inferInstanceAs (Decidable True)

/-- Source: none: infrastructure
Kind: D -/
def system (ι : Type*) [DecidableEq ι] (legal : σ → α → Prop) (B : Body σ α L ρ) :
    System (Locked ι σ α L ρ) (LockEvent ι α) := ⟨Legal legal, step B⟩

instance (legal : σ → α → Prop) [∀ s a, Decidable (legal s a)] (B : Body σ α L ρ) (c : Locked ι σ α L ρ)
    (e : LockEvent ι α) : Decidable ((system ι legal B).legal c e) :=
  inferInstanceAs (Decidable (Legal legal c e))

variable {B : Body σ α L ρ} {legal : σ → α → Prop} {s s₀ : σ} {c c' : Locked ι σ α L ρ} {i : ι} {a : α}
  {l : L}

/-- A step outside the lock leaves the thread inside. Source: none: infrastructure. Kind: L -/
theorem Follows.outside (h : Follows legal B s₀ c s) (hi : ∀ a l, c.threads i ≠ .inside a l)
    {t : Thread α L} (ht : ∀ a l, t ≠ .inside a l) :
    Follows legal B s₀ { c with threads := Function.update c.threads i t } s := by
  have hsame : ∀ j a l, Function.update c.threads i t j = .inside a l ↔ c.threads j = .inside a l := by
    intro j a l
    by_cases hj : j = i
    · subst hj
      rw [Function.update_self]
      exact ⟨fun heq => absurd heq (ht a l), fun heq => absurd heq (hi a l)⟩
    · rw [Function.update_of_ne hj]
  refine ⟨h.sequential, fun hflag => ?_, fun hflag => ?_⟩
  · obtain ⟨hshared, hnone⟩ := h.free hflag
    exact ⟨hshared, fun j a l heq => hnone j a l ((hsame j a l).mp heq)⟩
  · obtain ⟨j, a, l, hj⟩ := h.held hflag
    exact ⟨j, a, l, (hsame j a l).mpr hj.inside, fun k a' l' hk => hj.only k a' l' ((hsame k a' l').mp hk),
      hj.hlegal, hj.goes⟩

/-- **Getting in.** Source: none: infrastructure. Kind: L -/
theorem Follows.enter (h : Follows legal B s₀ c s) (hflag : c.flag = false) (hlegal : legal c.shared a) :
    Follows legal B s₀
      { c with flag := true, threads := Function.update c.threads i (.inside a (B.start a)) } s := by
  obtain ⟨hshared, hnone⟩ := h.free hflag
  refine ⟨h.sequential, (by rintro ⟨⟩), fun _ => ⟨i, a, B.start a, ?_, fun j a' l' hj => ?_, ?_, ?_⟩⟩
  · exact Function.update_self ..
  · by_contra hne
    dsimp only at hj
    rw [Function.update_of_ne hne] at hj
    exact hnone j a' l' hj
  · exact hshared ▸ hlegal
  · rw [hshared]

/-- **Working.** Source: none: infrastructure. Kind: L -/
theorem Follows.work {s' : σ} {l' : L} (h : Follows legal B s₀ c s) (hi : c.threads i = .inside a l)
    (hnext : B.next c.shared l = .more s' l') :
    Follows legal B s₀ { c with shared := s', threads := Function.update c.threads i (.inside a l') } s := by
  obtain ⟨hflag, hholder⟩ := h.holder hi
  refine ⟨h.sequential, fun hfalse => absurd (hflag.symm.trans hfalse) (by decide),
    fun _ => ⟨i, a, l', Function.update_self .., fun j a' l'' hj => ?_, hholder.hlegal,
      hholder.goes.tail hnext⟩⟩
  by_contra hne
  dsimp only at hj
  rw [Function.update_of_ne hne] at hj
  exact hne (hholder.only j a' l'' hj)

/-- **Getting out** completes the call. Source: none: infrastructure. Kind: L -/
theorem Follows.leave {r : ρ} (h : Follows legal B s₀ c s) (hi : c.threads i = .inside a l)
    (hnext : B.next c.shared l = .done r) :
    Follows legal B s₀
      ⟨false, c.shared, Function.update c.threads i .idle, c.history ++ [(i, a, r)]⟩ c.shared := by
  obtain ⟨-, hholder⟩ := h.holder hi
  refine ⟨h.sequential.snoc hholder.hlegal ⟨l, hholder.goes, hnext⟩, fun _ => ⟨rfl, fun j a' l' hj => ?_⟩,
    (by rintro ⟨⟩)⟩
  by_cases hne : j = i
  · dsimp only at hj
    rw [hne, Function.update_self] at hj
    cases hj
  · dsimp only at hj
    rw [Function.update_of_ne hne] at hj
    exact hne (hholder.only j a' l' hj)

/-- **Every step** keeps to some execution of whole calls. Source: none: infrastructure. Kind: P -/
theorem Follows.step {e : LockEvent ι α} (h : Follows legal B s₀ c s) (hlegal : Legal legal c e)
    (hstep : step B c e = some c') : ∃ s', Follows legal B s₀ c' s' := by
  cases e with
  | call i a =>
      unfold Locked.step at hstep
      cases hi : c.threads i with
      | idle =>
          simp only [hi, Option.some.injEq] at hstep
          subst hstep
          exact ⟨s, h.outside (by simp [hi]) (by simp)⟩
      | waiting a' => simp [hi] at hstep
      | inside a' l => simp [hi] at hstep
  | testAndSet i =>
      unfold Locked.step at hstep
      cases hi : c.threads i with
      | idle => simp [hi] at hstep
      | waiting a =>
          cases hflag : c.flag with
          | true =>
              simp only [hi, hflag, if_true, Option.some.injEq] at hstep
              subst hstep
              exact ⟨s, h⟩
          | false =>
              simp only [hi, hflag, Bool.false_eq_true, if_false, Option.some.injEq] at hstep
              subst hstep
              exact ⟨s, h.enter hflag (hlegal a hi hflag)⟩
      | inside a l => simp [hi] at hstep
  | work i =>
      unfold Locked.step at hstep
      cases hi : c.threads i with
      | idle => simp [hi] at hstep
      | waiting a => simp [hi] at hstep
      | inside a l =>
          cases hnext : B.next c.shared l with
          | more s' l' =>
              simp only [hi, hnext, Option.some.injEq] at hstep
              subst hstep
              exact ⟨s, h.work hi hnext⟩
          | done r => simp [hi, hnext] at hstep
          | abort => simp [hi, hnext] at hstep
  | unlock i =>
      unfold Locked.step at hstep
      cases hi : c.threads i with
      | idle => simp [hi] at hstep
      | waiting a => simp [hi] at hstep
      | inside a l =>
          cases hnext : B.next c.shared l with
          | more s' l' => simp [hi, hnext] at hstep
          | done r =>
              simp only [hi, hnext, Option.some.injEq] at hstep
              subst hstep
              exact ⟨c.shared, h.leave hi hnext⟩
          | abort => simp [hi, hnext] at hstep

/-- **Locked calls are whole calls.** After any run there is an execution of the completed calls one after
another that the state and the thread inside, if there is one, continue.
Source: none: infrastructure
Kind: P -/
theorem locked_sequential {es : List (LockEvent ι α)}
    (hrun : (system ι legal B).Run (init s₀ : Locked ι σ α L ρ) es c) : ∃ s, Follows legal B s₀ c s := by
  refine hrun.invariant (I := fun c => ∃ s, Follows legal B s₀ c s) ⟨s₀, .nil, ?_, ?_⟩ ?_
  · exact fun _ => ⟨rfl, by simp [init]⟩
  · rintro ⟨⟩
  · intro c e c' ⟨s, h⟩ hlegal hstep
    exact h.step hlegal hstep

end Locked

end EbbRT.Lib
