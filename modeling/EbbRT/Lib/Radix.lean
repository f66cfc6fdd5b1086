import Mathlib

/-!
# Radix tables in a heap

A radix table resolves an address digit by digit: a table at level `ℓ` has `fanout` slots, and slot
`i` of the table for the block that starts at `b` stands for the block of `width ℓ` addresses from
`b + i * width ℓ`. The tables live in a heap and are found through the entries of other tables, so
nothing in the types says that they form a tree. What does is a map `own` from each table to the
level and the first address that it is for (`Wf`): two entries for different blocks then lead to
different tables, and a write to a slot is seen by the addresses of its block only (`trace_frame`).

The entries and what they mean are a parameter, `view`.
-/

namespace EbbRT.Lib

/-- How many addresses one entry of the lowest level stands for, and how many slots a table has.
Source: none: infrastructure
Kind: D -/
structure Radix where
  /-- The width of a block at level 0. -/
  unit : ℕ
  /-- The number of slots of a table. -/
  fanout : ℕ
  unit_pos : 0 < unit
  fanout_pos : 0 < fanout

/-- What an entry means: nothing, a block of addresses, or a pointer to a table one level down.
Source: none: infrastructure
Kind: D -/
inductive Radix.View (P A : Type*)
  | absent
  | leaf (a : A)
  | table (p : P)
  deriving DecidableEq

namespace Radix

namespace View

variable {P A : Type*}

/-- Source: none: infrastructure
Kind: D -/
def isTable : View P A → Bool
  | .table _ => true
  | _ => false

/-- Source: none: infrastructure
Kind: D -/
def isLeaf : View P A → Bool
  | .leaf _ => true
  | _ => false

/-- Source: none: infrastructure. Kind: L -/
theorem isTable_eq_false {v : View P A} : v.isTable = false ↔ ∀ p, v ≠ .table p := by
  cases v <;> simp [isTable]

/-- Source: none: infrastructure. Kind: L -/
theorem isLeaf_eq_false {v : View P A} : v.isLeaf = false ↔ ∀ a, v ≠ .leaf a := by
  cases v <;> simp [isLeaf]

end View

variable (g : Radix) {k ℓ b i va lo up : ℕ}

/-! ## Blocks and digits -/

/-- The number of addresses of a block at level `ℓ`.
Source: none: infrastructure
Kind: D -/
def width (ℓ : ℕ) : ℕ := g.unit * g.fanout ^ ℓ

/-- The slot that stands for the address in a table at level `ℓ`.
Source: none: infrastructure
Kind: D -/
def digit (ℓ va : ℕ) : ℕ := va / g.width ℓ % g.fanout

/-- The address lies in the block at level `ℓ` that starts at `b`.
Source: none: infrastructure
Kind: D -/
def InBlock (ℓ b va : ℕ) : Prop := b ≤ va ∧ va < b + g.width ℓ

/-- Blocks are not empty. Source: none: infrastructure. Kind: L -/
theorem width_pos (ℓ : ℕ) : 0 < g.width ℓ := Nat.mul_pos g.unit_pos (Nat.pow_pos g.fanout_pos)

/-- A block has `fanout` blocks of the level below. Source: none: infrastructure. Kind: L -/
theorem width_succ (ℓ : ℕ) : g.width (ℓ + 1) = g.fanout * g.width ℓ := by
  unfold width
  rw [pow_succ]
  ring

/-- The widths divide one another. Source: none: infrastructure. Kind: L -/
theorem width_dvd (h : k ≤ ℓ) : g.width k ∣ g.width ℓ :=
  Nat.mul_dvd_mul_left _ (Nat.pow_dvd_pow _ h)

/-- Source: none: infrastructure. Kind: L -/
theorem digit_lt (ℓ va : ℕ) : g.digit ℓ va < g.fanout := Nat.mod_lt _ g.fanout_pos

/-- In an aligned block the digit counts the blocks of the level below from its start.
Source: none: infrastructure
Kind: L -/
theorem digit_add (hb : g.width (ℓ + 1) ∣ b) (hi : i < g.fanout)
    (h : g.InBlock ℓ (b + i * g.width ℓ) va) : g.digit ℓ va = i := by
  obtain ⟨c, rfl⟩ := hb
  have hw := g.width_pos ℓ
  have hbase : g.width (ℓ + 1) * c + i * g.width ℓ = (g.fanout * c + i) * g.width ℓ := by
    rw [g.width_succ]
    ring
  have hdiv : va / g.width ℓ = g.fanout * c + i := by
    unfold InBlock at h
    rw [hbase] at h
    apply Nat.div_eq_of_lt_le h.1
    rw [Nat.succ_mul]
    exact h.2
  unfold digit
  rw [hdiv, Nat.mul_add_mod, Nat.mod_eq_of_lt hi]

/-- The address of a block lies in the block of its digit.
Source: none: infrastructure
Kind: L -/
theorem inBlock_digit (hb : g.width (ℓ + 1) ∣ b) (h : g.InBlock (ℓ + 1) b va) :
    g.InBlock ℓ (b + g.digit ℓ va * g.width ℓ) va := by
  have hw := g.width_pos ℓ
  have hlt : (va - b) / g.width ℓ < g.fanout := by
    rw [Nat.div_lt_iff_lt_mul hw, ← g.width_succ]
    have := h.2
    have := h.1
    omega
  have hin : g.InBlock ℓ (b + (va - b) / g.width ℓ * g.width ℓ) va := by
    have h1 := Nat.div_mul_le_self (va - b) (g.width ℓ)
    have h2 := Nat.lt_div_mul_add (a := va - b) hw
    have := h.1
    constructor <;> omega
  rw [g.digit_add hb hlt hin]
  exact hin

/-- The block of a slot lies in the block of its table.
Source: none: infrastructure
Kind: L -/
theorem slot_le (hi : i < g.fanout) : b + (i + 1) * g.width ℓ ≤ b + g.width (ℓ + 1) := by
  rw [g.width_succ]
  exact Nat.add_le_add_left (Nat.mul_le_mul_right _ hi) _

/-- The slots of an aligned block are aligned. Source: none: infrastructure. Kind: L -/
theorem dvd_slot (hb : g.width (ℓ + 1) ∣ b) : g.width ℓ ∣ b + i * g.width ℓ :=
  dvd_add ((g.width_dvd (Nat.le_succ ℓ)).trans hb) (Dvd.intro_left i rfl)

/-- The start of an aligned block, from any address in it.
Source: none: infrastructure
Kind: L -/
theorem base_eq (hb : g.width ℓ ∣ b) (h : g.InBlock ℓ b va) :
    va / g.width ℓ * g.width ℓ = b := by
  obtain ⟨c, rfl⟩ := hb
  have hdiv : va / g.width ℓ = c := by
    apply Nat.div_eq_of_lt_le
    · rw [Nat.mul_comm]
      exact h.1
    · rw [Nat.succ_mul, Nat.mul_comm]
      exact h.2
  rw [hdiv, Nat.mul_comm]

/-- Addresses of one block have the same digits from its level on.
Source: none: infrastructure
Kind: L -/
theorem digit_block (hk : ℓ ≤ k) (hb : g.width ℓ ∣ b) (h : g.InBlock ℓ b va) :
    g.digit k va = g.digit k b := by
  obtain ⟨d, hd⟩ := g.width_dvd hk
  have hw := g.width_pos ℓ
  have hbase := g.base_eq hb h
  unfold digit
  rw [hd, ← Nat.div_div_eq_div_mul, ← Nat.div_div_eq_div_mul, ← hbase, Nat.mul_div_cancel _ hw]

/-! ## Walks -/

section Heap

variable {P E A : Type*} (view : ℕ → E → View P A)

/-- The entries that resolving `va` passes, from an entry at level `ℓ` down.
Source: none: infrastructure
Kind: D -/
def trace (mem : P → ℕ → E) : ℕ → E → ℕ → List (ℕ × E)
  | 0, e, _ => [(0, e)]
  | k + 1, e, va =>
      (k + 1, e) ::
        match view (k + 1) e with
        | .table p => trace mem k (mem p (g.digit k va)) va
        | _ => []

/-- The block that the last entry of a trace stands for, if it stands for one.
Source: none: infrastructure
Kind: D -/
def leafOf (x : ℕ × E) : Option (ℕ × A) :=
  match view x.1 x.2 with
  | .leaf a => some (x.1, a)
  | _ => none

/-- What resolving `va` ends in: a block and its level, or nothing.
Source: none: infrastructure
Kind: D -/
def walk (mem : P → ℕ → E) (ℓ : ℕ) (e : E) (va : ℕ) : Option (ℕ × A) :=
  (g.trace view mem ℓ e va).getLast?.bind (leafOf view)

variable {view} {mem mem' : P → ℕ → E} {e : E}

/-- Source: none: infrastructure. Kind: L -/
theorem mem_trace_self : (ℓ, e) ∈ g.trace view mem ℓ e va := by
  cases ℓ with
  | zero => exact List.mem_singleton_self _
  | succ k => exact List.mem_cons_self

/-- Through a pointer the walk goes on one level down.
Source: none: infrastructure
Kind: L -/
theorem trace_table {p : P} (h : view (k + 1) e = .table p) :
    g.trace view mem (k + 1) e va
      = (k + 1, e) :: g.trace view mem k (mem p (g.digit k va)) va := by
  rw [trace, h]

/-- An entry that is no pointer ends the walk. Source: none: infrastructure. Kind: L -/
theorem trace_end (h : ∀ p, view ℓ e ≠ .table p) : g.trace view mem ℓ e va = [(ℓ, e)] := by
  cases ℓ with
  | zero => rfl
  | succ k =>
      rw [trace]
      cases hv : view (k + 1) e with
      | absent => rfl
      | leaf a => rfl
      | table p => exact (h p hv).elim

/-- Source: none: infrastructure. Kind: L -/
theorem trace_ne_nil : g.trace view mem ℓ e va ≠ [] :=
  List.ne_nil_of_mem g.mem_trace_self

/-- Source: none: infrastructure. Kind: L -/
theorem walk_table {p : P} (h : view (k + 1) e = .table p) :
    g.walk view mem (k + 1) e va = g.walk view mem k (mem p (g.digit k va)) va := by
  unfold walk
  rw [g.trace_table h, List.getLast?_cons_of_ne_nil g.trace_ne_nil]

/-- Source: none: infrastructure. Kind: L -/
theorem walk_end (h : ∀ p, view ℓ e ≠ .table p) :
    g.walk view mem ℓ e va = leafOf view (ℓ, e) := by
  unfold walk
  rw [g.trace_end h]
  rfl

/-- The levels of a trace. Source: none: infrastructure. Kind: L -/
theorem trace_level {x : ℕ × E} (hx : x ∈ g.trace view mem ℓ e va) : x.1 ≤ ℓ := by
  induction ℓ generalizing e with
  | zero => rw [List.mem_singleton.mp hx]
  | succ k ih =>
      by_cases hv : ∃ p, view (k + 1) e = .table p
      · obtain ⟨p, hv⟩ := hv
        rw [g.trace_table hv] at hx
        rcases List.mem_cons.mp hx with rfl | hx
        · exact le_rfl
        · exact (ih hx).trans (Nat.le_succ k)
      · rw [g.trace_end fun p hp => hv ⟨p, hp⟩] at hx
        rw [List.mem_singleton.mp hx]

/-- A trace depends on the digits below its level. Source: none: infrastructure. Kind: L -/
theorem trace_congr {va' : ℕ} (h : ∀ k < ℓ, g.digit k va = g.digit k va') :
    g.trace view mem ℓ e va = g.trace view mem ℓ e va' := by
  induction ℓ generalizing e with
  | zero => rfl
  | succ k ih =>
      rw [trace, trace, h k (Nat.lt_succ_self k)]
      split
      · rw [ih fun j hj => h j (hj.trans (Nat.lt_succ_self k))]
      · rfl

/-- Where an address resolves to nothing, the walk gets to any given level or ends above it at an
entry that stands for nothing.
Source: none: infrastructure
Kind: L -/
theorem exists_level_or_absent (hk : k ≤ ℓ) (h : g.walk view mem ℓ e va = none) :
    (∃ x ∈ g.trace view mem ℓ e va, x.1 = k) ∨
      ∃ x ∈ g.trace view mem ℓ e va, k < x.1 ∧ view x.1 x.2 = .absent := by
  induction ℓ generalizing e with
  | zero => exact Or.inl ⟨_, g.mem_trace_self, by omega⟩
  | succ j ih =>
      obtain rfl | hk : k = j + 1 ∨ k ≤ j := by omega
      · exact Or.inl ⟨_, g.mem_trace_self, rfl⟩
      · cases hv : view (j + 1) e with
        | absent => exact Or.inr ⟨_, g.mem_trace_self, Nat.lt_succ_of_le hk, hv⟩
        | leaf a =>
            rw [g.walk_end (by simp [hv])] at h
            simp [leafOf, hv] at h
        | table p =>
            rw [g.walk_table hv] at h
            rw [g.trace_table hv]
            rcases ih hk h with ⟨x, hx, hxk⟩ | ⟨x, hx, hxk⟩
            · exact Or.inl ⟨x, List.mem_cons_of_mem _ hx, hxk⟩
            · exact Or.inr ⟨x, List.mem_cons_of_mem _ hx, hxk⟩

/-- An entry of a trace that is no pointer is the last. Source: none: infrastructure. Kind: L -/
theorem walk_of_not_table {x : ℕ × E} (hx : x ∈ g.trace view mem ℓ e va)
    (hv : ∀ p, view x.1 x.2 ≠ .table p) : g.walk view mem ℓ e va = leafOf view x := by
  induction ℓ generalizing e with
  | zero =>
      rw [List.mem_singleton.mp hx] at hv ⊢
      exact g.walk_end hv
  | succ k ih =>
      by_cases hw : ∃ p, view (k + 1) e = .table p
      · obtain ⟨p, hw⟩ := hw
        rw [g.trace_table hw] at hx
        rcases List.mem_cons.mp hx with rfl | hx
        · exact absurd hw (hv p)
        · rw [g.walk_table hw]
          exact ih hx
      · have hend : ∀ p, view (k + 1) e ≠ .table p := fun p hp => hw ⟨p, hp⟩
        rw [g.trace_end hend] at hx
        rw [List.mem_singleton.mp hx]
        exact g.walk_end hend

/-- An entry that stands for a block ends the walk there. Source: none: infrastructure. Kind: L -/
theorem walk_leaf {x : ℕ × E} {a : A} (hx : x ∈ g.trace view mem ℓ e va)
    (hv : view x.1 x.2 = .leaf a) : g.walk view mem ℓ e va = some (x.1, a) := by
  rw [g.walk_of_not_table hx (by simp [hv])]
  simp [leafOf, hv]

/-- The first entry of a trace is the only one at its level. Source: none: infrastructure. Kind: L -/
theorem mem_trace_top {x : ℕ × E} (hx : x ∈ g.trace view mem ℓ e va) (h : x.1 = ℓ) : x.2 = e := by
  cases ℓ with
  | zero => rw [List.mem_singleton.mp hx]
  | succ k =>
      rw [trace] at hx
      rcases List.mem_cons.mp hx with rfl | hx
      · rfl
      · split at hx
        · have := g.trace_level hx
          omega
        · cases hx

/-- Resolving an address of the same block of level `j` passes the same entries down to that level.
Source: none: infrastructure
Kind: L -/
theorem mem_trace_congr {x : ℕ × E} {j va' : ℕ} (hdigit : ∀ k, j ≤ k → g.digit k va = g.digit k va')
    (hx : x ∈ g.trace view mem ℓ e va) (hj : j ≤ x.1) : x ∈ g.trace view mem ℓ e va' := by
  induction ℓ generalizing e with
  | zero => exact hx
  | succ k ih =>
      by_cases hv : ∃ p, view (k + 1) e = .table p
      · obtain ⟨p, hv⟩ := hv
        rw [g.trace_table hv] at hx ⊢
        rcases List.mem_cons.mp hx with rfl | hx
        · exact List.mem_cons_self
        · have hk : j ≤ k := hj.trans (g.trace_level hx)
          rw [← hdigit k hk]
          exact List.mem_cons_of_mem _ (ih hx)
      · rw [g.trace_end fun p hp => hv ⟨p, hp⟩] at hx ⊢
        exact hx

/-- A walk that passes an entry which stands for nothing ends in nothing.
Source: none: infrastructure
Kind: L -/
theorem walk_absent {x : ℕ × E} (hx : x ∈ g.trace view mem ℓ e va) (hv : view x.1 x.2 = .absent) :
    g.walk view mem ℓ e va = none := by
  rw [g.walk_of_not_table hx (by simp [hv])]
  simp [leafOf, hv]

/-! ## Ownership -/

/-- An entry at level `ℓ` fits the block that starts at `b`: a pointer leads to a table owned for
that block, and a block is of the kind that may stand there.
Source: none: infrastructure
Kind: D -/
def EntryOk (own : P → Option (ℕ × ℕ)) (leafOk : ℕ → ℕ → A → Prop) (ℓ b : ℕ) : View P A → Prop
  | .absent => True
  | .leaf a => leafOk ℓ b a
  | .table p => ∃ k, ℓ = k + 1 ∧ own p = some (k, b)

variable (view) in
/-- Every owned table is aligned and every one of its entries fits.
Source: none: infrastructure
Kind: D -/
structure Wf (own : P → Option (ℕ × ℕ)) (leafOk : ℕ → ℕ → A → Prop) (mem : P → ℕ → E) : Prop where
  aligned : ∀ p k b, own p = some (k, b) → g.width (k + 1) ∣ b
  entry : ∀ p k b, own p = some (k, b) → ∀ i < g.fanout,
    EntryOk own leafOk k (b + i * g.width k) (view k (mem p i))

/-- Every slot that changed is one, at level `top` at most, whose block lies in `[lo, up)`.
Source: none: infrastructure
Kind: D -/
def Changes (own : P → Option (ℕ × ℕ)) (mem mem' : P → ℕ → E) (top lo up : ℕ) : Prop :=
  ∀ p, ∀ i < g.fanout, mem' p i ≠ mem p i →
    ∃ k b, own p = some (k, b) ∧ k ≤ top ∧ lo ≤ b + i * g.width k ∧ b + (i + 1) * g.width k ≤ up

/-- Tables stay with the block they are owned for.
Source: none: infrastructure
Kind: D -/
def Extends (own own' : P → Option (ℕ × ℕ)) : Prop :=
  ∀ p x, own p = some x → own' p = some x

variable {own own' own'' : P → Option (ℕ × ℕ)} {leafOk : ℕ → ℕ → A → Prop} {mem'' : P → ℕ → E}

/-- Source: none: infrastructure. Kind: L -/
theorem Extends.refl (own : P → Option (ℕ × ℕ)) : Extends own own := fun _ _ h => h

/-- Source: none: infrastructure. Kind: L -/
theorem Extends.trans (h : Extends own own') (h' : Extends own' own'') : Extends own own'' :=
  fun p x hx => h' p x (h p x hx)

/-- What fits still fits when more tables are owned. Source: none: infrastructure. Kind: L -/
theorem EntryOk.mono {v : View P A} (h : Extends own own') (hv : EntryOk own leafOk ℓ b v) :
    EntryOk own' leafOk ℓ b v := by
  cases v with
  | absent => trivial
  | leaf a => exact hv
  | table p =>
      obtain ⟨k, hk, hp⟩ := hv
      exact ⟨k, hk, h p _ hp⟩

/-- Nothing changed. Source: none: infrastructure. Kind: L -/
theorem changes_refl {top : ℕ} : g.Changes own mem mem top lo up :=
  fun _ _ _ h => (h rfl).elim

/-- Changes in a part are changes in the whole. Source: none: infrastructure. Kind: L -/
theorem Changes.mono {top top' lo' up' : ℕ} (h : g.Changes own mem mem' top lo up)
    (ht : top ≤ top') (hlo : lo' ≤ lo) (hup : up ≤ up') :
    g.Changes own mem mem' top' lo' up' := by
  intro p i hi hne
  obtain ⟨k, b, hp, hk, h1, h2⟩ := h p i hi hne
  exact ⟨k, b, hp, hk.trans ht, hlo.trans h1, h2.trans hup⟩

/-- Changes one after another. Source: none: infrastructure. Kind: L -/
theorem Changes.trans {top : ℕ} (hown : Extends own own') (h : g.Changes own mem mem' top lo up)
    (h' : g.Changes own' mem' mem'' top lo up) : g.Changes own' mem mem'' top lo up := by
  intro p i hi hne
  by_cases heq : mem' p i = mem p i
  · exact h' p i hi (by rw [heq]; exact hne)
  · obtain ⟨k, b, hp, hk⟩ := h p i hi heq
    exact ⟨k, b, hown p _ hp, hk⟩

/-- An owned slot whose block is not in the range is as it was.
Source: none: infrastructure
Kind: L -/
theorem Changes.slot_eq {top : ℕ} {p : P} (hown : Extends own own')
    (h : g.Changes own' mem mem' top lo up) (hp : own p = some (k, b)) (hi : i < g.fanout)
    (hout : top < k ∨ b + i * g.width k < lo ∨ up < b + (i + 1) * g.width k) :
    mem' p i = mem p i := by
  by_contra hne
  obtain ⟨k', b', hp', hk, h1, h2⟩ := h p i hi hne
  rw [hown p _ hp] at hp'
  cases hp'
  omega

/-- **The frame rule of walks**: an address outside the range passes the same entries as before.
By induction on the level: the slot of its digit stands for a block with the address in it, which
is therefore not a block inside the range.
Source: none: infrastructure
Kind: P -/
theorem trace_frame {top : ℕ} (hwf : g.Wf view own leafOk mem) (hown : Extends own own')
    (hch : g.Changes own' mem mem' top lo up) (hva : va < lo ∨ up ≤ va)
    (he : EntryOk own leafOk ℓ b (view ℓ e)) (hin : g.InBlock ℓ b va) :
    g.trace view mem' ℓ e va = g.trace view mem ℓ e va := by
  induction ℓ generalizing e b with
  | zero => rfl
  | succ k ih =>
      cases hv : view (k + 1) e with
      | absent => rw [g.trace_end (by simp [hv]), g.trace_end (by simp [hv])]
      | leaf a => rw [g.trace_end (by simp [hv]), g.trace_end (by simp [hv])]
      | table p =>
          rw [hv] at he
          obtain ⟨k', hk', hp⟩ := he
          cases hk'
          have hal := hwf.aligned p k b hp
          have hslot := g.inBlock_digit hal hin
          have hsame : mem' p (g.digit k va) = mem p (g.digit k va) := by
            apply Changes.slot_eq g hown hch hp (g.digit_lt k va)
            have := hslot.1
            have := hslot.2
            rw [Nat.succ_mul]
            omega
          rw [g.trace_table hv, g.trace_table hv, hsame,
            ih (hwf.entry p k b hp _ (g.digit_lt k va)) hslot]

/-- The frame rule for what the walk ends in. Source: none: infrastructure. Kind: L -/
theorem walk_frame {top : ℕ} (hwf : g.Wf view own leafOk mem) (hown : Extends own own')
    (hch : g.Changes own' mem mem' top lo up) (hva : va < lo ∨ up ≤ va)
    (he : EntryOk own leafOk ℓ b (view ℓ e)) (hin : g.InBlock ℓ b va) :
    g.walk view mem' ℓ e va = g.walk view mem ℓ e va := by
  unfold walk
  rw [g.trace_frame hwf hown hch hva he hin]

/-- The entries that a walk passes fit the blocks with the address in them.
Source: none: infrastructure
Kind: L -/
theorem trace_entryOk {x : ℕ × E} (hwf : g.Wf view own leafOk mem)
    (he : EntryOk own leafOk ℓ b (view ℓ e)) (hb : g.width ℓ ∣ b) (hin : g.InBlock ℓ b va)
    (hx : x ∈ g.trace view mem ℓ e va) :
    EntryOk own leafOk x.1 (va / g.width x.1 * g.width x.1) (view x.1 x.2) := by
  induction ℓ generalizing e b with
  | zero =>
      rw [List.mem_singleton.mp hx, g.base_eq hb hin]
      exact he
  | succ k ih =>
      by_cases hv : ∃ p, view (k + 1) e = .table p
      · obtain ⟨p, hv⟩ := hv
        rw [g.trace_table hv] at hx
        rcases List.mem_cons.mp hx with rfl | hx
        · rw [g.base_eq hb hin]
          exact he
        · rw [hv] at he
          obtain ⟨k', hk', hp⟩ := he
          cases hk'
          have hal := hwf.aligned p k b hp
          exact ih (hwf.entry p k b hp _ (g.digit_lt k va)) (g.dvd_slot hal)
            (g.inBlock_digit hal hin) hx
      · rw [g.trace_end fun p hp => hv ⟨p, hp⟩] at hx
        rw [List.mem_singleton.mp hx, g.base_eq hb hin]
        exact he

end Heap

end Radix

end EbbRT.Lib
