import EbbRT.Lib.Dyadic

/-!
# Tilings without buddies

Aligned blocks that each lie inside one of some disjoint aligned *coarse* blocks, and together make
up the same set. If no two of them are buddies, they are the coarse blocks: in a coarse block, a
smaller block of least order would have its buddy's place filled by something that is neither as
large, nor larger, nor smaller (`mem_iff_of_no_buddies`). And putting two buddies together does not
leave the coarse blocks, unless these two are coarse blocks themselves (`inside_parent`).
-/

namespace EbbRT.Lib

/-- Every block lies inside a coarse one.
Source: none: infrastructure
Kind: D -/
def Inside (coarse blocks : List Block) : Prop :=
  ∀ b ∈ blocks, ∃ c ∈ coarse, b.cells ⊆ c.cells

/-- No two blocks of one order below `N` are buddies.
Source: none: infrastructure
Kind: D -/
def NoBuddies (N : ℕ) (blocks : List Block) : Prop :=
  ∀ p k, k < N → ⟨p, k⟩ ∈ blocks → ⟨buddy p k, k⟩ ∉ blocks

instance (N : ℕ) (blocks : List Block) : Decidable (NoBuddies N blocks) :=
  decidable_of_iff (∀ b ∈ blocks, b.order < N → ⟨buddy b.start b.order, b.order⟩ ∉ blocks)
    ⟨fun h p k hk hb => h ⟨p, k⟩ hb hk, fun h b hb hk => h b.start b.order hk hb⟩

variable {coarse fine : List Block} {b c : Block} {S : Set ℕ} {p k N : ℕ}

/-- A block is not its own buddy. Source: none: infrastructure. Kind: L -/
theorem buddy_ne (p k : ℕ) : buddy p k ≠ p := by
  intro heq
  have hbit := congrArg (fun x => x.testBit k) heq
  simp [buddy] at hbit

/-- Source: none: infrastructure. Kind: L -/
theorem NoBuddies.subset {blocks blocks' : List Block} (h : NoBuddies N blocks)
    (hsub : ∀ b ∈ blocks', b ∈ blocks) : NoBuddies N blocks' :=
  fun p k hk hp hb => h p k hk (hsub _ hp) (hsub _ hb)

/-- A new block whose buddy is not there. Source: none: infrastructure. Kind: L -/
theorem NoBuddies.cons {blocks : List Block} (h : NoBuddies N blocks)
    (hb : k < N → ⟨buddy p k, k⟩ ∉ blocks) : NoBuddies N (⟨p, k⟩ :: blocks) := by
  intro q j hj hq hbuddy
  rcases List.mem_cons.mp hq with heq | hold
  · obtain ⟨rfl, rfl⟩ : q = p ∧ j = k := by simpa using heq
    rcases List.mem_cons.mp hbuddy with heq' | hmem
    · have hself : buddy q j = q := by simpa using heq'
      exact buddy_ne q j hself
    · exact hb hj hmem
  · rcases List.mem_cons.mp hbuddy with heq | hmem
    · obtain ⟨hpq, rfl⟩ : buddy q j = p ∧ j = k := by simpa using heq
      refine hb hj ?_
      rw [← hpq, buddy_buddy]
      exact hold
    · exact h q j hj hold hmem

namespace Block

/-- An aligned block of a smaller order that starts inside an aligned block lies inside it.
Source: none: infrastructure
Kind: L -/
theorem subset_of_mem (hc : c.Aligned) (hp : 2 ^ k ∣ p) (hmem : p ∈ c.cells) (hk : k ≤ c.order) :
    (⟨p, k⟩ : Block).cells ⊆ c.cells := by
  rw [mem_cells] at hmem
  have hend : 2 ^ k ∣ c.start + 2 ^ c.order - p := by
    have hpow : 2 ^ k ∣ 2 ^ c.order := Nat.pow_dvd_pow 2 hk
    exact Nat.dvd_sub (Nat.dvd_add (hpow.trans hc) hpow) hp
  have hle : 2 ^ k ≤ c.start + 2 ^ c.order - p := Nat.le_of_dvd (by omega) hend
  intro q hq
  rw [mem_cells] at hq ⊢
  dsimp only at hq
  omega

/-- A block inside another one is not larger. Source: none: infrastructure. Kind: L -/
theorem order_le_of_subset (h : b.cells ⊆ c.cells) : b.order ≤ c.order := by
  have hpos := Nat.two_pow_pos b.order
  have hfirst := mem_cells.mp (h b.start_mem_cells)
  have hlast : b.start + (2 ^ b.order - 1) ∈ c.cells := h (by rw [mem_cells]; omega)
  rw [mem_cells] at hlast
  by_contra hlt
  have hpow : 2 ^ (c.order + 1) ≤ 2 ^ b.order := Nat.pow_le_pow_right (by decide) (by omega)
  have hsucc : 2 ^ (c.order + 1) = 2 * 2 ^ c.order := by ring
  have hpos' := Nat.two_pow_pos c.order
  omega

/-- An aligned block of the same order inside an aligned block is that block.
Source: none: infrastructure
Kind: L -/
theorem eq_of_subset (hb : b.Aligned) (hc : c.Aligned) (h : b.cells ⊆ c.cells)
    (horder : c.order ≤ b.order) : b = c := by
  have heq : b.order = c.order := le_antisymm (order_le_of_subset h) horder
  have hstart : b.start = c.start :=
    eq_start_of_dvd hc (k := b.order) hb (h b.start_mem_cells) horder
  cases b
  cases c
  simp_all

end Block

/-- **Merging stays inside.** Two buddies, each inside a coarse block: so is their parent, unless they
are coarse blocks both.
Source: none: infrastructure
Kind: P -/
theorem inside_parent (hal : ∀ c ∈ coarse, c.Aligned) (hno : NoBuddies N coarse) (hk : k < N)
    (hp : 2 ^ (k + 1) ∣ p) (hlow : ∃ c ∈ coarse, (⟨p, k⟩ : Block).cells ⊆ c.cells)
    (hhigh : ∃ c ∈ coarse, (⟨p + 2 ^ k, k⟩ : Block).cells ⊆ c.cells) :
    ∃ c ∈ coarse, (⟨p, k + 1⟩ : Block).cells ⊆ c.cells := by
  have hp' : 2 ^ k ∣ p := (Nat.pow_dvd_pow 2 (Nat.le_succ k)).trans hp
  obtain ⟨c, hc, hsub⟩ := hlow
  obtain ⟨d, hd, hsub'⟩ := hhigh
  have hmem : p ∈ c.cells := hsub (Block.start_mem_cells ⟨p, k⟩)
  have hmem' : p + 2 ^ k ∈ d.cells := hsub' (Block.start_mem_cells ⟨p + 2 ^ k, k⟩)
  by_cases hck : k + 1 ≤ c.order
  · exact ⟨c, hc, Block.subset_of_mem (hal c hc) hp hmem hck⟩
  by_cases hdk : k + 1 ≤ d.order
  · have hbuddy : buddy p k ∈ d.cells := by
      rw [buddy_of_dvd hp]
      exact hmem'
    have hmemd : p ∈ d.cells := mem_cells_of_buddy_mem (hal d hd) hp' (by omega) hbuddy
    exact ⟨d, hd, Block.subset_of_mem (hal d hd) hp hmemd hdk⟩
  · have hal' : (⟨p + 2 ^ k, k⟩ : Block).Aligned := Nat.dvd_add hp' dvd_rfl
    have heq : (⟨p, k⟩ : Block) = c := Block.eq_of_subset hp' (hal c hc) hsub (not_lt.mp hck)
    have heq' : (⟨p + 2 ^ k, k⟩ : Block) = d :=
      Block.eq_of_subset hal' (hal d hd) hsub' (not_lt.mp hdk)
    refine absurd ?_ (hno p k hk (heq ▸ hc))
    rw [buddy_of_dvd hp]
    exact heq' ▸ hd

/-- Blocks that share an element lie in the same coarse block.
Source: none: infrastructure
Kind: L -/
theorem subset_coarse (hdis : coarse.Pairwise fun c d => Disjoint c.cells d.cells)
    (hinside : Inside coarse fine) (hb : b ∈ fine) (hc : c ∈ coarse) (hpb : p ∈ b.cells)
    (hpc : p ∈ c.cells) : b.cells ⊆ c.cells := by
  obtain ⟨d, hd, hsub⟩ := hinside b hb
  have heq : d = c := by
    by_contra hne
    have hsymm : Std.Symm fun x y : Block => Disjoint x.cells y.cells := ⟨fun _ _ h => h.symm⟩
    exact Set.disjoint_left.mp (hdis.forall hd hc hne) (hsub hpb) hpc
  exact heq ▸ hsub

/-- **No block is smaller.** Without buddies a block inside a coarse one has its order.
Source: none: infrastructure
Kind: L -/
theorem order_le_of_no_buddies (htiles : Partitions Block.cells fine S)
    (hal : ∀ b ∈ fine, b.Aligned) (hcal : ∀ c ∈ coarse, c.Aligned)
    (hdis : coarse.Pairwise fun c d => Disjoint c.cells d.cells)
    (hS : ∀ c ∈ coarse, c.cells ⊆ S) (hinside : Inside coarse fine) (hsmall : ∀ c ∈ coarse, c.order ≤ N)
    (hno : NoBuddies N fine) (hb : b ∈ fine) (hc : c ∈ coarse) (hsub : b.cells ⊆ c.cells) :
    c.order ≤ b.order := by
  -- a smaller block would have, in its buddy's place, a still smaller one
  induction hk : b.order using Nat.strong_induction_on generalizing b with
  | _ k ih =>
      by_contra hlt
      have hdvd : 2 ^ k ∣ b.start := hk ▸ hal b hb
      have hbuddy : buddy b.start k ∈ c.cells := by
        refine mem_cells_of_buddy_mem (hcal c hc) (dvd_buddy hdvd) (by omega) ?_
        rw [buddy_buddy]
        exact hsub b.start_mem_cells
      obtain ⟨b', hb', hmem⟩ := (htiles.cover _).mp (hS c hc hbuddy)
      have hsub' := subset_coarse hdis hinside hb' hc hmem hbuddy
      have hnot : buddy b.start k ∉ b.cells := by
        have hpos := Nat.two_pow_pos k
        rw [Block.mem_cells, hk]
        rcases buddy_cases hdvd with ⟨heq, -⟩ | ⟨heq, -⟩ <;> omega
      have hne : b' ≠ b := fun heq => hnot (heq ▸ hmem)
      rcases lt_trichotomy b'.order k with hsmaller | hsame | hlarger
      · exact hlt ((ih b'.order hsmaller hb' hsub' rfl).trans hsmaller.le)
      · have hstart : buddy b.start k = b'.start :=
          Block.eq_start_of_dvd (hal b' hb') (dvd_buddy hdvd) hmem hsame.le
        have hbk : (⟨b.start, k⟩ : Block) ∈ fine := hk ▸ hb
        have hbk' : (⟨buddy b.start k, k⟩ : Block) ∈ fine := by
          rw [hstart, ← hsame]
          exact hb'
        exact hno b.start k ((not_le.mp hlt).trans_le (hsmall c hc)) hbk hbk'
      · have hstart : b.start ∈ b'.cells := mem_cells_of_buddy_mem (hal b' hb') hdvd hlarger hmem
        exact hne (htiles.eq_of_mem hb' hb hstart b.start_mem_cells)

/-- **Tilings without buddies are unique.**
Source: none: infrastructure
Kind: P -/
theorem mem_iff_of_no_buddies (htiles : Partitions Block.cells fine S)
    (hal : ∀ b ∈ fine, b.Aligned) (hcal : ∀ c ∈ coarse, c.Aligned)
    (hdis : coarse.Pairwise fun c d => Disjoint c.cells d.cells)
    (hS : ∀ c ∈ coarse, c.cells ⊆ S) (hinside : Inside coarse fine) (hsmall : ∀ c ∈ coarse, c.order ≤ N)
    (hno : NoBuddies N fine) (b : Block) : b ∈ fine ↔ b ∈ coarse := by
  have heq : ∀ b ∈ fine, ∀ c ∈ coarse, b.cells ⊆ c.cells → b = c := fun b hb c hc hsub =>
    Block.eq_of_subset (hal b hb) (hcal c hc) hsub
      (order_le_of_no_buddies htiles hal hcal hdis hS hinside hsmall hno hb hc hsub)
  constructor
  · intro hb
    obtain ⟨c, hc, hsub⟩ := hinside b hb
    exact heq b hb c hc hsub ▸ hc
  · intro hb
    obtain ⟨f, hf, hmem⟩ := (htiles.cover _).mp (hS b hb b.start_mem_cells)
    have hsub := subset_coarse hdis hinside hf hb hmem b.start_mem_cells
    exact heq f hf b hb hsub ▸ hf

end EbbRT.Lib
