import EbbRT.Lib.Partition

/-!
# Dyadic blocks and their buddies

A block of order `k` at `p` is the interval `[p, p + 2 ^ k)`; it is aligned when `2 ^ k ∣ p`. Two
aligned blocks are nested or disjoint, and the *buddy* of an aligned block of order `k` is the
one that flipping bit `k` of the start gives: the other half of the aligned block of order
`k + 1` around it. Everything here is about natural numbers; no allocator is named.
-/

namespace EbbRT.Lib

/-- A block: a start and an order.
Source: none: infrastructure
Kind: D -/
structure Block where
  /-- The first element. -/
  start : ℕ
  /-- The base-two logarithm of the length. -/
  order : ℕ
  deriving DecidableEq, Repr

namespace Block

/-- The elements of a block.
Source: none: infrastructure
Kind: D -/
def cells (b : Block) : Set ℕ := Set.Ico b.start (b.start + 2 ^ b.order)

/-- Natural alignment: the start is a multiple of the length.
Source: none: infrastructure
Kind: D -/
def Aligned (b : Block) : Prop := 2 ^ b.order ∣ b.start

instance (b : Block) : Decidable b.Aligned := inferInstanceAs (Decidable (_ ∣ _))

/-- Membership in a block. Source: none: infrastructure. Kind: L -/
@[simp] theorem mem_cells {b : Block} {p : ℕ} :
    p ∈ b.cells ↔ b.start ≤ p ∧ p < b.start + 2 ^ b.order := Iff.rfl

/-- A block holds its own start. Source: none: infrastructure. Kind: L -/
theorem start_mem_cells (b : Block) : b.start ∈ b.cells := by
  have := Nat.two_pow_pos b.order
  simp only [mem_cells]
  omega

/-- A block of order `k + 1` is its lower half and its upper half.
Source: none: infrastructure. Kind: L -/
theorem cells_succ (p k : ℕ) : (⟨p, k + 1⟩ : Block).cells =
    (⟨p, k⟩ : Block).cells ∪ (⟨p + 2 ^ k, k⟩ : Block).cells := by
  ext q
  have := Nat.pow_succ 2 k
  simp only [mem_cells, Set.mem_union]
  omega

/-- The two halves are disjoint. Source: none: infrastructure. Kind: L -/
theorem disjoint_halves (p k : ℕ) :
    Disjoint (⟨p, k⟩ : Block).cells (⟨p + 2 ^ k, k⟩ : Block).cells := by
  rw [Set.disjoint_left]
  intro q hq hq'
  simp only [mem_cells] at hq hq'
  omega

/-- Inside an aligned block every multiple of a length no smaller than the block's is its start.
Source: none: infrastructure
Kind: L -/
theorem eq_start_of_dvd {b : Block} {p k : ℕ} (hb : b.Aligned) (hp : 2 ^ k ∣ p)
    (hmem : p ∈ b.cells) (hk : b.order ≤ k) : p = b.start := by
  obtain ⟨c, hc⟩ := hb
  obtain ⟨d, hd⟩ := (Nat.pow_dvd_pow 2 hk).trans hp
  have hpos := Nat.two_pow_pos b.order
  rw [mem_cells] at hmem
  obtain ⟨h1, h2⟩ := hmem
  rw [hc, hd] at h1
  have h3 : 2 ^ b.order * d < 2 ^ b.order * (c + 1) := by
    calc 2 ^ b.order * d = p := hd.symm
      _ < b.start + 2 ^ b.order := h2
      _ = 2 ^ b.order * (c + 1) := by rw [hc]; ring
  have hle : c ≤ d := Nat.le_of_mul_le_mul_left h1 hpos
  have hlt : d < c + 1 := Nat.lt_of_mul_lt_mul_left h3
  rw [hd, hc, show d = c by omega]

/-- An aligned block lies inside one aligned window at least as long: if `2 ^ k` is at least the
block's length, all its elements have the same quotient by `2 ^ k`.
Source: none: infrastructure
Kind: L -/
theorem div_eq_of_mem {b : Block} {p k : ℕ} (hb : b.Aligned) (hmem : p ∈ b.cells)
    (hk : b.order ≤ k) : p / 2 ^ k = b.start / 2 ^ k := by
  obtain ⟨c, hc⟩ := hb
  obtain ⟨j, rfl⟩ := Nat.exists_eq_add_of_le hk
  rw [mem_cells] at hmem
  have hpos := Nat.two_pow_pos b.order
  have hp : p / 2 ^ b.order = c := by
    rw [Nat.div_eq_iff hpos]
    rw [hc] at hmem
    have : (c + 1) * 2 ^ b.order = 2 ^ b.order * c + 2 ^ b.order := by ring
    constructor
    · linarith [hmem.1, Nat.mul_comm c (2 ^ b.order)]
    · have h := hmem.2
      have h' : c * 2 ^ b.order = 2 ^ b.order * c := Nat.mul_comm _ _
      omega
  have hs : b.start / 2 ^ b.order = c := by rw [hc, Nat.mul_div_cancel_left _ hpos]
  rw [Nat.pow_add, ← Nat.div_div_eq_div_mul, ← Nat.div_div_eq_div_mul, hp, hs]

end Block

/-! ## Buddies -/

/-- The buddy of the block of order `k` at `p`: bit `k` of the start flipped.
Source: none: infrastructure
Kind: D -/
def buddy (p k : ℕ) : ℕ := p ^^^ 2 ^ k

/-- On a multiple of `2 ^ k` the buddy flips the parity of the quotient.
Source: none: infrastructure
Kind: L -/
theorem buddy_mul (q k : ℕ) : buddy (2 ^ k * q) k = 2 ^ k * (q ^^^ 1) := by
  have h : (q ^^^ 1) <<< k = q <<< k ^^^ 1 <<< k := Nat.shiftLeft_xor_distrib
  simp only [Nat.shiftLeft_eq, one_mul] at h
  rw [buddy, Nat.mul_comm, ← h, Nat.mul_comm]

/-- The buddy is aligned as the block is. Source: none: infrastructure. Kind: L -/
theorem dvd_buddy {p k : ℕ} (h : 2 ^ k ∣ p) : 2 ^ k ∣ buddy p k := by
  obtain ⟨q, rfl⟩ := h
  exact ⟨_, buddy_mul q k⟩

/-- Taking the buddy twice gives the block back. Source: none: infrastructure. Kind: L -/
@[simp] theorem buddy_buddy (p k : ℕ) : buddy (buddy p k) k = p := by
  simp [buddy]

/-- **Where the buddy lies.** The buddy of an aligned block is the next block (and then the pair
starts at the block, which is aligned to the doubled length) or the previous one.
Source: none: infrastructure
Kind: P -/
theorem buddy_cases {p k : ℕ} (h : 2 ^ k ∣ p) :
    (buddy p k = p + 2 ^ k ∧ 2 ^ (k + 1) ∣ p) ∨
      (buddy p k + 2 ^ k = p ∧ 2 ^ (k + 1) ∣ buddy p k) := by
  obtain ⟨q, rfl⟩ := h
  rw [buddy_mul]
  rcases Nat.even_or_odd q with he | ho
  · obtain ⟨r, hr⟩ := even_iff_two_dvd.mp he
    refine Or.inl ⟨?_, r, by rw [hr]; ring⟩
    rw [Nat.xor_one_of_even he]
    ring
  · obtain ⟨r, hr⟩ := ho
    have hx : q ^^^ 1 = 2 * r := by
      rw [Nat.xor_one_of_odd ⟨r, hr⟩]
      omega
    exact Or.inr ⟨by rw [hx, hr]; ring, r, by rw [hx]; ring⟩

/-- A buddy above the block is the adjacent one, and the pair is aligned at the block.
Source: none: infrastructure
Kind: L -/
theorem buddy_of_lt {p k : ℕ} (h : 2 ^ k ∣ p) (hlt : p < buddy p k) :
    buddy p k = p + 2 ^ k ∧ 2 ^ (k + 1) ∣ p := by
  rcases buddy_cases h with hup | ⟨hdown, -⟩
  · exact hup
  · omega

/-- The buddy of the lower half of an aligned pair is the upper half.
Source: none: infrastructure
Kind: L -/
theorem buddy_of_dvd {p k : ℕ} (h : 2 ^ (k + 1) ∣ p) : buddy p k = p + 2 ^ k := by
  have hsucc : 2 ^ (k + 1) = 2 * 2 ^ k := by ring
  have hpos := Nat.two_pow_pos k
  rcases buddy_cases ((Nat.pow_dvd_pow 2 (Nat.le_succ k)).trans h) with ⟨he, -⟩ | ⟨he, hd⟩
  · exact he
  · have hdvd : 2 ^ (k + 1) ∣ 2 ^ k := by
      rw [← he] at h
      exact (Nat.dvd_add_right hd).mp h
    have := Nat.le_of_dvd hpos hdvd
    omega

/-- An aligned block with more than `2 ^ k` elements that holds the buddy holds the block too.
Source: none: infrastructure
Kind: L -/
theorem mem_cells_of_buddy_mem {b : Block} {p k : ℕ} (hb : b.Aligned) (hp : 2 ^ k ∣ p)
    (hk : k < b.order) (hmem : buddy p k ∈ b.cells) : p ∈ b.cells := by
  obtain ⟨c, hc⟩ := hb
  obtain ⟨j, hj⟩ := Nat.exists_eq_add_of_lt hk
  have hlen : 2 ^ b.order = 2 ^ (k + 1) * 2 ^ j := by rw [← Nat.pow_add, hj]; ring_nf
  have hsucc : 2 ^ (k + 1) = 2 * 2 ^ k := by ring
  have hpos := Nat.two_pow_pos k
  rw [Block.mem_cells] at hmem ⊢
  rcases buddy_cases hp with ⟨hup, d, hd⟩ | ⟨hdown, d, hd⟩
  · have h1 : 2 ^ (k + 1) * (2 ^ j * c) ≤ 2 ^ (k + 1) * d + 2 ^ k := by
      have := hmem.1
      rw [hup, hd, hc, hlen] at this
      calc 2 ^ (k + 1) * (2 ^ j * c) = 2 ^ (k + 1) * 2 ^ j * c := by ring
        _ ≤ _ := this
    have h2 : 2 ^ j * c ≤ d := by
      by_contra hlt
      have : 2 ^ (k + 1) * (d + 1) ≤ 2 ^ (k + 1) * (2 ^ j * c) := Nat.mul_le_mul_left _ (by omega)
      have h3 : 2 ^ (k + 1) * (d + 1) = 2 ^ (k + 1) * d + 2 ^ (k + 1) := by ring
      omega
    have h4 : b.start ≤ p := by
      calc b.start = 2 ^ (k + 1) * (2 ^ j * c) := by rw [hc, hlen]; ring
        _ ≤ 2 ^ (k + 1) * d := Nat.mul_le_mul_left _ h2
        _ = p := hd.symm
    exact ⟨h4, by omega⟩
  · have h1 : 2 ^ (k + 1) * d < 2 ^ (k + 1) * (2 ^ j * (c + 1)) := by
      have := hmem.2
      rw [hd, hc, hlen] at this
      calc 2 ^ (k + 1) * d < 2 ^ (k + 1) * 2 ^ j * c + 2 ^ (k + 1) * 2 ^ j := this
        _ = 2 ^ (k + 1) * (2 ^ j * (c + 1)) := by ring
    have h2 : d + 1 ≤ 2 ^ j * (c + 1) := Nat.lt_of_mul_lt_mul_left h1
    have h3 : p < b.start + 2 ^ b.order := by
      calc p = 2 ^ (k + 1) * d + 2 ^ k := by omega
        _ < 2 ^ (k + 1) * (d + 1) := by rw [Nat.mul_add]; omega
        _ ≤ 2 ^ (k + 1) * (2 ^ j * (c + 1)) := Nat.mul_le_mul_left _ h2
        _ = b.start + 2 ^ b.order := by rw [hc, hlen]; ring
    exact ⟨by omega, h3⟩

/-! ## Blocks kept in one list per order -/

/-- The blocks of a family of lists of starts, one list for each order below `N`.
Source: none: infrastructure
Kind: D -/
def binned (N : ℕ) (f : ℕ → List ℕ) : List Block :=
  (List.range N).flatMap fun k => (f k).map fun p => ⟨p, k⟩

/-- Membership in the blocks of a family. Source: none: infrastructure. Kind: L -/
theorem mem_binned {N : ℕ} {f : ℕ → List ℕ} {b : Block} :
    b ∈ binned N f ↔ b.order < N ∧ b.start ∈ f b.order := by
  obtain ⟨p, k⟩ := b
  simp only [binned, List.mem_flatMap, List.mem_range, List.mem_map, Block.mk.injEq]
  constructor
  · rintro ⟨k', hk', p', hp', rfl, rfl⟩
    exact ⟨hk', hp'⟩
  · rintro ⟨hk, hp⟩
    exact ⟨k, hk, p, hp, rfl, rfl⟩

/-- Families that agree below `N` have the same blocks. Source: none: infrastructure. Kind: L -/
theorem binned_congr {N : ℕ} {f g : ℕ → List ℕ} (h : ∀ k < N, f k = g k) :
    binned N f = binned N g := by
  simp only [binned, List.flatMap]
  congr 1
  refine List.map_congr_left fun k hk => ?_
  rw [h k (List.mem_range.mp hk)]

/-- Families with permuted lists have permuted blocks. Source: none: infrastructure. Kind: L -/
theorem binned_perm {N : ℕ} {f g : ℕ → List ℕ} (h : ∀ k < N, (f k).Perm (g k)) :
    (binned N f).Perm (binned N g) := by
  refine List.Perm.flatMap_left (List.range N) fun k hk => ?_
  exact (h k (List.mem_range.mp hk)).map _

/-- A start put in front of one list is one more block.
Source: none: infrastructure
Kind: L -/
theorem binned_cons {N : ℕ} {f g : ℕ → List ℕ} {p k : ℕ} (hk : k < N) (hg : g k = p :: f k)
    (hne : ∀ j < N, j ≠ k → g j = f j) : (binned N g).Perm (⟨p, k⟩ :: binned N f) := by
  induction N with
  | zero => omega
  | succ N ih =>
      have hsucc : ∀ h : ℕ → List ℕ,
          binned (N + 1) h = binned N h ++ (h N).map fun q => (⟨q, N⟩ : Block) := by
        intro h
        simp [binned, List.range_succ]
      rw [hsucc, hsucc]
      by_cases hkN : k = N
      · subst hkN
        rw [binned_congr fun j hj => hne j (by omega) (by omega), hg, List.map_cons]
        exact List.perm_middle
      · rw [hne N (by omega) (Ne.symm hkN), ← List.cons_append]
        exact (ih (by omega) fun j hj => hne j (by omega)).append_right _

/-- A start taken out of one list is one block less.
Source: none: infrastructure
Kind: L -/
theorem binned_erase {N : ℕ} {f g : ℕ → List ℕ} {p k : ℕ} (hk : k < N) (hp : p ∈ f k)
    (hg : g k = (f k).erase p) (hne : ∀ j < N, j ≠ k → g j = f j) :
    (binned N f).Perm (⟨p, k⟩ :: binned N g) := by
  have hmid : (binned N f).Perm (binned N (Function.update f k (p :: g k))) := by
    refine binned_perm fun j _ => ?_
    by_cases hj : j = k
    · subst hj
      rw [Function.update_self, hg]
      exact List.perm_cons_erase hp
    · rw [Function.update_of_ne hj]
  refine hmid.trans (binned_cons hk (Function.update_self ..) fun j hj hjk => ?_)
  rw [Function.update_of_ne hjk, hne j hj hjk]

end EbbRT.Lib
