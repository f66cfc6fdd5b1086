import Mathlib

/-!
# Bytes and words in memory

Memory has a byte at each 64-bit address, and a word is eight of them, the lowest first. `Holds m a ws`
says that the words `ws` lie one after another from `a` on, as the words above the pointer of a stack
do: a push puts one in front (`Holds.push`), a pop takes one off (`holds_cons`), moving the pointer
down takes in what lies there (`Holds.grow`), and what is stored elsewhere does not matter
(`Holds.store_of_apart`). Addresses wrap; a list of words fits if it has at most `2 ^ 61` of them.
-/

namespace EbbRT.Lib

/-- A byte at each address.
Source: none: infrastructure
Kind: D -/
def Memory : Type := BitVec 64 → BitVec 8

variable {m m' : Memory} {a b v : BitVec 64} {ws xs ys : List (BitVec 64)} {i n : ℕ}

namespace Memory

/-- The word at an address.
Source: none: infrastructure
Kind: D -/
def load (m : Memory) (a : BitVec 64) : BitVec 64 :=
  BitVec.ofFnLE fun j : Fin 64 => (m (a + BitVec.ofNat 64 (j / 8))).getLsbD (j % 8)

/-- Putting a word at an address.
Source: none: infrastructure
Kind: D -/
def store (m : Memory) (a v : BitVec 64) : Memory := fun x =>
  if (x - a).toNat < 8 then v.extractLsb' (8 * (x - a).toNat) 8 else m x

/-- Words one after another.
Source: none: infrastructure
Kind: D -/
def storeWords : List (BitVec 64) → Memory → BitVec 64 → Memory
  | [], m, _ => m
  | v :: ws, m, a => storeWords ws (m.store a v) (a + 8)

/-- The words one after another from an address on.
Source: none: infrastructure
Kind: D -/
def loadWords (m : Memory) : ℕ → BitVec 64 → List (BitVec 64)
  | 0, _ => []
  | n + 1, a => m.load a :: loadWords m n (a + 8)

/-- The words `ws` lie one after another from `a` on.
Source: none: infrastructure
Kind: D -/
def Holds (m : Memory) : BitVec 64 → List (BitVec 64) → Prop
  | _, [] => True
  | a, v :: ws => m.load a = v ∧ Holds m (a + 8) ws

/-! ## One word -/

/-- Source: none: infrastructure. Kind: L -/
theorem toNat_eight : (8 : BitVec 64).toNat = 8 := rfl

/-- Distances from an address, one byte on. Source: none: infrastructure. Kind: L -/
theorem toNat_add_ofNat_sub (h : (a - b).toNat + i < 2 ^ 64) :
    (a + BitVec.ofNat 64 i - b).toNat = (a - b).toNat + i := by
  rw [show a + BitVec.ofNat 64 i - b = (a - b) + BitVec.ofNat 64 i by
    rw [BitVec.sub_eq_add_neg, BitVec.sub_eq_add_neg, BitVec.add_assoc, BitVec.add_assoc,
      BitVec.add_comm (BitVec.ofNat 64 i)]]
  rw [BitVec.toNat_add, BitVec.toNat_ofNat, Nat.mod_eq_of_lt (show i < 2 ^ 64 by omega)]
  exact Nat.mod_eq_of_lt h

/-- A word depends on its eight bytes. Source: none: infrastructure. Kind: L -/
theorem load_congr (h : ∀ i < 8, m (a + BitVec.ofNat 64 i) = m' (a + BitVec.ofNat 64 i)) :
    m.load a = m'.load a := by
  unfold load
  congr 1
  funext j
  rw [h (j / 8) (by omega)]

/-- **What was stored is there.** Source: none: infrastructure. Kind: L -/
@[simp]
theorem load_store_self (m : Memory) (a v : BitVec 64) : (m.store a v).load a = v := by
  apply BitVec.eq_of_getLsbD_eq
  intro j hj
  have hbyte : (a + BitVec.ofNat 64 (j / 8) - a).toNat = j / 8 := by
    rw [BitVec.add_comm, BitVec.add_sub_cancel, BitVec.toNat_ofNat]
    exact Nat.mod_eq_of_lt (by omega)
  rw [load, BitVec.getLsbD_eq_getElem hj, BitVec.getElem_ofFnLE]
  dsimp only [store]
  rw [hbyte, if_pos (by omega), BitVec.getLsbD_extractLsb', Nat.div_add_mod]
  simp [Nat.mod_lt]

/-! ## Words one after another -/

/-- **Popping**: the first word, and the others behind it. Source: none: infrastructure. Kind: L -/
@[simp]
theorem holds_cons : m.Holds a (v :: ws) ↔ m.load a = v ∧ m.Holds (a + 8) ws := Iff.rfl

/-- Source: none: infrastructure. Kind: L -/
@[simp]
theorem holds_nil : m.Holds a [] := trivial

/-- Addresses behind words. Source: none: infrastructure. Kind: L -/
theorem add_words (a : BitVec 64) (n : ℕ) :
    a + BitVec.ofNat 64 (8 * (n + 1)) = a + 8 + BitVec.ofNat 64 (8 * n) := by
  rw [BitVec.add_assoc, show 8 * (n + 1) = 8 + 8 * n by omega, BitVec.ofNat_add]
  rfl

/-- Words before and behind an address. Source: none: infrastructure. Kind: L -/
theorem holds_append : m.Holds a (xs ++ ys) ↔
    m.Holds a xs ∧ m.Holds (a + BitVec.ofNat 64 (8 * xs.length)) ys := by
  induction xs generalizing a with
  | nil => simp
  | cons v xs ih =>
      rw [List.cons_append, holds_cons, holds_cons, ih, List.length_cons, add_words, and_assoc]

/-- **Reading a word** of those that lie there. Source: none: infrastructure. Kind: L -/
theorem Holds.load_eq (h : m.Holds a ws) (hi : i < ws.length) :
    m.load (a + BitVec.ofNat 64 (8 * i)) = ws[i] := by
  induction ws generalizing a i with
  | nil => exact absurd hi (Nat.not_lt_zero _)
  | cons v ws ih =>
      cases i with
      | zero => simpa using h.1
      | succ i =>
          rw [add_words]
          exact ih h.2 (Nat.lt_of_succ_lt_succ hi)

/-- Some words lie everywhere. Source: none: infrastructure. Kind: L -/
theorem holds_loadWords (m : Memory) (n : ℕ) (a : BitVec 64) : m.Holds a (m.loadWords n a) := by
  induction n generalizing a with
  | zero => exact holds_nil
  | succ n ih => exact ⟨rfl, ih (a + 8)⟩

/-- Source: none: infrastructure. Kind: L -/
@[simp]
theorem length_loadWords (m : Memory) (n : ℕ) (a : BitVec 64) : (m.loadWords n a).length = n := by
  induction n generalizing a with
  | zero => rfl
  | succ n ih => rw [loadWords, List.length_cons, ih]

/-- What lies there is read. Source: none: infrastructure. Kind: L -/
theorem Holds.loadWords_eq (h : m.Holds a ws) : m.loadWords ws.length a = ws := by
  induction ws generalizing a with
  | nil => rfl
  | cons v ws ih => rw [List.length_cons, loadWords, h.1, ih h.2]

/-- Only the bytes of the words matter. Source: none: infrastructure. Kind: L -/
theorem Holds.congr (h : m.Holds a ws)
    (hsame : ∀ i < 8 * ws.length, m' (a + BitVec.ofNat 64 i) = m (a + BitVec.ofNat 64 i)) :
    m'.Holds a ws := by
  induction ws generalizing a with
  | nil => exact holds_nil
  | cons v ws ih =>
      rw [List.length_cons] at hsame
      refine ⟨?_, ih h.2 fun i hi => ?_⟩
      · rw [← h.1]
        exact load_congr fun i hi => hsame i (by omega)
      · have hat := hsame (8 + i) (by omega)
        rwa [BitVec.ofNat_add, ← BitVec.add_assoc] at hat

/-- The byte behind a stored word, counted from the word. Source: none: infrastructure. Kind: L -/
theorem store_apply_of_le {x : BitVec 64} (h : 8 ≤ (x - a).toNat) : m.store a v x = m x :=
  if_neg (by omega)

/-- **A word stored in front of the words**, or anywhere before they start again after a wrap.
Source: none: infrastructure
Kind: L -/
theorem Holds.store_of_apart (h : m.Holds a ws) (hba : 8 ≤ (a - b).toNat)
    (hfits : (a - b).toNat + 8 * ws.length ≤ 2 ^ 64) : (m.store b v).Holds a ws := by
  apply h.congr
  intro i hi
  apply store_apply_of_le
  rw [toNat_add_ofNat_sub (by omega)]
  omega

/-- **Pushing** puts a word in front. Source: none: infrastructure. Kind: P -/
theorem Holds.push (h : m.Holds a ws) (hfits : 8 * (ws.length + 1) ≤ 2 ^ 64) (v : BitVec 64) :
    (m.store (a - 8) v).Holds (a - 8) (v :: ws) := by
  have hdist : (a - (a - 8)).toNat = 8 := by
    rw [BitVec.toNat_sub, BitVec.toNat_sub, toNat_eight]
    omega
  refine ⟨load_store_self _ _ _, ?_⟩
  rw [BitVec.sub_add_cancel]
  exact h.store_of_apart (by omega) (by omega)

/-- **Moving the pointer down** takes in the words that lie there. Source: none: infrastructure. Kind: L -/
theorem Holds.grow (h : m.Holds a ws) (n : ℕ) :
    m.Holds (a - BitVec.ofNat 64 (8 * n))
      (m.loadWords n (a - BitVec.ofNat 64 (8 * n)) ++ ws) := by
  rw [holds_append, length_loadWords, BitVec.sub_add_cancel]
  exact ⟨holds_loadWords _ _ _, h⟩

/-- Storing words leaves the bytes outside alone. Source: none: infrastructure. Kind: L -/
theorem storeWords_apply_of_le {x : BitVec 64} (h : 8 * xs.length ≤ (x - a).toNat) :
    storeWords xs m a x = m x := by
  induction xs generalizing m a with
  | nil => rfl
  | cons v xs ih =>
      rw [List.length_cons] at h
      have hnext : (x - (a + 8)).toNat = (x - a).toNat - 8 := by
        rw [BitVec.toNat_sub, BitVec.toNat_add, toNat_eight]
        rw [BitVec.toNat_sub] at h ⊢
        omega
      rw [storeWords, ih (by omega)]
      exact store_apply_of_le (by omega)

/-- **Stored words lie there**, in front of what lay behind them. Source: none: infrastructure. Kind: P -/
theorem Holds.storeWords (xs : List (BitVec 64)) (h : m.Holds (a + BitVec.ofNat 64 (8 * xs.length)) ws)
    (hfits : 8 * (xs.length + ws.length) ≤ 2 ^ 64) :
    (Memory.storeWords xs m a).Holds a (xs ++ ws) := by
  induction xs generalizing m a with
  | nil => simpa [Memory.storeWords] using h
  | cons v xs ih =>
      rw [List.length_cons] at h hfits
      rw [add_words] at h
      refine ⟨?_, ih ?_ (by omega)⟩
      · calc (Memory.storeWords xs (m.store a v) (a + 8)).load a
            = (m.store a v).load a := by
              apply load_congr
              intro i hi
              apply storeWords_apply_of_le
              rw [BitVec.toNat_sub, BitVec.toNat_add, BitVec.toNat_add, toNat_eight, BitVec.toNat_ofNat]
              omega
          _ = v := load_store_self m a v
      · apply h.congr
        intro i hi
        apply store_apply_of_le
        rw [BitVec.toNat_sub, BitVec.toNat_add, BitVec.toNat_add, BitVec.toNat_add, toNat_eight,
          BitVec.toNat_ofNat, BitVec.toNat_ofNat]
        omega

/-- Any words lie somewhere in some memory. Source: none: infrastructure. Kind: L -/
theorem exists_holds (a : BitVec 64) (ws : List (BitVec 64)) (hfits : 8 * ws.length ≤ 2 ^ 64) :
    ∃ m : Memory, m.Holds a ws := by
  have h := (holds_nil (m := fun _ => 0) (a := a + BitVec.ofNat 64 (8 * ws.length))).storeWords ws
    (by rw [List.length_nil]; omega)
  rw [List.append_nil] at h
  exact ⟨_, h⟩

end Memory

end EbbRT.Lib
