import Mathlib

/-!
# Interrupt vectors

`AllocateVector` hands out the values of an 8-bit counter that starts at 32 and files the function
under the value; `ProcessInterrupt` looks the number of the interrupt up. The counter is atomic and
wraps: `vectors_exactlyWhen` says that the vectors of a manager are apart, not those of the
exceptions, and each routed to the function it was given for, as long as there are at most 224 of
them, and that the next call returns the vector of the division error.
-/

namespace EbbRT

namespace EventManager

/-! ## The code -/

/-- The part of the manager that deals with vectors.
Source: `sys/event_manager.hpp` `EventManager::vector_idx_`, `EventManager::vector_map_`
Kind: D -/
structure Vectors (F : Type*) where
  vectorIdx : BitVec 8
  vectorMap : BitVec 8 → Option F

variable {F : Type*}

/-- Source: `sys/event_manager.cpp` `EventManager::EventManager`
Kind: D -/
def Vectors.init (F : Type*) : Vectors F := ⟨32, fun _ => none⟩

/-- An entry that is there already stays.
Source: `sys/event_manager.cpp` `EventManager::AllocateVector` (`std::unordered_map::emplace`)
Kind: D -/
def emplace (vec : BitVec 8) (func : F) (map : BitVec 8 → Option F) : BitVec 8 → Option F :=
  if (map vec).isSome then map else Function.update map vec (some func)

/-- The vector and the manager after the call; `fetch_add` wraps and answers the old value.
Source: `sys/event_manager.cpp` `EventManager::AllocateVector`
Kind: D -/
def allocateVector (func : F) (s : Vectors F) : BitVec 8 × Vectors F :=
  let vec := s.vectorIdx
  (vec, ⟨s.vectorIdx + 1, emplace vec func s.vectorMap⟩)

/-- The function that the interrupt `num` invokes; the map's keys have 8 bits.
Source: `sys/event_manager.cpp` `EventManager::ProcessInterrupt`
Kind: D -/
def processInterrupt (num : ℤ) (s : Vectors F) : Option F := s.vectorMap (BitVec.ofInt 8 num)

/-- A sequence of calls: the vectors they return, and the manager after them.
Source: none: infrastructure
Kind: D -/
def allocateVectors : List F → Vectors F → List (BitVec 8) × Vectors F
  | [], s => ([], s)
  | func :: funcs, s =>
      let (vec, s) := allocateVector func s
      let (vecs, s) := allocateVectors funcs s
      (vec :: vecs, s)

/-! ## What the vectors are for -/

/-- After the calls with `funcs` on a new manager: no vector is one of an exception, no two are the
same, and an interrupt on each invokes the function given for it.
Source: none: infrastructure
Kind: D -/
structure Routed (funcs : List F) : Prop where
  inRange : ∀ vec ∈ (allocateVectors funcs (Vectors.init F)).1, 32 ≤ vec.toNat ∧ vec.toNat ≤ 255
  fresh : (allocateVectors funcs (Vectors.init F)).1.Nodup
  routed : ∀ (i : ℕ) (vec : BitVec 8), (allocateVectors funcs (Vectors.init F)).1[i]? = some vec →
    processInterrupt vec.toNat (allocateVectors funcs (Vectors.init F)).2 = funcs[i]?

/-! ## Lemmas -/

variable {func : F} {funcs : List F} {s : Vectors F} {vec other : BitVec 8}
  {map : BitVec 8 → Option F}

/-- Source: none: infrastructure
Kind: L -/
theorem emplace_of_none (h : map vec = none) :
    emplace vec func map = Function.update map vec (some func) := by
  unfold emplace
  simp [h]

/-- The last call of a sequence.
Source: none: infrastructure
Kind: L -/
theorem allocateVectors_concat (func : F) (funcs : List F) (s : Vectors F) :
    allocateVectors (funcs ++ [func]) s =
      let (vecs, s') := allocateVectors funcs s
      let (vec, s'') := allocateVector func s'
      (vecs ++ [vec], s'') := by
  induction funcs generalizing s with
  | nil => rfl
  | cons f funcs ih => simp [allocateVectors, ih]

/-- The `i`th vector, as long as the counter has not wrapped.
Source: none: infrastructure
Kind: D -/
def nthVector (i : ℕ) : BitVec 8 := BitVec.ofNat 8 (32 + i)

/-- Source: none: infrastructure
Kind: L -/
theorem toNat_nthVector {i : ℕ} (h : i < 224) : (nthVector i).toNat = 32 + i := by
  unfold nthVector
  rw [BitVec.toNat_ofNat]
  apply Nat.mod_eq_of_lt
  omega

/-- Source: none: infrastructure
Kind: L -/
theorem nthVector_succ (i : ℕ) : nthVector i + 1 = nthVector (i + 1) := by
  unfold nthVector
  rw [← Nat.add_assoc, BitVec.ofNat_add (32 + i) 1]
  rfl

/-- What a manager is after `funcs`, before the counter wraps.
Source: none: infrastructure
Kind: D -/
structure Filed (funcs : List F) (s : Vectors F) : Prop where
  idx : s.vectorIdx = nthVector funcs.length
  files : ∀ i < 224, s.vectorMap (nthVector i) = funcs[i]?

/-- One call files its function under the next vector.
Source: none: infrastructure
Kind: L -/
theorem Filed.allocateVector (h : Filed funcs s) (hlen : funcs.length < 224) (func : F) :
    (allocateVector func s).1 = nthVector funcs.length ∧
      Filed (funcs ++ [func]) (allocateVector func s).2 := by
  have hnone : s.vectorMap (nthVector funcs.length) = none := by
    rw [h.files _ hlen]
    simp
  refine ⟨h.idx, ?_, fun i hi => ?_⟩
  · simp only [EventManager.allocateVector, h.idx, nthVector_succ, List.length_append,
      List.length_singleton]
  · simp only [EventManager.allocateVector, h.idx, emplace_of_none hnone]
    by_cases heq : i = funcs.length
    · subst heq
      simp
    · have hne : nthVector i ≠ nthVector funcs.length := by
        intro hvec
        apply heq
        have := congrArg BitVec.toNat hvec
        rw [toNat_nthVector hi, toNat_nthVector hlen] at this
        omega
      rw [Function.update_of_ne hne, h.files i hi, List.getElem?_append]
      split
      · rfl
      · rename_i hge
        rw [List.getElem?_eq_none (by omega), List.getElem?_singleton, if_neg (by omega)]

/-- What a sequence of at most 224 calls returns, and what it files.
Source: none: infrastructure
Kind: L -/
theorem filed_allocateVectors (funcs : List F) (hlen : funcs.length ≤ 224) :
    (allocateVectors funcs (Vectors.init F)).1 = (List.range funcs.length).map nthVector ∧
      Filed funcs (allocateVectors funcs (Vectors.init F)).2 := by
  induction funcs using List.reverseRecOn with
  | nil =>
      refine ⟨rfl, rfl, fun i _ => ?_⟩
      simp [allocateVectors, Vectors.init]
  | append_singleton funcs func ih =>
      rw [List.length_append, List.length_singleton] at hlen
      obtain ⟨hvecs, hfiled⟩ := ih (by omega)
      obtain ⟨hvec, hnext⟩ := hfiled.allocateVector (by omega) func
      rw [allocateVectors_concat]
      refine ⟨?_, hnext⟩
      simp only [hvecs, hvec, List.length_append, List.length_singleton, List.range_succ,
        List.map_append, List.map_singleton]

/-- At most 224 calls are routed.
Source: none: infrastructure
Kind: L -/
theorem routed_of_length_le (hlen : funcs.length ≤ 224) : Routed funcs := by
  obtain ⟨hvecs, hfiled⟩ := filed_allocateVectors funcs hlen
  refine ⟨fun vec hvec => ?_, ?_, fun i vec hvec => ?_⟩
  · rw [hvecs] at hvec
    obtain ⟨i, hi, rfl⟩ := List.mem_map.mp hvec
    rw [List.mem_range] at hi
    rw [toNat_nthVector (by omega)]
    omega
  · rw [hvecs]
    apply List.Nodup.map_on _ List.nodup_range
    intro i hi j hj hij
    rw [List.mem_range] at hi hj
    have := congrArg BitVec.toNat hij
    rw [toNat_nthVector (by omega), toNat_nthVector (by omega)] at this
    omega
  · rw [hvecs, List.getElem?_map] at hvec
    obtain ⟨j, hj, rfl⟩ := Option.map_eq_some_iff.mp hvec
    obtain ⟨hlt, rfl⟩ := List.getElem?_eq_some_iff.mp hj
    rw [List.length_range] at hlt
    rw [List.getElem_range]
    unfold processInterrupt
    rw [BitVec.ofInt_natCast, BitVec.ofNat_toNat, BitVec.setWidth_eq]
    exact hfiled.files i (by omega)

/-- After 225 calls the last vector is that of an exception.
Source: none: infrastructure
Kind: L -/
theorem not_routed_of_length_eq (hlen : funcs.length = 225) : ¬ Routed funcs := by
  intro h
  have hne : funcs ≠ [] := by
    intro hnil
    simp [hnil] at hlen
  rw [← List.dropLast_append_getLast hne] at h
  have hinit : funcs.dropLast.length = 224 := by simp [hlen]
  have hidx := (filed_allocateVectors funcs.dropLast hinit.le).2.idx
  have hlast := h.inRange 0
  rw [allocateVectors_concat] at hlast
  simp only [allocateVector, hidx, hinit] at hlast
  have := hlast (by simp [nthVector])
  simp at this

/-! ## The vectors of a manager -/

/-- **Vectors are apart and routed, up to 224 of them.** After each of the calls with `funcs` on a
new manager the vectors returned so far lie in 32..255, are apart and each routed to the function it
was given for, if and only if there are at most 224 calls: the counter has 8 bits.
Source: `sys/event_manager.cpp` `EventManager::AllocateVector`, `EventManager::ProcessInterrupt`
Kind: C -/
theorem vectors_exactlyWhen (funcs : List F) :
    (∀ k ≤ funcs.length, Routed (funcs.take k)) ↔ funcs.length ≤ 224 := by
  constructor
  · intro h
    by_contra hlong
    have hlast : (funcs.take 225).length = 225 := by
      rw [List.length_take]
      omega
    exact not_routed_of_length_eq hlast (h 225 (by omega))
  · intro hlen k _
    apply routed_of_length_le
    rw [List.length_take]
    omega

/-- The 225th call returns vector 0, the division error's.
Source: `sys/event_manager.cpp` `EventManager::AllocateVector`
Kind: C -/
theorem vectors_not_always :
    ¬ ∀ k ≤ (List.range 225).length, Routed ((List.range 225).take k) := by
  intro h
  have hbad := (h 225 (by simp)).inRange 0
  have hmem : (0 : BitVec 8) ∈
      (allocateVectors ((List.range 225).take 225) (Vectors.init ℕ)).1 := by
    decide +kernel
  simpa using hbad hmem

end EventManager

end EbbRT
