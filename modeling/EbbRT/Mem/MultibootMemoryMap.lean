import EbbRT.Mem.Pfn

/-!
# Walking the multiboot memory map

The boot loader leaves the memory map as records that begin with their size, which does not count the size
field itself. `for_each_mmregion` goes on by the size plus 4, a sum of 32 bits: a size from `2 ^ 32 - 4` on
makes it wrap, and the walk stands still or goes into the record it has just seen.
`forEachMmregion_exactlyWhen`: these sizes are all that can go wrong.
-/

namespace EbbRT

namespace Multiboot

variable {σ : Type}

/-! ## The code -/

/-- `size`, at the start of the record.
Source: `sys/multiboot.hpp` `MultibootMemoryRegion`
Kind: D -/
def regionSize (mem : ℕ → UInt8) (p : ℕ) : ℕ :=
  (mem p).toNat + 2 ^ 8 * (mem (p + 1)).toNat + 2 ^ 16 * (mem (p + 2)).toNat + 2 ^ 24 * (mem (p + 3)).toNat

/-- `p += region->size + 4`: the sum is one of 32 bits.
Source: `sys/multiboot.hpp` `MultibootMemoryRegion::for_each_mmregion`
Kind: D -/
def nextRegion (mem : ℕ → UInt8) (p : ℕ) : ℕ := (p + (regionSize mem p + 4) % 2 ^ 32) % word

/-- The loop, with the last value of `p`; `none` is that it has not come to an end within so many turns.
Source: `sys/multiboot.hpp` `MultibootMemoryRegion::for_each_mmregion`
Kind: D -/
def mmregionLoop (mem : ℕ → UInt8) (endAddr : ℕ) (f : ℕ → σ → σ) : ℕ → ℕ → σ → Option (ℕ × σ)
  | 0, _, _ => none
  | fuel + 1, p, s =>
      if p < endAddr then mmregionLoop mem endAddr f fuel (nextRegion mem p) (f p s) else some (p, s)

/-- `f` gets the address of the record.
Source: `sys/multiboot.hpp` `MultibootMemoryRegion::for_each_mmregion`
Kind: D -/
def forEachMmregion (mem : ℕ → UInt8) (buffer size : ℕ) (f : ℕ → σ → σ) (fuel : ℕ) (s : σ) :
    Option (ℕ × σ) :=
  mmregionLoop mem ((buffer + size) % word) f fuel buffer s

/-! ## What a walk should be -/

/-- The walk ends. `f` is called for the records at `offsets`, one after the other, which are inside the
buffer and increase; and each offset, up to the one at which the walk ends, is the one before plus the size
of its record plus 4.
Source: `sys/multiboot.hpp` `MultibootMemoryRegion::for_each_mmregion`
Kind: D -/
structure Walks (mem : ℕ → UInt8) (buffer size : ℕ) (offsets : List ℕ) (last : ℕ) : Prop where
  calls : ∀ {σ : Type} (f : ℕ → σ → σ) (s : σ), ∃ fuel, forEachMmregion mem buffer size f fuel s =
    some (buffer + last, offsets.foldl (fun s o => f (buffer + o) s) s)
  inside : ∀ o ∈ offsets, o < size
  increasing : (offsets ++ [last]).Pairwise (· < ·)
  next : (offsets ++ [last]).IsChain fun o o' => o' = o + regionSize mem (buffer + o) + 4

/-- The offsets of the records, each behind the one before.
Source: `sys/multiboot.hpp` `MultibootMemoryRegion`
Kind: D -/
inductive Record (mem : ℕ → UInt8) (buffer size : ℕ) : ℕ → Prop
  | first (h : 0 < size) : Record mem buffer size 0
  | next {o : ℕ} (h : Record mem buffer size o) (hin : o + regionSize mem (buffer + o) + 4 < size) :
      Record mem buffer size (o + regionSize mem (buffer + o) + 4)

section Walk

variable {mem : ℕ → UInt8} {buffer size endAddr o p q fuel : ℕ} {offsets : List ℕ} {last : ℕ}

/-- Source: none: infrastructure. Kind: L -/
theorem Record.lt (h : Record mem buffer size o) : o < size := by
  cases h with
  | first h => exact h
  | next _ hin => exact hin

/-- A turn that does not wrap. Source: `sys/multiboot.hpp` `MultibootMemoryRegion::for_each_mmregion`.
Kind: L -/
theorem nextRegion_eq (hbuffer : buffer + 2 ^ 33 ≤ word) (ho : o < 2 ^ 32) :
    nextRegion mem (buffer + o) = buffer + (o + (regionSize mem (buffer + o) + 4) % 2 ^ 32) := by
  have hlt : (regionSize mem (buffer + o) + 4) % 2 ^ 32 < 2 ^ 32 := Nat.mod_lt _ (by norm_num)
  unfold nextRegion
  rw [Nat.mod_eq_of_lt (by omega), Nat.add_assoc]

/-- **From a record on** the walk is right if all the sizes are. By induction on the bytes that are left.
Source: `sys/multiboot.hpp` `MultibootMemoryRegion::for_each_mmregion`
Kind: L -/
theorem walks_from (hbuffer : buffer + 2 ^ 33 ≤ word) (hsize : size < 2 ^ 32)
    (hsizes : ∀ o, Record mem buffer size o → regionSize mem (buffer + o) + 4 < 2 ^ 32)
    (o : ℕ) (ho : Record mem buffer size o ∨ size ≤ o) :
    ∃ offsets last,
      (∀ {σ : Type} (f : ℕ → σ → σ) (s : σ), ∃ fuel,
        mmregionLoop mem (buffer + size) f fuel (buffer + o) s =
          some (buffer + last, offsets.foldl (fun s o => f (buffer + o) s) s)) ∧
      (∀ o ∈ offsets, o < size) ∧
      (offsets ++ [last]).head? = some o ∧
      (offsets ++ [last]).IsChain fun o o' => o' = o + regionSize mem (buffer + o) + 4 := by
  induction hleft : size - o using Nat.strong_induction_on generalizing o with
  | _ n ih =>
      rcases Nat.lt_or_ge o size with hlt | hge
      · have hrecord := ho.resolve_right (by omega)
        have hstep := hsizes o hrecord
        obtain ⟨offsets, last, hcalls, hinside, hhead, hchain⟩ :=
          ih (size - (o + regionSize mem (buffer + o) + 4)) (by omega)
            (o + regionSize mem (buffer + o) + 4) (by
              rcases Nat.lt_or_ge (o + regionSize mem (buffer + o) + 4) size with hin | hout
              · exact Or.inl (.next hrecord hin)
              · exact Or.inr hout) rfl
        refine ⟨o :: offsets, last, fun f s => ?_, List.forall_mem_cons.mpr ⟨hlt, hinside⟩, rfl, ?_⟩
        · obtain ⟨fuel, hfuel⟩ := hcalls f (f (buffer + o) s)
          refine ⟨fuel + 1, ?_⟩
          rw [mmregionLoop, if_pos (by omega), nextRegion_eq hbuffer (by omega), Nat.mod_eq_of_lt hstep,
            ← Nat.add_assoc o, hfuel]
          rfl
        · rw [List.cons_append, List.isChain_cons]
          refine ⟨fun o' ho' => ?_, hchain⟩
          rw [hhead] at ho'
          exact (Option.some.inj ho').symm
      · refine ⟨[], o, fun f s => ⟨1, ?_⟩, fun o ho => absurd ho List.not_mem_nil, rfl,
          List.isChain_singleton _⟩
        rw [mmregionLoop, if_neg (by omega)]
        rfl

/-- **What the loop logs**: values of `p`, each the one after the one before, up to the first that is not
inside. By induction on the turns.
Source: `sys/multiboot.hpp` `MultibootMemoryRegion::for_each_mmregion`
Kind: L -/
theorem mmregionLoop_log {log log' : List ℕ}
    (h : mmregionLoop mem endAddr (fun p log => log ++ [p]) fuel p log = some (q, log')) :
    ∃ visited, log' = log ++ visited ∧ endAddr ≤ q ∧ (visited ++ [q]).head? = some p ∧
      (visited ++ [q]).IsChain fun p p' => p' = nextRegion mem p := by
  induction fuel generalizing p log with
  | zero => cases h
  | succ fuel ih =>
      rw [mmregionLoop] at h
      split at h
      · obtain ⟨visited, rfl, hend, hhead, hchain⟩ := ih h
        refine ⟨p :: visited, by rw [List.append_assoc]; rfl, hend, rfl, ?_⟩
        rw [List.cons_append, List.isChain_cons]
        refine ⟨fun p' hp' => ?_, hchain⟩
        rw [hhead] at hp'
        exact (Option.some.inj hp').symm
      · rename_i hge
        obtain ⟨rfl, rfl⟩ := Prod.mk.inj (Option.some.inj h)
        exact ⟨[], (List.append_nil log).symm, not_lt.mp hge, rfl, List.isChain_singleton _⟩

/-- Every element but the last has one after it. Source: none: infrastructure. Kind: L -/
theorem exists_successor {α : Type*} {l : List α} {x y : α} (hx : x ∈ l) :
    ∃ x' ∈ l ++ [y], ∀ R : α → α → Prop, (l ++ [y]).IsChain R → R x x' := by
  induction l with
  | nil => cases hx
  | cons z l ih =>
      rcases List.mem_cons.mp hx with rfl | hx
      · obtain ⟨x', hx'⟩ : ∃ x', (l ++ [y]).head? = some x' := by
          cases l <;> exact ⟨_, rfl⟩
        refine ⟨x', List.mem_cons_of_mem _ (List.mem_of_head? hx'), fun R hR => ?_⟩
        rw [List.cons_append, List.isChain_cons] at hR
        exact hR.1 x' hx'
      · obtain ⟨x', hmem, hR⟩ := ih hx
        refine ⟨x', List.mem_cons_of_mem _ hmem, fun R hchain => hR R ?_⟩
        rw [List.cons_append, List.isChain_cons] at hchain
        exact hchain.2

/-- **The offsets of a walk** are those of the loop.
Source: `sys/multiboot.hpp` `MultibootMemoryRegion::for_each_mmregion`
Kind: L -/
theorem Walks.loop (hbuffer : buffer + 2 ^ 33 ≤ word) (hsize : size < 2 ^ 32)
    (h : Walks mem buffer size offsets last) :
    size ≤ last ∧ (offsets ++ [last]).head? = some 0 ∧
      ∀ o ∈ offsets, ∃ o' ∈ offsets ++ [last], o' = o + regionSize mem (buffer + o) + 4 ∧
        o' = o + (regionSize mem (buffer + o) + 4) % 2 ^ 32 := by
  obtain ⟨fuel, hfuel⟩ := h.calls (fun p log => log ++ [p]) []
  unfold forEachMmregion at hfuel
  rw [Nat.mod_eq_of_lt (by omega)] at hfuel
  have hlog : ∀ (l log : List ℕ), l.foldl (fun s o => s ++ [buffer + o]) log
      = log ++ l.map (buffer + ·) := by
    intro l
    induction l with
    | nil => simp
    | cons o l ih => simp [ih]
  obtain ⟨visited, hvisited, hend, hhead, hchain⟩ := mmregionLoop_log hfuel
  rw [hlog, List.nil_append, List.nil_append] at hvisited
  have hmap : visited ++ [buffer + last] = (offsets ++ [last]).map (buffer + ·) := by
    rw [← hvisited, List.map_append]
    rfl
  rw [hmap] at hhead hchain
  rw [List.isChain_map] at hchain
  refine ⟨by omega, ?_, fun o ho => ?_⟩
  · rw [List.head?_map] at hhead
    obtain ⟨o, ho, heq⟩ := Option.map_eq_some_iff.mp hhead
    rw [ho, show o = 0 by omega]
  · obtain ⟨o', ho', hR⟩ := exists_successor (y := last) ho
    have hnext := hR _ hchain
    have hinside := h.inside o ho
    rw [nextRegion_eq hbuffer (by omega)] at hnext
    exact ⟨o', ho', hR _ h.next, by omega⟩

/-- **The walk over the memory map** is right exactly when no record has a size from `2 ^ 32 - 4` on.
Source: `sys/multiboot.hpp` `MultibootMemoryRegion::for_each_mmregion`
Kind: P
Hyps: `hbuffer`: the information lies below the last 8 GB of the address space; `hsize`: the size has 32
bits -/
theorem forEachMmregion_exactlyWhen (mem : ℕ → UInt8) (buffer size : ℕ)
    (hbuffer : buffer + 2 ^ 33 ≤ word) (hsize : size < 2 ^ 32) :
    (∃ offsets last, Walks mem buffer size offsets last) ↔
      ∀ o, Record mem buffer size o → regionSize mem (buffer + o) + 4 < 2 ^ 32 := by
  constructor
  · rintro ⟨offsets, last, h⟩ o ho
    obtain ⟨hlast, hhead, hnext⟩ := h.loop hbuffer hsize
    have hmem : o ∈ offsets := by
      induction ho with
      | first hpos =>
          cases offsets with
          | nil =>
              have hzero : last = 0 := Option.some.inj hhead
              omega
          | cons x l =>
              have hx : x = 0 := Option.some.inj hhead
              rw [hx]
              exact List.mem_cons_self
      | next _ hin ih =>
          obtain ⟨o', ho', heq, -⟩ := hnext _ ih
          rw [heq] at ho'
          rcases List.mem_append.mp ho' with hmem | hmem
          · exact hmem
          · have := List.mem_singleton.mp hmem
            omega
    obtain ⟨o', -, hplain, hwrapped⟩ := hnext o hmem
    have hlt : (regionSize mem (buffer + o) + 4) % 2 ^ 32 < 2 ^ 32 := Nat.mod_lt _ (by norm_num)
    omega
  · intro hsizes
    have hstart : Record mem buffer size 0 ∨ size ≤ 0 := by
      rcases Nat.eq_zero_or_pos size with hzero | hpos
      · exact Or.inr hzero.le
      · exact Or.inl (.first hpos)
    obtain ⟨offsets, last, hcalls, hinside, -, hchain⟩ := walks_from hbuffer hsize hsizes 0 hstart
    refine ⟨offsets, last, ⟨fun f s => ?_, hinside, ?_, hchain⟩⟩
    · unfold forEachMmregion
      rw [Nat.mod_eq_of_lt (by omega)]
      exact hcalls f s
    · exact (hchain.imp fun o o' heq => show o < o' by omega).pairwise

/-- Two records of the usual size. Source: `sys/multiboot.hpp` `MultibootMemoryRegion`. Kind: C -/
theorem forEachMmregion_exactlyWhen_two :
    ∃ offsets last, Walks (fun p => if p % 24 = 0 then 20 else 0) 0x9000 48 offsets last := by
  refine (forEachMmregion_exactlyWhen _ 0x9000 48 (by decide) (by decide)).mpr fun o _ => ?_
  have hbyte : ∀ p : ℕ, ((fun p => if p % 24 = 0 then 20 else 0 : ℕ → UInt8) p).toNat ≤ 20 := by
    intro p
    dsimp only
    split <;> decide
  generalize (fun p => if p % 24 = 0 then 20 else 0 : ℕ → UInt8) = mem at hbyte ⊢
  have h0 := hbyte (0x9000 + o)
  have h1 := hbyte (0x9000 + o + 1)
  have h2 := hbyte (0x9000 + o + 2)
  have h3 := hbyte (0x9000 + o + 3)
  unfold regionSize
  omega

/-- A record whose size is four less than `2 ^ 32`: the walk stands still.
Source: `sys/multiboot.hpp` `MultibootMemoryRegion::for_each_mmregion`
Kind: C -/
theorem forEachMmregion_not_always :
    ¬ ∀ (mem : ℕ → UInt8) (buffer size : ℕ), buffer + 2 ^ 33 ≤ word → size < 2 ^ 32 →
      ∃ offsets last, Walks mem buffer size offsets last := by
  intro hall
  obtain ⟨offsets, last, h⟩ := hall (fun p => if p % 4 = 0 then 0xFC else 0xFF) 0x9000 24 (by decide)
    (by decide)
  have hnone : ∀ fuel, mmregionLoop (fun p => if p % 4 = 0 then 0xFC else 0xFF) 0x9018
      (fun _ s => s) fuel 0x9000 () = none := by
    intro fuel
    induction fuel with
    | zero => rfl
    | succ fuel ih =>
        have hstay : nextRegion (fun p => if p % 4 = 0 then 0xFC else 0xFF) 0x9000 = 0x9000 := by
          decide +kernel
        rw [mmregionLoop, if_pos (by decide), hstay]
        exact ih
  obtain ⟨fuel, hfuel⟩ := h.calls (fun _ s => s) ()
  exact Option.some_ne_none _ (hfuel.symm.trans (hnone fuel))

end Walk

end Multiboot

end EbbRT
