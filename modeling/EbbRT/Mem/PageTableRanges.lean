import EbbRT.Mem.PageTableTiling

/-!
# Traversals of ranges in one half

In one half of the address space positions and addresses differ by an offset (`InHalf`).
`traversePageTable_tiles`: below the last 2 MB the traversal of a range of pages tiles it, with 2 MB
blocks where they lie wholly inside it and pages elsewhere.
-/

namespace EbbRT

open EbbRT.Lib EbbRT.Lib.Radix

/-! ## Ranges in one half -/

/-- The addresses from `lo` to below `up` lie in one half; `off` below them are their positions.
Source: `sys/vmem.hpp` `canonical`
Kind: D -/
structure InHalf (lo up off : ℕ) : Prop where
  lt : lo < up
  half : off = 0 ∧ up ≤ 2 ^ 47 ∨ off = 2 ^ 64 - 2 ^ 48 ∧ 2 ^ 64 - 2 ^ 47 ≤ lo ∧ up ≤ 2 ^ 64

section Half

variable {lo up off va x level : ℕ}

/-- Source: `sys/vmem.hpp` `canonical`. Kind: L -/
theorem InHalf.canonical_add (h : InHalf lo up off) (h1 : lo ≤ x + off) (h2 : x + off < up) :
    canonical x = x + off := by
  rcases h.half with ⟨rfl, h3⟩ | ⟨rfl, h3, h4⟩
  · exact canonical_eq (by omega)
  · exact canonical_upper (by omega) (by omega)

/-- The offset does not exceed the addresses. Source: `sys/vmem.hpp` `canonical`. Kind: L -/
theorem InHalf.off_le (h : InHalf lo up off) : off ≤ lo := by
  have := h.half
  omega

/-- Source: `sys/vmem.hpp` `canonical`. Kind: L -/
theorem InHalf.first_lt (h : InHalf lo up off) : lo - off < up - off := by
  have := h.lt
  have := h.off_le
  omega

/-- Source: `sys/vmem.hpp` `canonical`. Kind: L -/
theorem InHalf.stop_le (h : InHalf lo up off) : up - off ≤ 2 ^ 48 := by
  have := h.half
  omega

/-- The position of the first address. Source: `sys/vmem.hpp` `canonical`. Kind: L -/
theorem InHalf.start_eq (h : InHalf lo up off) : lo = canonical (lo - off) := by
  have := h.lt
  have hoff : lo - off + off = lo := Nat.sub_add_cancel h.off_le
  rw [h.canonical_add (x := lo - off) (by omega) (by omega), hoff]

/-- The position of the last address; the end itself may be `2 ^ 64`, which the code has as 0.
Source: `sys/vmem.hpp` `traverse_page_table`
Kind: L -/
theorem InHalf.last_eq (h : InHalf lo up off) : wsub (up % word) 1 = canonical (up - off - 1) := by
  have := h.lt
  have := h.off_le
  have hup : up ≤ word := by
    have := h.half
    unfold word
    omega
  have hoff : up - off - 1 + off = up - 1 := by omega
  rw [h.canonical_add (x := up - off - 1) (by omega) (by omega), hoff]
  unfold wsub word at *
  omega

/-- The block of an address is in the same half. Source: `sys/vmem.hpp` `canonical`. Kind: L -/
theorem InHalf.canonical_block (h : InHalf lo up off) (hlevel : level < numPageSizes)
    (h1 : lo ≤ x + off) (h2 : x + off < up) :
    canonical (blockOf level x) = blockOf level x + off := by
  have hw : pageRadix.width level = 2 ^ 12 ∨ pageRadix.width level = 2 ^ 21 := by
    unfold numPageSizes at hlevel
    obtain rfl | rfl : level = 0 ∨ level = 1 := by omega
    · exact Or.inl (pageRadix_width 0)
    · exact Or.inr (pageRadix_width 1)
  unfold blockOf
  rcases h.half with ⟨rfl, h3⟩ | ⟨rfl, h3, h4⟩
  · apply canonical_eq
    rcases hw with hw | hw <;>
      · rw [hw]
        omega
  · apply canonical_upper
    all_goals
      rcases hw with hw | hw <;>
        · rw [hw]
          omega

end Half

/-- The 2 MB block lies wholly inside the range. Source: none: infrastructure. Kind: D -/
def WholeBlock (lo up b : ℕ) : Prop := lo ≤ b ∧ b + 2 ^ 21 ≤ up

instance (lo up b : ℕ) : Decidable (WholeBlock lo up b) := inferInstanceAs (Decidable (_ ∧ _))

/-- The start of the 2 MB block of an address. Source: none: infrastructure. Kind: D -/
def block2M (va : ℕ) : ℕ := va / 2 ^ 21 * 2 ^ 21

/-- Adding the offset of a half commutes with taking the block.
Source: none: infrastructure
Kind: L -/
theorem InHalf.block2M_add {lo up off : ℕ} (h : InHalf lo up off) (x : ℕ) :
    block2M (x + off) = blockOf 1 x + off := by
  have h1 : pageRadix.width 1 = 2 ^ 21 := pageRadix_width 1
  unfold block2M blockOf
  rw [h1]
  rcases h.half with ⟨rfl, _⟩ | ⟨rfl, _⟩ <;> omega

namespace Traversal

variable {r : Traversal} {lo up off x : ℕ}

/-- The test for the 2 MB block of an address of the range, below the last 2 MB.
Source: `sys/vmem.hpp` `traverse_page_table`
Kind: L -/
theorem takes_one_iff (h : InHalf lo up off) (hs : r.virtStart = lo) (he : r.virtEnd = up)
    (hlast : up ≤ 2 ^ 64 - 2 ^ 21) (h1 : lo ≤ x + off) (h2 : x + off < up) :
    r.Takes 1 (blockOf 1 x) ↔ WholeBlock lo up (block2M (x + off)) := by
  have hw : pageRadix.width 1 = 2 ^ 21 := pageRadix_width 1
  have hle : blockOf 1 x ≤ x := Nat.div_mul_le_self _ _
  unfold Takes WholeBlock
  rw [h.canonical_block (by decide) h1 h2, h.block2M_add, hs, he, hw,
    Nat.mod_eq_of_lt (show blockOf 1 x + off + 2 ^ 21 < word by unfold word; omega)]
  exact and_iff_right (by decide)

/-- The test for the page of an address of the range. Source: `sys/vmem.hpp` `traverse_page_table`.
Kind: L -/
theorem takes_zero (h : InHalf lo up off) (hs : r.virtStart = lo) (he : r.virtEnd = up)
    (hlast : up ≤ 2 ^ 64 - 2 ^ 21) (hlo : 2 ^ 12 ∣ lo) (hup : 2 ^ 12 ∣ up) (h1 : lo ≤ x + off)
    (h2 : x + off < up) : r.Takes 0 (blockOf 0 x) := by
  have hw : pageRadix.width 0 = 2 ^ 12 := pageRadix_width 0
  have hoff : 2 ^ 12 ∣ off := by
    rcases h.half with ⟨rfl, _⟩ | ⟨rfl, _⟩
    · exact dvd_zero _
    · decide
  have hblock : lo ≤ blockOf 0 x + off ∧ blockOf 0 x + off + 2 ^ 12 ≤ up := by
    unfold blockOf
    rw [hw]
    omega
  unfold Takes
  rw [h.canonical_block (by decide) h1 h2, hs, he, hw, Nat.mod_eq_of_lt]
  · exact ⟨by decide, hblock⟩
  · unfold word
    omega

end Traversal

/-! ## Pages below the last 2 MB -/

/-- `found` returns and changes at most its entry, and that not into a pointer to another table.
Source: `sys/vmem.hpp` `traverse_page_table`
Kind: D -/
def Rewrites (found : Entry → ℕ → ℕ → Tables → Except Abort Tables) : Prop :=
  ∀ e base level t, ∃ raw, found e base level t = .ok (t.write raw e) ∧
    (raw = t.read e ∨ (pteView level raw).isTable = false)

/-- The tables are a tree, every table for one block of addresses, and the pages that are still to be
allocated are no tables of it.
Source: `sys/vmem.cpp` `page_table_root`
Kind: D -/
def IsTree (pages : ℕ → Option ℕ) (t : Tables) : Prop := ∃ own, TablesOk pages AnyLeaf own t

/-- Above the pages that the range is made of no entry is a large page: entries of the upper levels,
and those of 2 MB blocks only partly inside the range.
Source: `sys/vmem.hpp` `traverse_page_table`
Kind: D -/
def OnlyTables (virtStart virtEnd : ℕ) (t : Tables) : Prop :=
  ∀ va, virtStart ≤ va → va < virtEnd → ∀ x ∈ pageRadix.trace pteView t.mem 4 t.root va,
    (2 ≤ x.1 ∨ x.1 = 1 ∧ ¬ WholeBlock virtStart virtEnd (block2M va)) →
      (pteView x.1 x.2).isLeaf = false

/-- The calls of `found` tile the range, the last one first (`tiles`); the level is 1 where the 2 MB
block is wholly inside the range (`level`, `blocks`); and the processor's walk of `base_virt` reads
the slot, when the call is made and when the traversal has returned (`slot`).
Source: `sys/vmem.hpp` `traverse_page_table`
Kind: D -/
structure Tiled (virtStart virtEnd : ℕ) (s : Logged) : Prop where
  tiles : TilesDown Visit.baseVirt (fun v => v.baseVirt + v.size) virtStart virtEnd s.visits
  aligned : ∀ v ∈ s.visits, v.size ∣ v.baseVirt
  level : ∀ v ∈ s.visits,
    v.level = if WholeBlock virtStart virtEnd (block2M v.baseVirt) then 1 else 0
  blocks : ∀ b, 2 ^ 21 ∣ b → WholeBlock virtStart virtEnd b →
    ∃ v ∈ s.visits, v.baseVirt = b ∧ v.level = 1
  slot : ∀ v ∈ s.visits, x86Slot v.tables v.level v.baseVirt = some v.entry ∧
    x86Slot s.tables v.level v.baseVirt = some v.entry

/-- The traversal of a range in one half.
Source: `sys/vmem.hpp` `traverse_page_table`
Kind: D -/
def tilingTraversal {found : Entry → ℕ → ℕ → Tables → Except Abort Tables} {pages : ℕ → Option ℕ}
    {lo up off : ℕ} (hfound : Rewrites found) (hpages : FreshPages pages) (h : InHalf lo up off)
    (hlast : up ≤ 2 ^ 64 - 2 ^ 21) : Traversal where
  pages := pages
  callbacks := ⟨found, installTable pages⟩
  refuses _ := False
  virtStart := lo
  virtEnd := up
  first := lo - off
  stop := up - off
  fresh := hpages
  start_eq := h.start_eq
  last_eq := by
    rw [← h.last_eq, Nat.mod_eq_of_lt (show up < word by unfold word; omega)]
  first_lt := h.first_lt
  stop_le := h.stop_le
  empty_eq := rfl
  refuse _ _ _ _ _ _ _ hfalse := hfalse.elim
  accept e base level t _ _ _ _ := hfound e (canonical base) level t
  refuses_zero := id

section Tile

variable {found : Entry → ℕ → ℕ → Tables → Except Abort Tables} {pages : ℕ → Option ℕ}
  {lo up off x : ℕ} {own own' : Owner} {s s' : Logged} {new : List Visit} {hi : ℕ} {t : Tables}

/-- The traversal gets past every address of the range.
Source: `sys/vmem.hpp` `traverse_page_table`
Kind: L -/
theorem tiling_passable (hfound : Rewrites found) (hpages : FreshPages pages) (h : InHalf lo up off)
    (hlast : up ≤ 2 ^ 64 - 2 ^ 21) (hlo : 2 ^ 12 ∣ lo) (hup : 2 ^ 12 ∣ up) {level raw : ℕ}
    (h1 : lo - off ≤ x) (h2 : x < up - off) :
    (tilingTraversal hfound hpages h hlast).Passable t level raw x := by
  refine ⟨?_, fun _ _ _ hrefuse => hrefuse⟩
  unfold Traversal.foundLevel
  split
  · assumption
  · exact Traversal.takes_zero h rfl rfl hlast hlo hup (by omega) (by omega)

/-- The entries above the blocks of the range are no large pages.
Source: `sys/vmem.hpp` `traverse_page_table`
Kind: L -/
theorem tiling_descendable (hfound : Rewrites found) (hpages : FreshPages pages)
    (h : InHalf lo up off) (hlast : up ≤ 2 ^ 64 - 2 ^ 21) (htables : OnlyTables lo up t)
    (h1 : lo - off ≤ x) (h2 : x < up - off) :
    (tilingTraversal hfound hpages h hlast).Descendable t 4 t.root x := by
  intro e he habove
  apply View.isLeaf_eq_false.mp
  have hmod : x % 2 ^ 48 = (x + off) % 2 ^ 48 := by
    rcases h.half with ⟨rfl, _⟩ | ⟨rfl, _⟩ <;> omega
  rw [pageRadix.trace_congr fun k hk => digit_congr (by omega) hmod] at he
  apply htables (x + off) (by omega) (by omega) e he
  unfold Traversal.foundLevel at habove
  split at habove
  · exact Or.inl habove
  · rename_i hnot
    rw [Traversal.takes_one_iff h rfl rfl hlast (by omega) (by omega)] at hnot
    have : e.1 = 1 ∨ 2 ≤ e.1 := by omega
    exact this.elim (fun h1 => Or.inr ⟨h1, hnot⟩) Or.inl

/-- A visited block lies inside the range. Source: `sys/vmem.hpp` `traverse_page_table`. Kind: L -/
theorem Traversal.VisitOk.inside {level first last : ℕ} {ent : ℕ → Entry} {t' : Tables} {v : Visit}
    (hfound : Rewrites found) (hpages : FreshPages pages) (h : InHalf lo up off)
    (hlast : up ≤ 2 ^ 64 - 2 ^ 21) (h1 : lo - off ≤ v.pos)
    (hv : (tilingTraversal hfound hpages h hlast).VisitOk own t t' level first last ent v) :
    v.baseVirt = v.pos + off ∧ v.pos + v.size ≤ up - off := by
  have h2 : v.pos < up - off := hv.below
  have haddr := hv.addr
  rw [h.canonical_add (by omega) (by omega)] at haddr
  have htakes := hv.takes.2.2
  rw [← hv.addr, haddr, ← Traversal.size_eq] at htakes
  have hsize : v.size = 2 ^ 12 ∨ v.size = 2 ^ 21 := by
    have hlevel := hv.takes.1
    unfold numPageSizes at hlevel
    unfold Visit.size
    have : v.level = 0 ∨ v.level = 1 := by omega
    rcases this with h0 | h0
    · rw [h0]
      exact Or.inl rfl
    · rw [h0]
      exact Or.inr rfl
  have hal := hv.aligned
  rw [← Traversal.size_eq] at hal
  have htakes : (v.pos + off + v.size) % word ≤ up := htakes
  have hword : v.pos + off + v.size < word := by
    unfold word
    have := h.half
    rcases hsize with hs | hs <;>
      · rw [hs] at hal ⊢
        omega
  rw [Nat.mod_eq_of_lt hword] at htakes
  exact ⟨haddr, by omega⟩

/-- What was visited in a range of one half tiles it. Source: `sys/vmem.hpp` `traverse_page_table`.
Kind: L -/
theorem tiled_of_returned {upper : ℕ} (hfound : Rewrites found) (hpages : FreshPages pages)
    (h : InHalf lo up off) (hlast : up ≤ 2 ^ 64 - 2 ^ 21) (hupper : up - off ≤ upper)
    (hs : s.visits = [])
    (hret : (tilingTraversal hfound hpages h hlast).Returned own own' s s' 4 0 upper
      (fun _ => .root) new hi) : Tiled lo up s' := by
  have hvisits : s'.visits = new := by
    rw [hret.visits, hs, List.append_nil]
  have hoff : lo - off + off = lo ∧ up - off + off = up ∧ lo - off < up - off := by
    have := h.lt
    have := h.half
    omega
  have hcovers : up - off ≤ hi := (le_min le_rfl hupper).trans hret.covers
  have htiles : TilesDown Visit.pos (fun v => v.pos + v.size) (lo - off) hi new := by
    have := hret.tiles
    rw [Nat.max_zero] at this
    exact this
  have hbelow : ∀ v ∈ new, lo - off ≤ v.pos := fun v hv => (htiles.bounds hv).1
  have hinside := fun v hv => (hret.visit v hv).inside hfound hpages h hlast (hbelow v hv)
  -- the last visit ends the tiling, and it lies inside the range
  have htop : hi = up - off := by
    cases new with
    | nil =>
        have : lo - off = hi := htiles
        omega
    | cons v l =>
        have hend : v.pos + v.size = hi := htiles.1
        have := (hinside v List.mem_cons_self).2
        omega
  rw [htop] at htiles
  have htiled : TilesDown Visit.baseVirt (fun v => v.baseVirt + v.size) lo up new := by
    have := htiles.map (f := (· + off)) (fun _ _ hlt => Nat.add_lt_add_right hlt off)
      (fun v hv => (hinside v hv).1)
      (fun v hv => show v.baseVirt + v.size = v.pos + v.size + off by rw [(hinside v hv).1]; omega)
    rw [hoff.1, hoff.2.1] at this
    exact this
  have hsize : ∀ v ∈ new, v.size ∣ 2 ^ 21 := by
    intro v hv
    have hlevel : v.level < 2 := (hret.visit v hv).takes.1
    exact Nat.pow_dvd_pow 2 (by omega)
  have haligned : ∀ v ∈ new, v.size ∣ v.baseVirt := by
    intro v hv
    have hlarge : 2 ^ 21 ∣ off := by
      rcases h.half with ⟨rfl, _⟩ | ⟨rfl, _⟩
      · exact dvd_zero _
      · decide
    have hal := (hret.visit v hv).aligned
    rw [← Traversal.size_eq] at hal
    rw [(hinside v hv).1]
    exact dvd_add hal ((hsize v hv).trans hlarge)
  have hlevel : ∀ v ∈ new, v.level = if WholeBlock lo up (block2M v.baseVirt) then 1 else 0 := by
    intro v hv
    have hin := hinside v hv
    have hpos := hbelow v hv
    have hbelow : v.pos < up - off := (hret.visit v hv).below
    have hiff := Traversal.takes_one_iff (r := tilingTraversal hfound hpages h hlast) h rfl rfl hlast
      (show lo ≤ v.pos + off by omega) (show v.pos + off < up by omega)
    rw [(hret.visit v hv).level_eq, hin.1]
    unfold Traversal.foundLevel
    simp only [hiff]
  refine ⟨?_, ?_, ?_, ?_, ?_⟩
  · rw [hvisits]
    exact htiled
  · rw [hvisits]
    exact haligned
  · rw [hvisits]
    exact hlevel
  · intro b hb hwhole
    obtain ⟨v, hv, h1, h2⟩ := htiled.exists_mem hwhole.1 (lt_of_lt_of_le (by omega) hwhole.2)
    rw [hvisits]
    have hl := hlevel v hv
    have hal := haligned v hv
    have hdvd := hsize v hv
    -- the block starts at the tile it is in, whatever the size of the tile
    have hbase : v.baseVirt = b := by
      have := Nat.eq_zero_of_dvd_of_lt (Nat.dvd_sub (hdvd.trans hb) hal)
        (Nat.sub_lt_left_of_lt_add h1 h2)
      omega
    rw [hbase] at hl
    have hblock : block2M b = b := Nat.div_mul_cancel hb
    rw [hblock, if_pos hwhole] at hl
    exact ⟨v, hv, hbase, hl⟩
  · rw [hvisits]
    intro v hv
    have hv' := hret.visit v hv
    have hlevel : v.level < 2 := hv'.takes.1
    have hmod : v.baseVirt % 2 ^ 48 = v.pos % 2 ^ 48 := (Nat.mod_mod _ _).symm
    have hslot : ∀ t : Tables, slotFrom t v.level v.pos 4 .root = some v.entry →
        x86Slot t v.level v.baseVirt = some v.entry := by
      intro t ht
      obtain ⟨pt, hpt, _⟩ := slotFrom_some (show v.level ≤ 3 by omega) ht
      rw [x86Slot_eq (by omega) hpt,
        slotFrom_congr (by omega) fun j _ hj => digit_congr (by omega) hmod]
      exact ht
    exact ⟨hslot _ hv'.reaches, hslot _ hv'.reached⟩

/-- **The traversal tiles the range.** In every tree in which the entries above the pages of the range
are no large pages, for every range of pages in one half and below the last 2 MB: the traversal
returns, unless the pages for its tables run out, and its calls of `found` tile the range.
Source: `sys/vmem.hpp` `traverse_page_table`
Kind: C
Hyps: `hfound`: the callback writes the entry it is called for; `htables`: no large page above the range;
`halloc`: `Alloc` has the pages that are asked for -/
theorem traversePageTable_tiles (found : Entry → ℕ → ℕ → Tables → Except Abort Tables)
    (pages : ℕ → Option ℕ) (t : Tables) (virtStart virtEnd : ℕ) (hfound : Rewrites found)
    (hpages : FreshPages pages) (htree : IsTree pages t) (hs : pageSize ∣ virtStart)
    (he : pageSize ∣ virtEnd) (hlt : virtStart < virtEnd)
    (hhalf : virtEnd ≤ 2 ^ 47 ∨ 2 ^ 64 - 2 ^ 47 ≤ virtStart) (hlast : virtEnd ≤ 2 ^ 64 - 2 ^ 21)
    (htables : OnlyTables virtStart virtEnd t)
    (halloc : traversePageTable ⟨found, installTable pages⟩ virtStart virtEnd 4 .root 0 t
      ≠ .error .noPage) :
    ∃ s, traverseLogged ⟨found, installTable pages⟩ virtStart virtEnd 4 .root 0 ⟨t, []⟩ = .ok s ∧
      traversePageTable ⟨found, installTable pages⟩ virtStart virtEnd 4 .root 0 t = .ok s.tables ∧
      Tiled virtStart virtEnd s := by
  obtain ⟨own, hok⟩ := htree
  obtain ⟨off, h⟩ : ∃ off, InHalf virtStart virtEnd off := by
    rcases hhalf with hhalf | hhalf
    · exact ⟨0, hlt, Or.inl ⟨rfl, hhalf⟩⟩
    · exact ⟨_, hlt, Or.inr ⟨rfl, hhalf, by omega⟩⟩
  have hpassable : ∀ x, virtStart - off ≤ x → x < virtEnd - off →
      (tilingTraversal hfound hpages h hlast).Passable t 4 t.root x :=
    fun x h1 h2 => tiling_passable hfound hpages h hlast hs he h1 h2
  have hvisited : (tilingTraversal hfound hpages h hlast).Visited own ⟨t, []⟩ 4 0 (2 ^ 48)
      (fun _ => .root)
      (traverseLogged ⟨found, installTable pages⟩ virtStart virtEnd 4 .root 0 ⟨t, []⟩) :=
    Traversal.root_visited hok
      (fun x h1 h2 => tiling_descendable hfound hpages h hlast htables h1 h2)
  have htables := traverseLogged_tables ⟨found, installTable pages⟩ virtStart virtEnd 4 .root 0 ⟨t, []⟩
  cases hres : traverseLogged ⟨found, installTable pages⟩ virtStart virtEnd 4 .root 0 ⟨t, []⟩ with
  | error a =>
      rw [hres] at hvisited htables
      obtain rfl | ⟨x, _, hx, hnot⟩ := hvisited
      · exact (halloc htables.symm).elim
      · exact (hnot (hpassable x hx.1 hx.2)).elim
  | ok s =>
      rw [hres] at hvisited htables
      obtain ⟨_, own', new, hi, hret⟩ := hvisited
      exact ⟨s, rfl, htables.symm, tiled_of_returned hfound hpages h hlast
        (tilingTraversal hfound hpages h hlast).stop_le rfl hret⟩

end Tile

/-- From an empty root: the last page below a 2 MB block, the block, and the page above it, with a
`found` that clears its entry.
Source: `sys/vmem.hpp` `traverse_page_table`
Kind: C -/
theorem traversePageTable_tiles_around :
    ∃ s, traverseLogged ⟨fun e _ _ t => .ok (t.write 0 e), installTable firstPages⟩ 0x1ff000 0x401000
        4 .root 0 ⟨⟨0, fun _ _ => 0, 0, []⟩, []⟩ = .ok s ∧
      traversePageTable ⟨fun e _ _ t => .ok (t.write 0 e), installTable firstPages⟩ 0x1ff000 0x401000
        4 .root 0 ⟨0, fun _ _ => 0, 0, []⟩ = .ok s.tables ∧
      Tiled 0x1ff000 0x401000 s := by
  have hzero : ∀ level, (pteView level 0).isTable = false := by
    intro level
    rw [pteView_zero]
    rfl
  refine traversePageTable_tiles _ firstPages ⟨0, fun _ _ => 0, 0, []⟩ _ _
    (fun e _ level t => ⟨0, rfl, Or.inr (hzero level)⟩) freshPages_firstPages
    ⟨fun _ => none, ⟨?_, ?_⟩, ?_, fun _ _ _ _ => rfl⟩ (by decide) (by decide) (by decide)
    (Or.inl (by decide)) (by decide) ?_ ?_
  · intro p k b h
    cases h
  · intro p k b h
    cases h
  · show EntryOk _ AnyLeaf 4 0 (pteView 4 0)
    rw [pteView_zero]
    trivial
  · intro va _ _ x hx _
    rw [pageRadix.trace_end (pteView_zero_ne_table 4)] at hx
    rw [List.mem_singleton.mp hx, pteView_zero]
    rfl
  · intro h
    have hstop : stopOf (traversePageTable
        ⟨fun e _ _ t => .ok (t.write 0 e), installTable firstPages⟩ 0x1ff000 0x401000 4 .root 0
        ⟨0, fun _ _ => 0, 0, []⟩) = none := by
      decide +kernel
    rw [h] at hstop
    cases hstop

end EbbRT
