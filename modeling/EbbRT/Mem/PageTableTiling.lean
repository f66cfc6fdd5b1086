import EbbRT.Mem.PageTableVisits

/-!
# What a traversal visits

`Traversal.traverseLogged_visited`: in a tree of tables the traversal returns exactly if every address
of the range is `Passable`, and then the visited blocks tile the range, `found` was called for the
slots that the processor's walk reads, and what it wrote is still there. The induction is on the
level; inside it `Traversal.forSlotsLogged_visited` runs over the slots.
-/

namespace EbbRT

open EbbRT.Lib EbbRT.Lib.Radix

/-! ## Calls -/

/-- Any entry may stand for a block. Source: none: infrastructure. Kind: D -/
def AnyLeaf (_level _base _raw : ℕ) : Prop := True

/-- The start of the block at `level` with the address. Source: none: infrastructure. Kind: D -/
def blockOf (level va : ℕ) : ℕ := va / pageRadix.width level * pageRadix.width level

/-- A call for the positions from `first` to below `stop`: `found` rewrites its entry unless it
refuses to, `empty` installs tables.
Source: `sys/vmem.hpp` `traverse_page_table`
Kind: D -/
structure Traversal where
  /-- The pages that `empty` is given, in order. -/
  pages : ℕ → Option ℕ
  /-- `found` and `empty`. -/
  callbacks : Callbacks
  /-- The entries for which `found` does not return. -/
  refuses : ℕ → Prop
  /-- `virt_start`. -/
  virtStart : ℕ
  /-- `virt_end`. -/
  virtEnd : ℕ
  /-- The position of `virt_start`. -/
  first : ℕ
  /-- One more than the position of the last address. -/
  stop : ℕ
  fresh : FreshPages pages
  start_eq : virtStart = canonical first
  last_eq : wsub virtEnd 1 = canonical (stop - 1)
  first_lt : first < stop
  stop_le : stop ≤ 2 ^ 48
  empty_eq : callbacks.empty = installTable pages
  refuse : ∀ e base level t, level < numPageSizes → pageRadix.width level ∣ base → base < 2 ^ 48 →
    refuses (t.read e) → ∃ a, callbacks.found e (canonical base) level t = .error a
  accept : ∀ e base level t, level < numPageSizes → pageRadix.width level ∣ base → base < 2 ^ 48 →
    ¬ refuses (t.read e) →
    ∃ raw, callbacks.found e (canonical base) level t = .ok (t.write raw e) ∧
      (raw = t.read e ∨ (pteView level raw).isTable = false)
  refuses_zero : ¬ refuses 0

namespace Traversal

variable (r : Traversal)

/-- The test of the loop for the block at `level` with the position `base`.
Source: `sys/vmem.hpp` `traverse_page_table`
Kind: D -/
def Takes (level base : ℕ) : Prop :=
  level < numPageSizes ∧ r.virtStart ≤ canonical base ∧
    (canonical base + pageRadix.width level) % word ≤ r.virtEnd

instance (level base : ℕ) : Decidable (r.Takes level base) := inferInstanceAs (Decidable (_ ∧ _ ∧ _))

/-- The level of the block that the address is found with.
Source: `sys/vmem.hpp` `traverse_page_table`
Kind: D -/
def foundLevel (va : ℕ) : ℕ := if r.Takes 1 (blockOf 1 va) then 1 else 0

/-- The traversal gets past the address: it is in a block that passes the test, and `found` returns
for the entry of the block.
Source: `sys/vmem.hpp` `traverse_page_table`
Kind: D -/
structure Passable (t : Tables) (level raw va : ℕ) : Prop where
  taken : r.Takes (r.foundLevel va) (blockOf (r.foundLevel va) va)
  accepted : ∀ x ∈ pageRadix.trace pteView t.mem level raw va, x.1 = r.foundLevel va →
    ¬ r.refuses x.2

/-- The entries above the block of the address are no large pages.
Source: `sys/vmem.hpp` `traverse_page_table`
Kind: D -/
def Descendable (t : Tables) (level raw va : ℕ) : Prop :=
  ∀ x ∈ pageRadix.trace pteView t.mem level raw va, r.foundLevel va < x.1 →
    ∀ a, pteView x.1 x.2 ≠ .leaf a

/-- A visit, from tables `t` to tables `t'`, of a block in `[lo, up)` whose entry at `level` is
`ent`: the block passes the test, `found` was called for the slot that the walk reads, and the slot
holds what `found` wrote.
Source: `sys/vmem.hpp` `traverse_page_table`
Kind: D -/
structure VisitOk (own : Owner) (t t' : Tables) (level lo up : ℕ) (ent : ℕ → Entry) (v : Visit) :
    Prop where
  addr : v.baseVirt = canonical v.pos
  aligned : pageRadix.width v.level ∣ v.pos
  level_eq : v.level = r.foundLevel v.pos
  below : v.pos < r.stop
  takes : r.Takes v.level v.pos
  before : ∃ ownv, Effect r.pages AnyLeaf own ownv t v.tables level lo up
  reaches : slotFrom v.tables v.level v.pos level (ent v.pos) = some v.entry
  found : r.callbacks.found v.entry v.baseVirt v.level v.tables
    = .ok (v.tables.write (t'.read v.entry) v.entry)
  reached : slotFrom t' v.level v.pos level (ent v.pos) = some v.entry

/-- What has happened when a part of the traversal for `[lo, up)` returned: the new visits tile the
part of the range down to `lo`, and outside them every address is resolved as before.
Source: `sys/vmem.hpp` `traverse_page_table`
Kind: D -/
structure Returned (own own' : Owner) (s s' : Logged) (level lo up : ℕ) (ent : ℕ → Entry)
    (new : List Visit) (hi : ℕ) : Prop where
  effect : Effect r.pages AnyLeaf own own' s.tables s'.tables level lo up
  visits : s'.visits = new ++ s.visits
  tiles : TilesDown Visit.pos (fun v => v.pos + v.size) (max r.first lo) hi new
  covers : min r.stop up ≤ hi
  le : hi ≤ up
  visit : ∀ v ∈ new, r.VisitOk own s.tables s'.tables level lo up ent v
  same : ∀ va, lo ≤ va → va < up → va < max r.first lo ∨ hi ≤ va →
    pageRadix.walk pteView s'.tables.mem level (s'.tables.read (ent va)) va
      = pageRadix.walk pteView s.tables.mem level (s.tables.read (ent va)) va
  root : Pte.present s.tables.root = true → s'.tables.root = s.tables.root

/-- How a part of the traversal for `[lo, up)` ends. If it does not return, then for lack of a page
or at an address that is not passable.
Source: `sys/vmem.hpp` `traverse_page_table`
Kind: D -/
def Visited (own : Owner) (s : Logged) (level lo up : ℕ) (ent : ℕ → Entry) :
    Except Abort Logged → Prop
  | .error a => a = .noPage ∨ ∃ va, (lo ≤ va ∧ va < up) ∧ (r.first ≤ va ∧ va < r.stop) ∧
      ¬ r.Passable s.tables level (s.tables.read (ent va)) va
  | .ok s' => (∀ va, lo ≤ va → va < up → r.first ≤ va → va < r.stop →
      r.Passable s.tables level (s.tables.read (ent va)) va) ∧
      ∃ own' new hi, r.Returned own own' s s' level lo up ent new hi

/-- What is promised of a call for the entry `e` of the block at `level` that starts at `base`.
Source: none: infrastructure
Kind: D -/
def CallSpec (level base : ℕ) (e : Entry) (call : Logged → Except Abort Logged) : Prop :=
  ∀ own s, TablesOk r.pages AnyLeaf own s.tables → Located own level base e →
    r.first < base + pageRadix.width level → base < r.stop →
    base + pageRadix.width level ≤ 2 ^ 48 → (level = 0 → ¬ r.Takes 1 (blockOf 1 base)) →
    (∀ va, pageRadix.InBlock level base va → r.first ≤ va → va < r.stop →
      r.Descendable s.tables level (s.tables.read e) va) →
    r.Visited own s level base (base + pageRadix.width level) (fun _ => e) (call s)

variable {r} {own own' own1 own2 : Owner} {s s' s1 s2 : Logged} {t t' : Tables}
  {t1 : Tables} {level k base lo mid up hi va pt idx b raw : ℕ} {e : Entry} {ent ent' : ℕ → Entry}
  {new new1 new2 : List Visit} {v : Visit}

/-! ## Blocks -/

/-- Source: none: infrastructure. Kind: L -/
theorem blockOf_eq (hal : pageRadix.width level ∣ base) (hin : pageRadix.InBlock level base va) :
    blockOf level va = base :=
  pageRadix.base_eq hal hin

/-- The 2 MB block of an address is that of its page. Source: none: infrastructure. Kind: L -/
theorem blockOf_one (hal : pageRadix.width 0 ∣ base) (hin : pageRadix.InBlock 0 base va) :
    blockOf 1 va = blockOf 1 base := by
  have h0 : pageRadix.width 0 = 2 ^ 12 := pageRadix_width 0
  have h1 : pageRadix.width 1 = 2 ^ 21 := pageRadix_width 1
  unfold InBlock at hin
  unfold blockOf
  rw [h0] at hal hin
  rw [h1]
  omega

/-- A block that is found has the level its addresses are found with.
Source: `sys/vmem.hpp` `traverse_page_table`
Kind: L -/
theorem foundLevel_of_takes (hal : pageRadix.width level ∣ base)
    (h0 : level = 0 → ¬ r.Takes 1 (blockOf 1 base)) (htakes : r.Takes level base)
    (hin : pageRadix.InBlock level base va) : r.foundLevel va = level := by
  have hlevel := htakes.1
  unfold numPageSizes at hlevel
  unfold foundLevel
  obtain rfl | rfl : level = 0 ∨ level = 1 := by omega
  · rw [blockOf_one hal hin, if_neg (h0 rfl)]
  · rw [blockOf_eq hal hin, if_pos htakes]

/-- A block that is not found has addresses that are found below it, if they are.
Source: `sys/vmem.hpp` `traverse_page_table`
Kind: L -/
theorem foundLevel_of_not_takes (hal : pageRadix.width level ∣ base)
    (h0 : level = 0 → ¬ r.Takes 1 (blockOf 1 base)) (htakes : ¬ r.Takes level base)
    (hin : pageRadix.InBlock level base va) :
    r.foundLevel va < level ∨ level = 0 ∧ r.foundLevel va = 0 := by
  unfold foundLevel
  obtain rfl | rfl | h2 : level = 0 ∨ level = 1 ∨ 2 ≤ level := by omega
  · rw [blockOf_one hal hin, if_neg (h0 rfl)]
    exact Or.inr ⟨rfl, rfl⟩
  · rw [blockOf_eq hal hin, if_neg htakes]
    exact Or.inl Nat.zero_lt_one
  · left
    split <;> omega

/-- In a block the range overlaps, an address of both. Source: none: infrastructure. Kind: L -/
theorem overlap (h1 : r.first < base + pageRadix.width level) (h2 : base < r.stop) :
    pageRadix.InBlock level base (max r.first base) ∧ r.first ≤ max r.first base ∧
      max r.first base < r.stop :=
  exists_overlap r.first_lt h1 h2

/-- A block that is found does not start before the range.
Source: `sys/vmem.hpp` `traverse_page_table`
Kind: L -/
theorem Takes.first_le (h : r.Takes level base) (hb : base < 2 ^ 48) : r.first ≤ base := by
  have h1 := h.2.1
  have := r.first_lt
  have := r.stop_le
  rw [r.start_eq] at h1
  exact (canonical_le_iff (by omega) hb).mp h1

/-! ## A block that is found -/

/-- Source: none: infrastructure. Kind: L -/
theorem size_eq (v : Visit) : v.size = pageRadix.width v.level := (pageRadix_width v.level).symm

/-- What `found` writes fits where it is written. Source: none: infrastructure. Kind: L -/
theorem entryOk_rewritten (hok : TablesOk r.pages AnyLeaf own t) (hloc : Located own level base e)
    (hraw : raw = t.read e ∨ (pteView level raw).isTable = false) :
    EntryOk own AnyLeaf level base (pteView level raw) := by
  rcases hraw with rfl | hraw
  · exact hok.located hloc
  · cases hv : pteView level raw with
    | absent => trivial
    | leaf a => trivial
    | table pt =>
        rw [hv] at hraw
        cases hraw

/-- **One call of `found`.** Source: `sys/vmem.hpp` `traverse_page_table`. Kind: P -/
theorem found_visited (htakes : r.Takes level base) :
    r.CallSpec level base e (foundLogged r.callbacks e (canonical base) level) := by
  intro own s hok hloc h1 h2 hb h0 _
  have hal := hok.aligned hloc
  have hw := pageRadix.width_pos level
  have hlt : base < 2 ^ 48 := by omega
  have hfirst := htakes.first_le hlt
  have hfound := fun va (hva : pageRadix.InBlock level base va) =>
    foundLevel_of_takes hal h0 htakes hva
  unfold foundLogged
  by_cases href : r.refuses (s.tables.read e)
  · obtain ⟨a, ha⟩ := r.refuse e base level s.tables htakes.1 hal hlt href
    rw [ha]
    obtain ⟨hin, hlo, hup⟩ := overlap h1 h2
    refine Or.inr ⟨max r.first base, hin, ⟨hlo, hup⟩, fun hpass => ?_⟩
    exact hpass.accepted (level, s.tables.read e) pageRadix.mem_trace_self (hfound _ hin).symm href
  · obtain ⟨raw, hraw, hfit⟩ := r.accept e base level s.tables htakes.1 hal hlt href
    rw [hraw]
    refine ⟨fun va hlo hup _ _ => ⟨?_, ?_⟩, own, [⟨e, canonical base, level, s.tables⟩],
      base + pageRadix.width level, ?_⟩
    · rw [hfound va ⟨hlo, hup⟩, blockOf_eq hal ⟨hlo, hup⟩]
      exact htakes
    · intro x hx hlevel
      rw [hfound va ⟨hlo, hup⟩] at hlevel
      rw [pageRadix.mem_trace_top hx hlevel]
      exact href
    · have hpos : Visit.pos ⟨e, canonical base, level, s.tables⟩ = base := canonical_mod hlt
      have hwrite := Effect.write hok hloc (entryOk_rewritten hok hloc hfit)
      have hlevel : level < 2 := htakes.1
      refine ⟨hwrite, rfl, ?_, min_le_right _ _, le_rfl, ?_, fun va h3 h4 h5 => by omega,
        fun _ => hwrite.root (by omega)⟩
      · simp only [TilesDown]
        rw [size_eq, hpos, max_eq_right hfirst]
        exact ⟨rfl, Nat.lt_add_of_pos_right hw, rfl⟩
      · intro v hv
        obtain rfl := List.mem_singleton.mp hv
        have hin : pageRadix.InBlock level base base := ⟨le_rfl, by omega⟩
        constructor
        · rw [hpos]
        · rw [hpos]
          exact hal
        · rw [hpos, hfound base hin]
        · rw [hpos]
          exact h2
        · rw [hpos]
          exact htakes
        · exact ⟨own, Effect.refl hok⟩
        · exact slotFrom_self
        · rw [read_write]
          exact hraw
        · exact slotFrom_self

/-! ## One part after another -/

/-- The entries of the addresses in `[lo, up)` are located where they should be.
Source: none: infrastructure
Kind: D -/
def Rooted (own : Owner) (level lo up : ℕ) (ent : ℕ → Entry) : Prop :=
  ∀ va, lo ≤ va → va < up →
    ∃ base, Located own level base (ent va) ∧ pageRadix.InBlock level base va

/-- Outside the changes the entries are as before. Source: none: infrastructure. Kind: L -/
theorem read_frame (heff : Effect r.pages AnyLeaf own own' t t' level lo mid)
    (hloc : Located own level base e) (hin : pageRadix.InBlock level base va) (hlevel : level < 4)
    (hout : va < lo ∨ mid ≤ va) : t'.read e = t.read e := by
  apply heff.read_eq hloc _ (fun _ => hlevel)
  have := hin.1
  have := hin.2
  omega

/-- Outside the changes the walks are as before. Source: none: infrastructure. Kind: L -/
theorem trace_frame_of (hok : TablesOk r.pages AnyLeaf own t)
    (heff : Effect r.pages AnyLeaf own own' t t' level lo mid) (hloc : Located own level base e)
    (hin : pageRadix.InBlock level base va) (hlevel : level < 4) (hout : va < lo ∨ mid ≤ va) :
    pageRadix.trace pteView t'.mem level (t'.read e) va
      = pageRadix.trace pteView t.mem level (t.read e) va := by
  rw [read_frame heff hloc hin hlevel hout]
  exact trace_frame _ hok.wf heff.owned heff.changes hout (hok.located hloc) hin

/-- Outside the changes addresses are resolved as before. Source: none: infrastructure. Kind: L -/
theorem walk_frame_of (hok : TablesOk r.pages AnyLeaf own t)
    (heff : Effect r.pages AnyLeaf own own' t t' level lo mid) (hloc : Located own level base e)
    (hin : pageRadix.InBlock level base va) (hlevel : level < 4) (hout : va < lo ∨ mid ≤ va) :
    pageRadix.walk pteView t'.mem level (t'.read e) va
      = pageRadix.walk pteView t.mem level (t.read e) va := by
  rw [read_frame heff hloc hin hlevel hout]
  exact walk_frame _ hok.wf heff.owned heff.changes hout (hok.located hloc) hin

/-- A slot below the root is not the root. Source: none: infrastructure. Kind: L -/
theorem ne_root_of_located (hloc : Located own level base e) (hlevel : level < 4) : e ≠ .root := by
  rintro rfl
  have := hloc.1
  omega

/-- A visit is for a block of the part it was made in. Source: none: infrastructure. Kind: L -/
theorem Returned.bounds (h : r.Returned own own' s s' level lo up ent new hi) (hv : v ∈ new) :
    lo ≤ v.pos ∧ v.pos + pageRadix.width v.level ≤ hi := by
  have hb := h.tiles.bounds hv
  rw [size_eq] at hb
  have := le_max_right r.first lo
  omega

/-- What an earlier visit left is still there after changes further up.
Source: `sys/vmem.hpp` `traverse_page_table`
Kind: L -/
theorem VisitOk.frame (hlevel : level < 4) (hok : TablesOk r.pages AnyLeaf own1 s1.tables)
    (heff : Effect r.pages AnyLeaf own1 own2 s1.tables s2.tables level mid up) (hmid : mid ≤ up)
    (hroot : Rooted own1 level lo mid ent) (hlo : lo ≤ v.pos)
    (hup : v.pos + pageRadix.width v.level ≤ mid)
    (h : r.VisitOk own s.tables s1.tables level lo mid ent v) :
    r.VisitOk own s.tables s2.tables level lo up ent v := by
  have hw := pageRadix.width_pos v.level
  obtain ⟨base, hloc, hin⟩ := hroot v.pos hlo (by omega)
  have hentry := slotFrom_located hok hloc hin h.reached
  have hpos : v.pos / pageRadix.width v.level * pageRadix.width v.level = v.pos :=
    Nat.div_mul_cancel h.aligned
  rw [hpos] at hentry
  have hv : v.level < 2 := h.takes.1
  have hread : s2.tables.read v.entry = s1.tables.read v.entry := by
    apply heff.read_eq hentry (Or.inr (Or.inl (by omega)))
    exact fun heq => (ne_root_of_located hentry (by omega) heq).elim
  obtain ⟨ownv, hbefore⟩ := h.before
  refine { h with before := ⟨ownv, hbefore.mono le_rfl le_rfl hmid⟩, found := ?_, reached := ?_ }
  · rw [hread]
    exact h.found
  · rw [slotFrom_frame hok heff hloc hin (Or.inl (by omega))
      (read_frame heff hloc hin hlevel (Or.inl (by omega)))]
    exact h.reached

/-- A visit of a later part is one of the whole. Source: none: infrastructure. Kind: L -/
theorem VisitOk.after (heff : Effect r.pages AnyLeaf own own1 s.tables s1.tables level lo mid)
    (hmid : mid ≤ up) (hlo : lo ≤ mid) (h : r.VisitOk own1 s1.tables s2.tables level mid up ent v) :
    r.VisitOk own s.tables s2.tables level lo up ent v := by
  obtain ⟨ownv, hbefore⟩ := h.before
  exact { h with
    before := ⟨ownv, (heff.mono le_rfl le_rfl hmid).trans (hbefore.mono le_rfl hlo le_rfl)⟩ }

/-- **One part after another.** Source: `sys/vmem.hpp` `traverse_page_table`. Kind: P -/
theorem Returned.trans (hlevel : level < 4) (hok : TablesOk r.pages AnyLeaf own s.tables)
    (hroot : Rooted own level lo up ent) (hlo : lo ≤ mid) (hup : mid ≤ up) (hfirst : r.first ≤ mid)
    (hstop : mid ≤ r.stop) (h1 : r.Returned own own1 s s1 level lo mid ent new1 mid)
    (h2 : r.Returned own1 own2 s1 s2 level mid up ent new2 hi) :
    r.Returned own own2 s s2 level lo up ent (new2 ++ new1) hi := by
  have hmid : mid ≤ hi := (le_min hstop hup).trans h2.covers
  have hroot1 : Rooted own1 level lo up ent := by
    intro va h3 h4
    obtain ⟨base, hloc, hin⟩ := hroot va h3 h4
    exact ⟨base, hloc.mono h1.effect.owned, hin⟩
  constructor
  · exact (h1.effect.mono le_rfl le_rfl hup).trans (h2.effect.mono le_rfl hlo le_rfl)
  · rw [h2.visits, h1.visits, List.append_assoc]
  · apply tilesDown_append.mpr
    have := h2.tiles
    rw [max_eq_right hfirst] at this
    exact ⟨mid, this, h1.tiles⟩
  · exact h2.covers
  · exact h2.le
  · intro v hv
    rcases List.mem_append.mp hv with hv | hv
    · exact (h2.visit v hv).after h1.effect hup hlo
    · have hb := h1.bounds hv
      exact (h1.visit v hv).frame hlevel h1.effect.ok h2.effect hup
        (fun va h3 h4 => hroot1 va h3 (h4.trans_le hup)) hb.1 hb.2
  · intro va h3 h4 h5
    obtain ⟨base, hloc, hin⟩ := hroot va h3 h4
    obtain ⟨base1, hloc1, hin1⟩ := hroot1 va h3 h4
    rcases Nat.lt_or_ge va mid with hva | hva
    · rw [walk_frame_of h1.effect.ok h2.effect hloc1 hin1 hlevel (Or.inl hva)]
      exact h1.same va h3 hva (by omega)
    · rw [h2.same va hva h4 (by omega)]
      exact walk_frame_of hok h1.effect hloc hin hlevel (Or.inr hva)
  · exact fun _ => (h2.effect.root hlevel).trans (h1.effect.root hlevel)

/-- Only the entries of the addresses in the part count. Source: none: infrastructure. Kind: L -/
theorem Returned.congr (hent : ∀ va, lo ≤ va → va < up → ent va = ent' va)
    (h : r.Returned own own' s s' level lo up ent new hi) :
    r.Returned own own' s s' level lo up ent' new hi := by
  refine { h with visit := fun v hv => ?_, same := fun va h1 h2 h3 => ?_ }
  · have hb := h.bounds hv
    have hv := h.visit v hv
    have := pageRadix.width_pos v.level
    have := h.le
    have hpos := hent v.pos hb.1 (by omega)
    refine { hv with reaches := ?_, reached := ?_ }
    · rw [← hpos]
      exact hv.reaches
    · rw [← hpos]
      exact hv.reached
  · rw [← hent va h1 h2]
    exact h.same va h1 h2 h3

/-- Where the walks are the same, the same addresses are passable.
Source: none: infrastructure
Kind: L -/
theorem Passable.congr {raw' : ℕ} (h : pageRadix.trace pteView t'.mem level raw' va
    = pageRadix.trace pteView t.mem level raw va) :
    r.Passable t' level raw' va ↔ r.Passable t level raw va := by
  constructor
  · exact fun hp => ⟨hp.taken, by rw [← h]; exact hp.accepted⟩
  · exact fun hp => ⟨hp.taken, by rw [h]; exact hp.accepted⟩

/-- Source: none: infrastructure. Kind: L -/
theorem Descendable.congr {raw' : ℕ} (h : pageRadix.trace pteView t'.mem level raw' va
    = pageRadix.trace pteView t.mem level raw va) :
    r.Descendable t' level raw' va ↔ r.Descendable t level raw va := by
  unfold Descendable
  rw [h]

/-! ## The loop and the recursion -/

/-- Only the entries of the addresses in the part count. Source: none: infrastructure. Kind: L -/
theorem Visited.congr {res : Except Abort Logged}
    (hent : ∀ va, lo ≤ va → va < up → ent va = ent' va)
    (h : r.Visited own s level lo up ent res) : r.Visited own s level lo up ent' res := by
  cases res with
  | error a =>
      refine h.imp_right ?_
      rintro ⟨va, hin, hrange, hnot⟩
      refine ⟨va, hin, hrange, ?_⟩
      rw [← hent va hin.1 hin.2]
      exact hnot
  | ok s' =>
      obtain ⟨hpass, own', new, hi, hret⟩ := h
      refine ⟨fun va h1 h2 h3 h4 => ?_, own', new, hi, hret.congr hent⟩
      rw [← hent va h1 h2]
      exact hpass va h1 h2 h3 h4

/-- The part of the range above `mid` is as before the part below was traversed.
Source: none: infrastructure
Kind: L -/
theorem Visited.trans {res : Except Abort Logged} (h2 : r.Visited own1 s1 level mid up ent res)
    (hlevel : level < 4) (hok : TablesOk r.pages AnyLeaf own s.tables)
    (hroot : Rooted own level lo up ent) (hlo : lo ≤ mid) (hup : mid ≤ up) (hfirst : r.first ≤ mid)
    (hstop : mid ≤ r.stop)
    (hpass : ∀ va, lo ≤ va → va < mid → r.first ≤ va → va < r.stop →
      r.Passable s.tables level (s.tables.read (ent va)) va)
    (h1 : r.Returned own own1 s s1 level lo mid ent new1 mid) :
    r.Visited own s level lo up ent res := by
  have hsame : ∀ va, mid ≤ va → va < up →
      (r.Passable s1.tables level (s1.tables.read (ent va)) va ↔
        r.Passable s.tables level (s.tables.read (ent va)) va) := by
    intro va h3 h4
    obtain ⟨base, hloc, hin⟩ := hroot va (hlo.trans h3) h4
    exact Passable.congr (trace_frame_of hok h1.effect hloc hin hlevel (Or.inr h3))
  cases res with
  | error a =>
      refine h2.imp_right ?_
      rintro ⟨va, ⟨h3, h4⟩, hrange, hnot⟩
      exact ⟨va, ⟨hlo.trans h3, h4⟩, hrange, fun hp => hnot ((hsame va h3 h4).mpr hp)⟩
  | ok s' =>
      obtain ⟨hpass2, own2, new2, hi, h2⟩ := h2
      refine ⟨fun va h3 h4 h5 h6 => ?_, own2, new2 ++ new1, hi,
        h1.trans hlevel hok hroot hlo hup hfirst hstop h2⟩
      rcases Nat.lt_or_ge va mid with hva | hva
      · exact hpass va h3 hva h5 h6
      · exact (hsame va hva h4).mp (hpass2 va hva h4 h5 h6)

/-- The first slot of the loop. Source: `sys/vmem.hpp` `traverse_page_table`. Kind: L -/
theorem slot_visited {call : Logged → Except Abort Logged} (hb : b + pageRadix.width (k + 1) ≤ 2 ^ 48)
    (hslot : r.CallSpec k (b + idx * pageRadix.width k) (.slot pt idx) call)
    (h0 : k = 0 → ¬ r.Takes 1 b) (hok : TablesOk r.pages AnyLeaf own s.tables)
    (hpt : own pt = some (k, b)) (hidx : idx < 512)
    (hover : r.first < b + idx * pageRadix.width k + pageRadix.width k ∧
      b + idx * pageRadix.width k < r.stop)
    (hdesc : ∀ va, pageRadix.InBlock (k + 1) b va → b + idx * pageRadix.width k ≤ va →
      r.first ≤ va → va < r.stop →
      r.Descendable s.tables k (s.tables.mem pt (pageRadix.digit k va)) va) :
    r.Visited own s k (b + idx * pageRadix.width k)
      (b + idx * pageRadix.width k + pageRadix.width k) (fun va => .slot pt (pageRadix.digit k va))
      (call s) := by
  have hal := hok.wf.aligned pt k b hpt
  have hslotle := pageRadix.slot_le (b := b) (ℓ := k) hidx
  rw [Nat.succ_mul, ← Nat.add_assoc] at hslotle
  have hw := pageRadix.width_pos k
  have hdigit : ∀ va, pageRadix.InBlock k (b + idx * pageRadix.width k) va →
      pageRadix.digit k va = idx := fun va hva => pageRadix.digit_add hal hidx hva
  have hin : ∀ va, pageRadix.InBlock k (b + idx * pageRadix.width k) va →
      pageRadix.InBlock (k + 1) b va := fun va hva => ⟨by have := hva.1; omega, hva.2.trans_le hslotle⟩
  refine (hslot own s hok ⟨hidx, b, hpt, rfl⟩ hover.1 hover.2 (hslotle.trans hb) ?_ ?_).congr ?_
  · intro hk
    subst hk
    rw [blockOf_eq hal (hin _ ⟨le_rfl, by omega⟩)]
    exact h0 rfl
  · intro va hva h1 h2
    have := hdesc va (hin va hva) hva.1 h1 h2
    rw [hdigit va hva] at this
    exact this
  · intro va h1 h2
    rw [hdigit va ⟨h1, h2⟩]

/-- **The loop over the slots.** By induction on the number of slots left.
Source: `sys/vmem.hpp` `traverse_page_table`
Kind: P -/
theorem forSlotsLogged_visited {slot : ℕ → ℕ → Logged → Except Abort Logged} (hk : k < 4)
    (hb : b + pageRadix.width (k + 1) ≤ 2 ^ 48)
    (hslot : ∀ idx, r.CallSpec k (b + idx * pageRadix.width k) (.slot pt idx)
      (slot idx (canonical (b + idx * pageRadix.width k))))
    (h0 : k = 0 → ¬ r.Takes 1 b)
    (n idx base : ℕ) (own : Owner) (s : Logged) (hok : TablesOk r.pages AnyLeaf own s.tables)
    (hpt : own pt = some (k, b)) (hn : idx + n < 512)
    (hbase : base = canonical (b + idx * pageRadix.width k))
    (hover : ∀ i, idx ≤ i → i ≤ idx + n →
      r.first < b + i * pageRadix.width k + pageRadix.width k ∧
        b + i * pageRadix.width k < r.stop)
    (hdesc : ∀ va, pageRadix.InBlock (k + 1) b va → b + idx * pageRadix.width k ≤ va →
      r.first ≤ va → va < r.stop →
      r.Descendable s.tables k (s.tables.mem pt (pageRadix.digit k va)) va) :
    r.Visited own s k (b + idx * pageRadix.width k)
      (b + (idx + n) * pageRadix.width k + pageRadix.width k)
      (fun va => .slot pt (pageRadix.digit k va))
      (forSlotsLogged slot (pageRadix.width k) (n + 1) idx base s) := by
  have hal := hok.wf.aligned pt k b hpt
  have hsucc : ∀ i, b + (i + 1) * pageRadix.width k
      = b + i * pageRadix.width k + pageRadix.width k := by
    intro i
    rw [Nat.succ_mul, Nat.add_assoc]
  induction n generalizing idx base own s with
  | zero =>
      have h := slot_visited hb (hslot idx) h0 hok hpt (by omega) (hover idx le_rfl le_rfl) hdesc
      rw [Nat.add_zero, forSlotsLogged, hbase]
      cases hcall : slot idx (canonical (b + idx * pageRadix.width k)) s with
      | error a =>
          rw [hcall] at h
          exact h
      | ok s1 =>
          rw [hcall] at h
          exact h
  | succ n ih =>
      have h := slot_visited hb (hslot idx) h0 hok hpt (by omega)
        (hover idx le_rfl (Nat.le_add_right _ _)) hdesc
      have hslotle := pageRadix.slot_le (b := b) (ℓ := k) (show idx + (n + 1) < 512 from hn)
      rw [hsucc] at hslotle
      have hmono : b + (idx + 1) * pageRadix.width k ≤ b + (idx + (n + 1)) * pageRadix.width k :=
        Nat.add_le_add_left (Nat.mul_le_mul_right _ (by omega)) _
      rw [hsucc] at hmono
      have hw := pageRadix.width_pos k
      rw [forSlotsLogged, hbase]
      cases hcall : slot idx (canonical (b + idx * pageRadix.width k)) s with
      | error a =>
          rw [hcall] at h
          refine h.imp_right ?_
          rintro ⟨va, ⟨h1, h2⟩, hrest⟩
          exact ⟨va, ⟨h1, by omega⟩, hrest⟩
      | ok s1 =>
          rw [hcall] at h
          obtain ⟨hpass, own1, new1, hi1, hret⟩ := h
          -- the next block overlaps the range, so that this one is visited to its end
          have hnext := hover (idx + 1) (by omega) (by omega)
          rw [hsucc] at hnext
          have hmid : hi1 = b + idx * pageRadix.width k + pageRadix.width k :=
            le_antisymm hret.le ((le_min hnext.2.le le_rfl).trans hret.covers)
          subst hmid
          have hloc : ∀ va, Located own k (b + pageRadix.digit k va * pageRadix.width k)
              (.slot pt (pageRadix.digit k va)) := fun va => ⟨pageRadix.digit_lt k va, b, hpt, rfl⟩
          have hrest := ih (idx + 1)
            (canonical ((canonical (b + idx * pageRadix.width k) + pageRadix.width k) % word)) own1 s1
            hret.effect.ok (hret.effect.owned pt _ hpt) (by omega)
            (by rw [canonical_next (by omega), hsucc])
            (fun i h1 h2 => hover i (by omega) (by omega))
            (by
              intro va hva h1 h2 h3
              rw [hsucc] at h1
              have htrace := trace_frame_of hok hret.effect (hloc va)
                (pageRadix.inBlock_digit hal hva) hk (Or.inr h1)
              exact (Descendable.congr htrace).mpr (hdesc va hva (by omega) h2 h3))
          rw [hsucc, show idx + 1 + n = idx + (n + 1) by omega] at hrest
          have hfirst := (hover idx le_rfl (Nat.le_add_right _ _)).1
          refine hrest.trans hk hok ?_ (Nat.le_add_right _ _) (by omega) hfirst.le hnext.2.le hpass
            hret
          intro va h1 h2
          exact ⟨_, hloc va, pageRadix.inBlock_digit hal ⟨by omega, by omega⟩⟩

/-- The entry of a block that is not found leads to a table afterwards, nothing is resolved
otherwise than before, and the slots of the table are as passable as the entry was.
Source: `sys/vmem.hpp` `traverse_page_table`
Kind: L -/
structure Entered (r : Traversal) (own own1 : Owner) (t t1 : Tables) (k base pt : ℕ) (e : Entry) :
    Prop where
  effect : Effect r.pages AnyLeaf own own1 t t1 (k + 1) base (base + pageRadix.width (k + 1))
  table : pteView (k + 1) (t1.read e) = .table pt
  owned : own1 pt = some (k, base)
  same : ∀ va, pageRadix.InBlock (k + 1) base va →
    pageRadix.walk pteView t1.mem (k + 1) (t1.read e) va
      = pageRadix.walk pteView t.mem (k + 1) (t.read e) va
  passable : ∀ va, pageRadix.InBlock (k + 1) base va → r.foundLevel va < k + 1 →
    (r.Passable t1 k (t1.mem pt (pageRadix.digit k va)) va ↔ r.Passable t (k + 1) (t.read e) va)
  descendable : ∀ va, pageRadix.InBlock (k + 1) base va →
    r.Descendable t (k + 1) (t.read e) va →
      r.Descendable t1 k (t1.mem pt (pageRadix.digit k va)) va
  root : Pte.present t.root = true → t1.root = t.root

/-- An entry that points to a table is entered as it is.
Source: `sys/vmem.hpp` `traverse_page_table`
Kind: L -/
theorem entered_present (hok : TablesOk r.pages AnyLeaf own t) (hloc : Located own (k + 1) base e)
    (hv : pteView (k + 1) (t.read e) = .table pt) : Entered r own own t t k base pt e := by
  have hfit := hok.located hloc
  rw [hv] at hfit
  obtain ⟨k', hk', hpt⟩ := hfit
  cases hk'
  have htrace : ∀ va, pageRadix.trace pteView t.mem (k + 1) (t.read e) va
      = (k + 1, t.read e) :: pageRadix.trace pteView t.mem k (t.mem pt (pageRadix.digit k va)) va :=
    fun va => pageRadix.trace_table hv
  refine ⟨Effect.refl hok, hv, hpt, fun _ _ => rfl, fun va _ hlevel => ?_, fun va _ hdesc x hx => ?_,
    fun _ => rfl⟩
  · constructor
    · refine fun hp => ⟨hp.taken, fun x hx hxl => ?_⟩
      rw [htrace] at hx
      rcases List.mem_cons.mp hx with rfl | hx
      · omega
      · exact hp.accepted x hx hxl
    · refine fun hp => ⟨hp.taken, fun x hx hxl => ?_⟩
      apply hp.accepted x _ hxl
      rw [htrace]
      exact List.mem_cons_of_mem _ hx
  · apply hdesc x
    rw [htrace]
    exact List.mem_cons_of_mem _ hx

/-- An entry that is not present gets a clear table. Source: `sys/vmem.cpp` `map_memory`. Kind: L -/
theorem entered_absent {page : ℕ} (hok : TablesOk r.pages AnyLeaf own t)
    (hloc : Located own (k + 1) base e) (hv : pteView (k + 1) (t.read e) = .absent)
    (hpage : r.pages t.allocated = some page) :
    Entered r own (Function.update own (pfnToAddr page) (some (k, base))) t (t.install page e) k base
      (pfnToAddr page) e := by
  have htable : pteView (k + 1) ((t.install page e).read e) = .table (pfnToAddr page) :=
    install_read r.fresh hpage
  have hclear : ∀ idx, (t.install page e).mem (pfnToAddr page) idx = 0 :=
    fun _ => install_mem hok hloc hpage
  have hend : ∀ pt, pteView (k + 1) (t.read e) ≠ .table pt := by
    intro pt hpt
    rw [hv] at hpt
    cases hpt
  refine ⟨Effect.install r.fresh hok hloc hpage, htable, Function.update_self _ _ _, ?_, ?_, ?_, ?_⟩
  · intro va _
    rw [pageRadix.walk_table htable, hclear, pageRadix.walk_end (pteView_zero_ne_table k),
      pageRadix.walk_end hend]
    simp [leafOf, hv, pteView_zero]
  · intro va _ hlevel
    constructor
    · refine fun hp => ⟨hp.taken, fun x hx hxl => ?_⟩
      rw [pageRadix.trace_end hend] at hx
      rw [List.mem_singleton.mp hx] at hxl
      omega
    · refine fun hp => ⟨hp.taken, fun x hx _ => ?_⟩
      rw [hclear, pageRadix.trace_end (pteView_zero_ne_table k)] at hx
      rw [List.mem_singleton.mp hx]
      exact r.refuses_zero
  · intro va _ _ x hx _ a
    rw [hclear, pageRadix.trace_end (pteView_zero_ne_table k)] at hx
    rw [List.mem_singleton.mp hx, pteView_zero]
    simp
  · intro hroot
    unfold Tables.install
    rw [write_root, if_neg]
    · rfl
    · rintro rfl
      have habsent : Pte.present t.root = false := pteView_absent.mp hv
      rw [habsent] at hroot
      cases hroot

/-- The record of the pointers that were followed changes nothing else.
Source: `sys/vmem.hpp` `traverse_page_table`
Kind: L -/
theorem Entered.descend (h : Entered r own own1 t t1 k base pt e) :
    Entered r own own1 t { t1 with descents := (k + 1, t1.read e) :: t1.descents } k base pt e where
  effect := h.effect.trans (Effect.descend h.effect.ok h.table)
  table := h.table
  owned := h.owned
  same := h.same
  passable va hva hlevel := by
    have hmem : r.Passable { t1 with descents := (k + 1, t1.read e) :: t1.descents } k
        (t1.mem pt (pageRadix.digit k va)) va ↔ r.Passable t1 k (t1.mem pt (pageRadix.digit k va)) va :=
      Passable.congr rfl
    exact hmem.trans (h.passable va hva hlevel)
  descendable va hva hdesc := (Descendable.congr (t := t1) rfl).mpr (h.descendable va hva hdesc)
  root := h.root

/-- **Entering.** It fails only for lack of a page. Source: `sys/vmem.hpp` `traverse_page_table`.
Kind: L -/
theorem enter_entered (hok : TablesOk r.pages AnyLeaf own t) (hloc : Located own (k + 1) base e)
    (hleaf : ∀ a, pteView (k + 1) (t.read e) ≠ .leaf a) :
    enter r.callbacks e t = .error .noPage ∨
      ∃ own1 t1 pt, enter r.callbacks e t = .ok (true, t1) ∧ Entered r own own1 t t1 k base pt e := by
  unfold enter
  rw [r.empty_eq]
  cases hv : pteView (k + 1) (t.read e) with
  | leaf a => exact (hleaf a hv).elim
  | table pt =>
      have hpres : Pte.present (t.read e) = true := by
        by_contra hnot
        rw [pteView_absent.mpr (by simpa using hnot)] at hv
        cases hv
      rw [if_pos hpres]
      exact Or.inr ⟨own, t, pt, rfl, entered_present hok hloc hv⟩
  | absent =>
      rw [if_neg (by rw [pteView_absent.mp hv]; exact Bool.false_ne_true)]
      unfold installTable
      cases hpage : r.pages t.allocated with
      | none => exact Or.inl rfl
      | some page => exact Or.inr ⟨_, _, _, rfl, entered_absent hok hloc hv hpage⟩

/-- A call at the wrapped level does not return. Source: `sys/vmem.hpp` `traverse_page_table`. Kind: L -/
theorem traverseWrapped_error (c : Callbacks) (hc : c.empty = installTable r.pages) (e : Entry) (t : Tables) :
    ∃ a, traverseWrapped c e t = .error a := by
  unfold traverseWrapped enter
  by_cases hpres : Pte.present (t.read e)
  · rw [if_pos hpres]
    exact ⟨.undefined, rfl⟩
  · rw [if_neg hpres, hc]
    unfold installTable
    cases r.pages t.allocated with
    | none => exact ⟨.noPage, rfl⟩
    | some page => exact ⟨.undefined, rfl⟩

/-- In a page that the range overlaps there is a slot of 8 bytes.
Source: `sys/vmem.hpp` `traverse_page_table`
Kind: L -/
theorem wrapped_slots (hal : 2 ^ 12 ∣ base) (hb : base + 2 ^ 12 ≤ 2 ^ 48) (h1 : r.first < base + 2 ^ 12)
    (h2 : base < r.stop) :
    ptIndexWrapped (max r.virtStart (canonical base)) ≤ ptIndexWrapped (min (wsub r.virtEnd 1)
      (canonical (wsub ((canonical base + 2 ^ 12) % word) 1))) := by
  have hlt := r.first_lt
  have hle := r.stop_le
  have hfirst : r.first ∈ Set.Iio (2 ^ 48) := Set.mem_Iio.mpr (hlt.trans_le hle)
  have hbase : base ∈ Set.Iio (2 ^ 48) := Set.mem_Iio.mpr (by omega)
  have hstop : r.stop - 1 ∈ Set.Iio (2 ^ 48) := Set.mem_Iio.mpr (by omega)
  have hlast : base + 2 ^ 12 - 1 ∈ Set.Iio (2 ^ 48) := Set.mem_Iio.mpr (by omega)
  rw [canonical_last hbase (by decide), r.start_eq, r.last_eq, ← canonical_monotoneOn.map_max hfirst hbase,
    ← canonical_monotoneOn.map_min hstop hlast, ptIndexWrapped_eq, ptIndexWrapped_eq]
  -- both are in the page, and in this order
  have hbegin : max r.first base < 2 ^ 48 := max_lt hfirst hbase
  have hend : min (r.stop - 1) (base + 2 ^ 12 - 1) < 2 ^ 48 := (min_le_left _ _).trans_lt hstop
  have hmod := canonical_mod hbegin
  have hmod' := canonical_mod hend
  omega

/-- At level 0 there is nothing to traverse: the call does not return.
Source: `sys/vmem.hpp` `traverse_page_table`
Kind: L -/
theorem traverseLogged_zero (c : Callbacks) (hc : c.empty = installTable r.pages) (e : Entry) (s : Logged)
    (hal : 2 ^ 12 ∣ base) (hb : base + 2 ^ 12 ≤ 2 ^ 48) (h1 : r.first < base + 2 ^ 12) (h2 : base < r.stop) :
    ∃ a, traverseLogged c r.virtStart r.virtEnd 0 e (canonical base) s = .error a := by
  suffices h : ∃ a, traverseBottom c r.virtStart r.virtEnd e (canonical base) s.tables = .error a by
    obtain ⟨a, ha⟩ := h
    exact ⟨a, by rw [traverseLogged, ha]; rfl⟩
  have hslots := wrapped_slots hal hb h1 h2
  have hgo : ∀ t, enter c e s.tables = .ok (true, t) →
      ∃ a, traverseBottom c r.virtStart r.virtEnd e (canonical base) s.tables = .error a := by
    intro t henter
    rw [traverseBottom_enter henter rfl rfl, Nat.sub_add_comm hslots, forSlots]
    obtain ⟨a, ha⟩ := traverseWrapped_error c hc _ _
    rw [ha]
    exact ⟨a, rfl⟩
  unfold enter at hgo
  by_cases hpres : Pte.present (s.tables.read e)
  · exact hgo s.tables (if_pos hpres)
  · rw [if_neg hpres, hc] at hgo
    unfold installTable at hgo
    cases hpage : r.pages s.tables.allocated with
    | none =>
        refine ⟨.noPage, ?_⟩
        unfold traverseBottom enter
        rw [if_neg hpres, hc]
        unfold installTable
        rw [hpage]
        rfl
    | some page => exact hgo (s.tables.install page e) (by rw [hpage])

/-- The first slot. Source: `sys/vmem.hpp` `traverse_page_table`. Kind: L -/
theorem idx_begin (hk : k ≤ 3) (hb : base < 2 ^ 48) :
    ptIndex (max r.virtStart (canonical base)) k = pageRadix.digit k (max r.first base) := by
  have := r.first_lt
  have := r.stop_le
  have hmem : r.first ∈ Set.Iio (2 ^ 48) := by
    show r.first < 2 ^ 48
    omega
  rw [r.start_eq, ← canonical_monotoneOn.map_max hmem hb, ptIndex_canonical hk (max_lt hmem hb)]

/-- The last slot. Source: `sys/vmem.hpp` `traverse_page_table`. Kind: L -/
theorem idx_end (hk : k ≤ 3) (hb : base + pageRadix.width (k + 1) ≤ 2 ^ 48) :
    ptIndex (min (wsub r.virtEnd 1)
      (canonical (wsub ((canonical base + pageRadix.width k * 512) % word) 1))) k
      = pageRadix.digit k (min (r.stop - 1) (base + pageRadix.width (k + 1) - 1)) := by
  have hw := pageRadix.width_pos (k + 1)
  have hwidth : pageRadix.width k * 512 = pageRadix.width (k + 1) := by
    rw [pageRadix.width_succ, Nat.mul_comm]
    rfl
  have h1 : base + pageRadix.width (k + 1) - 1 ∈ Set.Iio (2 ^ 48) := by
    show _ < 2 ^ 48
    omega
  have h2 : r.stop - 1 ∈ Set.Iio (2 ^ 48) := by
    have := r.first_lt
    have := r.stop_le
    show _ < 2 ^ 48
    omega
  rw [hwidth, canonical_last (by omega) hw, r.last_eq, ← canonical_monotoneOn.map_min h2 h1,
    ptIndex_canonical hk ((min_le_left _ _).trans_lt h2)]

/-- The loop body for the block of a slot. Source: `sys/vmem.hpp` `traverse_page_table`. Kind: L -/
theorem visitSlotLogged_visited
    (htraverse : ¬ r.Takes k base → r.CallSpec k base (.slot pt idx)
      (traverseLogged r.callbacks r.virtStart r.virtEnd k (.slot pt idx) (canonical base))) :
    r.CallSpec k base (.slot pt idx)
      (visitSlotLogged r.callbacks r.virtStart r.virtEnd k (pageRadix.width k) pt idx
        (canonical base)) := by
  intro own s hok hloc h1 h2 hb h0 hdesc
  unfold visitSlotLogged
  by_cases htakes : r.Takes k base
  · rw [if_pos (show k < numPageSizes ∧ r.virtStart ≤ canonical base ∧ _ from htakes)]
    exact found_visited htakes own s hok hloc h1 h2 hb h0 hdesc
  · rw [if_neg (show ¬ (k < numPageSizes ∧ r.virtStart ≤ canonical base ∧ _) from htakes)]
    exact htraverse htakes own s hok hloc h1 h2 hb h0 hdesc

/-- From the slots of the table that an entry leads to, to the entry.
Source: `sys/vmem.hpp` `traverse_page_table`
Kind: L -/
theorem Returned.of_table
    (h : r.Returned own1 own2 s1 s2 k lo up (fun va => .slot pt (pageRadix.digit k va)) new hi)
    (hk : k < 4) (hok : TablesOk r.pages AnyLeaf own s.tables)
    (hloc : Located own (k + 1) base e)
    (hent : Entered r own own1 s.tables s1.tables k base pt e) (hvisits : s1.visits = s.visits)
    (hlo : base ≤ lo) (hup : up ≤ base + pageRadix.width (k + 1))
    (hfirst : max r.first lo = max r.first base)
    (hstop : min r.stop (base + pageRadix.width (k + 1)) ≤ up) :
    r.Returned own own2 s s2 (k + 1) base (base + pageRadix.width (k + 1)) (fun _ => e) new hi := by
  have hloc1 := hloc.mono hent.effect.owned
  have hal := hok.aligned hloc
  -- the loop does not touch the entry itself
  have hread : ∀ ownv tv, Effect r.pages AnyLeaf own1 ownv s1.tables tv k lo up →
      pteView (k + 1) (tv.read e) = .table pt := by
    intro ownv tv heff
    rw [heff.read_eq hloc1 (Or.inl (Nat.lt_succ_self k)) (fun _ => hk)]
    exact hent.table
  have htable := hread own2 s2.tables h.effect
  constructor
  · exact hent.effect.trans (h.effect.mono (Nat.le_succ k) hlo hup)
  · rw [h.visits, hvisits]
  · rw [← hfirst]
    exact h.tiles
  · exact (le_min (min_le_left _ _) hstop).trans h.covers
  · exact h.le.trans hup
  · intro v hv
    have hv := h.visit v hv
    obtain ⟨ownv, hbefore⟩ := hv.before
    have hle := slotFrom_le hv.reached
    refine { hv with before := ⟨ownv, ?_⟩, reaches := ?_, reached := ?_ }
    · exact hent.effect.trans (hbefore.mono (Nat.le_succ k) hlo hup)
    · rw [slotFrom_table hle (hread ownv v.tables hbefore)]
      exact hv.reaches
    · rw [slotFrom_table hle htable]
      exact hv.reached
  · intro va h1 h2 h3
    have hin : pageRadix.InBlock (k + 1) base va := ⟨h1, h2⟩
    have hslot := pageRadix.inBlock_digit hal hin
    have hlocs : Located own1 k (base + pageRadix.digit k va * pageRadix.width k)
        (.slot pt (pageRadix.digit k va)) := ⟨pageRadix.digit_lt k va, base, hent.owned, rfl⟩
    have hthrough : ∀ t : Tables, pteView (k + 1) (t.read e) = .table pt →
        pageRadix.walk pteView t.mem (k + 1) (t.read e) va
          = pageRadix.walk pteView t.mem k (t.read (.slot pt (pageRadix.digit k va))) va := by
      intro t ht
      rw [pageRadix.walk_table ht]
      rfl
    rw [hthrough _ htable, ← hent.same va hin, hthrough _ hent.table]
    by_cases hpart : lo ≤ va ∧ va < up
    · exact h.same va hpart.1 hpart.2 (by rw [hfirst]; exact h3)
    · exact walk_frame_of hent.effect.ok h.effect hlocs hslot hk (by omega)
  · exact fun hroot => (h.effect.root hk).trans (hent.root hroot)

/-- **What a traversal does.** By induction on the level: at level 0 a block that does not pass the
test is not passable; above, the entry leads to a table whose slots are either found
(`found_visited`) or traversed one level down (`forSlotsLogged_visited`).
Source: `sys/vmem.hpp` `traverse_page_table`
Kind: P -/
theorem traverseLogged_visited (hlevel : level ≤ 4) (htakes : ¬ r.Takes level base) :
    r.CallSpec level base e
      (traverseLogged r.callbacks r.virtStart r.virtEnd level e (canonical base)) := by
  induction level generalizing base e with
  | zero =>
      intro own s hok hloc h1 h2 hb h0 _
      have hal := hok.aligned hloc
      obtain ⟨hin, hlo, hup⟩ := overlap h1 h2
      have hw : pageRadix.width 0 = 2 ^ 12 := pageRadix_width 0
      obtain ⟨a, ha⟩ := traverseLogged_zero r.callbacks r.empty_eq e s (hw ▸ hal) (hw ▸ hb) (hw ▸ h1) h2
      rw [ha]
      refine Or.inr ⟨max r.first base, hin, ⟨hlo, hup⟩, fun hpass => htakes ?_⟩
      have htaken := hpass.taken
      have hfound : r.foundLevel (max r.first base) = 0 := by
        have := foundLevel_of_not_takes hal h0 htakes hin
        omega
      rw [hfound, blockOf_eq hal hin] at htaken
      exact htaken
  | succ k ih =>
      intro own s hok hloc h1 h2 hb h0 hdesc
      have hk : k < 4 := hlevel
      have hal := hok.aligned hloc
      have hfound : ∀ va, pageRadix.InBlock (k + 1) base va → r.foundLevel va < k + 1 := by
        intro va hva
        have := foundLevel_of_not_takes hal h0 htakes hva
        omega
      obtain ⟨hinlo, hslo, hloe⟩ := overlap h1 h2
      have hleaf := hdesc _ hinlo hslo hloe (k + 1, s.tables.read e) pageRadix.mem_trace_self
        (hfound _ hinlo)
      obtain hno | ⟨own1, t1, pt, hcall, hent⟩ := enter_entered hok hloc hleaf
      · rw [traverseLogged, hno]
        exact Or.inl rfl
      have hw := pageRadix.width_pos (k + 1)
      have hinup : pageRadix.InBlock (k + 1) base
          (min (r.stop - 1) (base + pageRadix.width (k + 1) - 1)) := ⟨by omega, by omega⟩
      have hlo := pageRadix.inBlock_digit hal hinlo
      have hup := pageRadix.inBlock_digit hal hinup
      have hij := slot_mono hlo hup (by omega)
      have hilt := pageRadix.digit_lt k (max r.first base)
      have hjlt : pageRadix.digit k (min (r.stop - 1) (base + pageRadix.width (k + 1) - 1)) < 512 :=
        pageRadix.digit_lt k _
      rw [traverseLogged_enter hcall (stepAt_eq (by omega)) (idx_begin (by omega) (by omega))
        (idx_end (by omega) hb), canonical_first (by omega) hal hilt hb, pteView_table hent.table]
      generalize pageRadix.digit k (max r.first base) = i at *
      generalize pageRadix.digit k (min (r.stop - 1) (base + pageRadix.width (k + 1) - 1)) = j at *
      have hslotle : base + (j + 1) * pageRadix.width k ≤ base + pageRadix.width (k + 1) :=
        pageRadix.slot_le hjlt
      have hmul : ∀ {m n : ℕ}, m ≤ n → m * pageRadix.width k ≤ n * pageRadix.width k :=
        fun h => Nat.mul_le_mul_right _ h
      have hlast : i + (j - i) = j := Nat.add_sub_cancel' hij
      have hcount : j + 1 - i = (j - i) + 1 := by omega
      have hsucc : (j + 1) * pageRadix.width k = j * pageRadix.width k + pageRadix.width k :=
        Nat.succ_mul _ _
      have hent1 := hent.descend
      have hloop := forSlotsLogged_visited hk hb
        (fun idx => visitSlotLogged_visited fun hnot => ih (e := .slot pt idx) (by omega) hnot)
        (by
          intro hk0
          subst hk0
          exact htakes)
        (j - i) i (canonical (base + i * pageRadix.width k)) own1
        ⟨{ t1 with descents := (k + 1, t1.read e) :: t1.descents }, s.visits⟩ hent1.effect.ok
        hent1.owned (by omega) rfl
        (by
          intro i' h3 h4
          have := hmul h3
          have := hmul (show i' ≤ j by omega)
          have := hlo.2
          have := hup.1
          omega)
        (fun va hva _ h3 h4 => hent1.descendable va hva (hdesc va hva h3 h4))
      rw [hlast] at hloop
      rw [hcount]
      have hend : base + j * pageRadix.width k + pageRadix.width k ≤ base + pageRadix.width (k + 1) := by
        omega
      have hbegin : max r.first (base + i * pageRadix.width k) = max r.first base := by
        have := hlo.1
        omega
      have hstop : min r.stop (base + pageRadix.width (k + 1))
          ≤ base + j * pageRadix.width k + pageRadix.width k := by
        have := hup.2
        have := r.first_lt
        omega
      have hpass := fun va (hva : pageRadix.InBlock (k + 1) base va) =>
        hent1.passable va hva (hfound va hva)
      cases hres : forSlotsLogged (visitSlotLogged r.callbacks r.virtStart r.virtEnd k
          (pageRadix.width k) pt) (pageRadix.width k) (j - i + 1) i
          (canonical (base + i * pageRadix.width k))
          ⟨{ t1 with descents := (k + 1, t1.read e) :: t1.descents }, s.visits⟩ with
      | error a =>
          rw [hres] at hloop
          refine hloop.imp_right ?_
          rintro ⟨va, ⟨h3, h4⟩, hrange, hnot⟩
          have hva : pageRadix.InBlock (k + 1) base va := ⟨by omega, by omega⟩
          exact ⟨va, hva, hrange, fun hp => hnot ((hpass va hva).mpr hp)⟩
      | ok s' =>
          rw [hres] at hloop
          obtain ⟨hpassed, own2, new, hi, hret⟩ := hloop
          refine ⟨fun va h3 h4 h5 h6 => ?_, own2, new, hi, ?_⟩
          · exact (hpass va ⟨h3, h4⟩).mp (hpassed va (by omega) (by omega) h5 h6)
          · exact hret.of_table hk hok hloc hent1 rfl (Nat.le_add_right _ _) hend hbegin hstop

/-- A call for the root. Source: `sys/vmem.hpp` `traverse_page_table`. Kind: L -/
theorem root_visited (hok : TablesOk r.pages AnyLeaf own t)
    (hdesc : ∀ va, r.first ≤ va → va < r.stop → r.Descendable t 4 t.root va) :
    r.Visited own ⟨t, []⟩ 4 0 (2 ^ 48) (fun _ => .root)
      (traverseLogged r.callbacks r.virtStart r.virtEnd 4 .root 0 ⟨t, []⟩) := by
  have hw : pageRadix.width 4 = 2 ^ 48 := pageRadix_width 4
  have hlt := r.first_lt
  have hle := r.stop_le
  have hvisited := @traverseLogged_visited r 4 0 .root le_rfl
    (fun h => absurd h.1 (by decide)) own ⟨t, []⟩ hok ⟨rfl, rfl⟩ (by omega) (by omega) (by omega)
    (fun h => by cases h) (fun va _ h1 h2 => hdesc va h1 h2)
  rw [hw, Nat.zero_add] at hvisited
  exact hvisited

end Traversal

end EbbRT
