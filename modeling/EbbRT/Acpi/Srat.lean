import EbbRT.Mem.Numa

/-!
# Reading the SRAT

The table says which CPUs and which memory belong to which proximity domain. `parse_srat` goes over its
entries: an enabled CPU entry sets the node of its CPU, an enabled memory entry adds a block to the
node of its domain, and the first entry of a domain makes the node (`Inv`, kept by every turn that
gets on to the next entry: `turn_spec`). The `switch` has no case for the types that it does not know:
such an entry is looked at forever. `parseSrat_exactlyWhen`: the parser comes to an end, and then has
each entry recorded once, if and only if no entry of an unknown type is reached.
-/

namespace EbbRT

namespace Acpi

/-! ## The table -/

/-- A subtable, with the fields that are read.
Source: `sys/acpi.cpp` `parse_srat`
Kind: D -/
inductive Subtable
  /-- `ACPI_SRAT_CPU_AFFINITY`. -/
  | cpuAffinity (domainLo apicId flags : ℕ) (domainHi : ℕ × ℕ × ℕ)
  /-- `ACPI_SRAT_MEM_AFFINITY`. -/
  | memAffinity (domain base length flags : ℕ)
  /-- `ACPI_SRAT_TYPE_X2APIC_CPU_AFFINITY`. -/
  | x2apicCpuAffinity
  /-- A type that the `switch` does not name, with the length of its header. -/
  | other (type length : ℕ) (unnamed : 2 < type)
  deriving DecidableEq, Repr

namespace Subtable

/-- The length in the subtable's header.
Source: `sys/acpi.cpp` `ACPI_SUBTABLE_HEADER`
Kind: D -/
def length : Subtable → ℕ
  | cpuAffinity .. => 16
  | memAffinity .. => 40
  | x2apicCpuAffinity => 24
  | other _ length _ => length

end Subtable

/-- The bytes before the first subtable.
Source: `sys/acpi.cpp` `ACPI_TABLE_SRAT`
Kind: D -/
def sizeofTableSrat : ℕ := 48

/-- The subtables one after another.
Source: `sys/acpi.cpp` `parse_srat`
Kind: D -/
abbrev Srat := List Subtable

/-- `Header.Length`: the subtables fill the table.
Source: `sys/acpi.cpp` `parse_srat`
Kind: D -/
def Srat.len (srat : Srat) : ℕ := sizeofTableSrat + (srat.map Subtable.length).sum

/-- The subtable that starts at an offset behind `start`.
Source: `sys/acpi.cpp` `parse_srat`
Kind: D -/
def subtableFrom (offset : ℕ) : ℕ → Srat → Option Subtable
  | _, [] => none
  | start, e :: srat => if offset = start then some e else subtableFrom offset (start + e.length) srat

/-- Source: `sys/acpi.cpp` `parse_srat`. Kind: D -/
def Srat.at (srat : Srat) (offset : ℕ) : Option Subtable := subtableFrom offset sizeofTableSrat srat

/-! ## The parser -/

/-- What is read and set of a CPU; no node is `NO_NID`.
Source: `sys/cpu.hpp` `cpu`
Kind: D -/
structure Cpu where
  apicId : ℕ
  nid : Option ℕ
  deriving DecidableEq, Repr

/-- No node is `NO_NID`, and no domain is -1. `visited` is a record of the offsets that the loop has
been at.
Source: `sys/numa.cpp` `numa_nodes`, `apic_to_node_map`, `pxm_to_node_map`, `node_to_pxm_map`
Kind: D -/
structure State where
  numaNodes : NumaNodes
  apicToNode : ℕ → Option ℕ
  pxmToNode : ℕ → Option ℕ
  nodeToPxm : ℕ → Option ℕ
  cpus : List Cpu
  visited : List ℕ

/-- How the parser can end before the end of the table.
Source: `sys/acpi.cpp` `parse_srat`
Kind: D -/
inductive Abort
  /-- A failed assertion or `kabort`, with its text. -/
  | kabort (message : String)
  /-- A `static_vector` is full. -/
  | badAlloc
  /-- No subtable starts at the offset. -/
  | misread
  deriving DecidableEq, Repr

/-- Source: `sys/numa.hpp` `MAX_PXM_DOMAINS`, `MAX_NUMA_NODES`. Kind: D -/
def maxPxmDomains : ℕ := 256

/-- Source: `sys/numa.hpp` `MAX_NUMA_MEMBLOCKS`. Kind: D -/
def maxNumaMemblocks : ℕ := 256

/-- Source: `sys/numa.hpp` `MAX_LOCAL_APIC`. Kind: D -/
def maxLocalApic : ℕ := 256

/-- Source: `sys/acpi.cpp` `setup_node`. Kind: D -/
def setupNode (proximityDomain : ℕ) (s : State) : Except Abort (ℕ × State) :=
  if proximityDomain ≥ maxPxmDomains then
    .error (.kabort "Proximity domain exceeds MAX_PXM_DOMAINS")
  else
    match s.pxmToNode proximityDomain with
    | some node => .ok (node, s)
    | none =>
        if s.numaNodes.length ≥ maxPxmDomains then .error .badAlloc
        else
          let node := s.numaNodes.length
          .ok (node, { s with
            numaNodes := s.numaNodes ++ [[]]
            pxmToNode := Function.update s.pxmToNode proximityDomain (some node)
            nodeToPxm := Function.update s.nodeToPxm node (some proximityDomain) })

/-- `find_if` and `set_nid`; `none` is `cpus.end()`.
Source: `sys/acpi.cpp` `parse_srat`
Kind: D -/
def setNid (apicId node : ℕ) : List Cpu → Option (List Cpu)
  | [] => none
  | c :: cpus =>
      if c.apicId = apicId then some ({ c with nid := some node } :: cpus)
      else (setNid apicId node cpus).map (c :: ·)

/-- `numa_nodes[node].memblocks.emplace_back(start, end, node)`.
Source: `sys/acpi.cpp` `parse_srat`
Kind: D -/
def addMemblock (start stop node : ℕ) (s : State) : Except Abort State :=
  if (s.numaNodes.getD node []).length ≥ maxNumaMemblocks then .error .badAlloc
  else .ok { s with numaNodes := s.numaNodes.modify node (· ++ [⟨start, stop, node⟩]) }

/-- The domain of a CPU entry: an `int`, taken as a `size_t`.
Source: `sys/acpi.cpp` `parse_srat`
Kind: D -/
def proxDomain (lo : ℕ) (hi : ℕ × ℕ × ℕ) : ℕ :=
  let d := lo ||| hi.1 <<< 8 ||| hi.2.1 <<< 16 ||| hi.2.2 <<< 24
  if d < 2 ^ 31 then d else word - 2 ^ 32 + d

/-- The `switch`: the state after it, and how far the offset is moved on. There is no default case.
Source: `sys/acpi.cpp` `parse_srat`
Kind: D -/
def turn (s : State) : Subtable → Except Abort (State × ℕ)
  | .cpuAffinity lo apicId flags hi =>
      if flags &&& 1 ≠ 0 then
        match setupNode (proxDomain lo hi) s with
        | .error abort => .error abort
        | .ok (node, s) =>
            if apicId ≥ maxLocalApic then .error (.kabort "Apic Id exceeds MAX_LOCAL_APIC")
            else
              let s := { s with apicToNode := Function.update s.apicToNode apicId (some node) }
              match setNid apicId node s.cpus with
              | none => .error (.kabort "Cannot find cpu listed in SRAT")
              | some cpus => .ok ({ s with cpus := cpus }, 16)
      else .ok (s, 16)
  | .memAffinity domain base length flags =>
      if flags &&& 1 ≠ 0 then
        let start := pfnDown base
        let stop := pfnUp ((base + length) % word)
        match setupNode domain s with
        | .error abort => .error abort
        | .ok (node, s) =>
            match addMemblock start stop node s with
            | .error abort => .error abort
            | .ok s => .ok (s, 40)
      else .ok (s, 40)
  | .x2apicCpuAffinity =>
      .error (.kabort "X2APIC_CPU_AFFINITY SRAT entry found, unsupported... aborting!\n")
  | .other .. => .ok (s, 0)

/-- The loop; `none` while it is running.
Source: `sys/acpi.cpp` `parse_srat`
Kind: D -/
def parseLoop (srat : Srat) : ℕ → ℕ → State → Option (Except Abort State)
  | 0, _, _ => none
  | fuel + 1, offset, s =>
      if offset < srat.len then
        match srat.at offset with
        | none => some (.error .misread)
        | some e =>
            match turn { s with visited := s.visited ++ [offset] } e with
            | .error abort => some (.error abort)
            | .ok (s', n) => parseLoop srat fuel (offset + n) s'
      else some (.ok s)

/-- Before `parse_srat`: the maps are filled with `NO_NID` and -1, and there are no nodes.
Source: `sys/acpi.cpp` `acpi_boot_init`
Kind: D -/
def State.init (cpus : List Cpu) : State :=
  ⟨[], fun _ => none, fun _ => none, fun _ => none, cpus, []⟩

/-- Source: `sys/acpi.cpp` `parse_srat`. Kind: D -/
def parseSrat (srat : Srat) (cpus : List Cpu) (fuel : ℕ) : Option (Except Abort State) :=
  parseLoop srat fuel sizeofTableSrat (State.init cpus)

/-! ## What should be recorded -/

/-- The domain of an entry that is enabled.
Source: `sys/acpi.cpp` `parse_srat`
Kind: D -/
def Subtable.domain? : Subtable → Option ℕ
  | .cpuAffinity lo _ flags hi => if flags &&& 1 ≠ 0 then some (proxDomain lo hi) else none
  | .memAffinity domain _ _ flags => if flags &&& 1 ≠ 0 then some domain else none
  | .x2apicCpuAffinity | .other .. => none

/-- The domain that an enabled entry has for a CPU.
Source: `sys/acpi.cpp` `parse_srat`
Kind: D -/
def Subtable.cpuDomain? (apicId : ℕ) : Subtable → Option ℕ
  | .cpuAffinity lo id flags hi =>
      if flags &&& 1 ≠ 0 ∧ id = apicId then some (proxDomain lo hi) else none
  | _ => none

/-- The pages that an enabled entry has for a domain, rounded out.
Source: `sys/acpi.cpp` `parse_srat`
Kind: D -/
def Subtable.pages? (d : ℕ) : Subtable → Option (ℕ × ℕ)
  | .memAffinity domain base length flags =>
      if flags &&& 1 ≠ 0 ∧ domain = d then some (pfnDown base, pfnUp ((base + length) % word))
      else none
  | _ => none

/-- The domain of the last enabled entry for a CPU.
Source: `sys/acpi.cpp` `parse_srat`
Kind: D -/
def Srat.lastDomain? (srat : Srat) (apicId : ℕ) : Option ℕ :=
  (srat.filterMap (Subtable.cpuDomain? apicId)).getLast?

/-- The blocks of a domain's enabled entries, with its node.
Source: `sys/acpi.cpp` `parse_srat`
Kind: D -/
def Srat.blocks (srat : Srat) (d node : ℕ) : List MemBlock :=
  (srat.filterMap (Subtable.pages? d)).map fun r => ⟨r.1, r.2, node⟩

/-- Where the subtables start.
Source: `sys/acpi.cpp` `parse_srat`
Kind: D -/
def offsetsFrom : ℕ → Srat → List ℕ
  | _, [] => []
  | start, e :: srat => start :: offsetsFrom (start + e.length) srat

/-- Everything in the table is recorded, and recorded once: the loop has been at every subtable; each
enabled memory entry has a block in its domain's node, and there are no others; each CPU has the node
of its last enabled entry; the two maps are inverse, and there are as many nodes as domains.
Source: `sys/acpi.cpp` `parse_srat`
Kind: D -/
structure Recorded (srat : Srat) (s : State) : Prop where
  visited : s.visited = offsetsFrom sizeofTableSrat srat
  assigned : ∀ d, (∃ node, s.pxmToNode d = some node) ↔ ∃ e ∈ srat, e.domain? = some d
  blocks : ∀ d node, s.pxmToNode d = some node → s.numaNodes[node]? = some (srat.blocks d node)
  cpu : ∀ apicId d, srat.lastDomain? apicId = some d → ∃ node, s.pxmToNode d = some node ∧
    s.apicToNode apicId = some node ∧
    (s.cpus.find? fun c => c.apicId = apicId).bind Cpu.nid = some node
  inverse : ∀ d node, s.pxmToNode d = some node ↔ s.nodeToPxm node = some d
  count : s.numaNodes.length = (srat.filterMap Subtable.domain?).toFinset.card

/-- The parser ends, and if it gets to the end of the table, everything is recorded.
Source: `sys/acpi.cpp` `parse_srat`
Kind: D -/
def Parses (srat : Srat) (cpus : List Cpu) : Prop :=
  (∃ fuel r, parseSrat srat cpus fuel = some r) ∧
    ∀ fuel s, parseSrat srat cpus fuel = some (.ok s) → Recorded srat s

/-- The entry after `pre` ends the parser: it is for an x2APIC, its domain or its APIC id is too large,
its CPU is not known, or it is one block too many for its domain.
Source: `sys/acpi.cpp` `parse_srat`
Kind: D -/
def Fails (cpus : List Cpu) (pre : Srat) : Subtable → Prop
  | .cpuAffinity lo apicId flags hi => flags &&& 1 ≠ 0 ∧
      (maxPxmDomains ≤ proxDomain lo hi ∨ maxLocalApic ≤ apicId ∨ ∀ c ∈ cpus, c.apicId ≠ apicId)
  | .memAffinity domain _ _ flags => flags &&& 1 ≠ 0 ∧
      (maxPxmDomains ≤ domain ∨ maxNumaMemblocks ≤ (pre.filterMap (Subtable.pages? domain)).length)
  | .x2apicCpuAffinity => True
  | .other .. => False

/-- The `switch` does not name the type.
Source: `sys/acpi.cpp` `parse_srat`
Kind: D -/
def Subtable.Unnamed : Subtable → Prop
  | .other .. => True
  | _ => False

/-- Before every entry of a type that is not named, there is one that ends the parser.
Source: `sys/acpi.cpp` `parse_srat`
Kind: D -/
def NoneReached (srat : Srat) (cpus : List Cpu) : Prop :=
  ∀ pre e post, srat = pre ++ e :: post → e.Unnamed →
    ∃ pre' e' post', pre = pre' ++ e' :: post' ∧ Fails cpus pre' e'

/-! ## Nodes and domains -/

/-- The nodes are numbered in the order in which their domains came.
Source: `sys/acpi.cpp` `setup_node`
Kind: D -/
structure NodeMaps (doms : List ℕ) (s : State) : Prop where
  nodup : doms.Nodup
  small : ∀ d ∈ doms, d < maxPxmDomains
  pxm : ∀ d node, s.pxmToNode d = some node ↔ doms[node]? = some d
  node : ∀ node, s.nodeToPxm node = doms[node]?
  length : s.numaNodes.length = doms.length

/-- What `setup_node` does with a domain that is not too large.
Source: `sys/acpi.cpp` `setup_node`
Kind: D -/
structure SetUp (doms doms' : List ℕ) (d node : ℕ) (s s' : State) : Prop where
  maps : NodeMaps doms' s'
  own : doms'[node]? = some d
  keeps : ∀ (n d' : ℕ), doms[n]? = some d' → doms'[n]? = some d'
  mem : ∀ d', d' ∈ doms' ↔ d' ∈ doms ∨ d' = d
  old : ∀ n, n < doms.length → s'.numaNodes[n]? = s.numaNodes[n]?
  new : d ∉ doms → s'.numaNodes[node]? = some [] ∧ node = doms.length
  cpus : s'.cpus = s.cpus
  apics : s'.apicToNode = s.apicToNode
  visited : s'.visited = s.visited

variable {doms doms' : List ℕ} {s s' : State} {d node : ℕ}

/-- There is room for the node of one more domain.
Source: `sys/acpi.cpp` `setup_node`
Kind: L -/
theorem NodeMaps.length_lt (h : NodeMaps doms s) (hd : d < maxPxmDomains) (hnew : d ∉ doms) :
    doms.length < maxPxmDomains := by
  have hsub : (d :: doms).toFinset ⊆ Finset.range maxPxmDomains := by
    intro x hx
    rw [List.mem_toFinset, List.mem_cons] at hx
    rcases hx with rfl | hx
    · exact Finset.mem_range.mpr hd
    · exact Finset.mem_range.mpr (h.small x hx)
  have hcard := Finset.card_le_card hsub
  rw [List.toFinset_card_of_nodup (List.nodup_cons.mpr ⟨hnew, h.nodup⟩), Finset.card_range,
    List.length_cons] at hcard
  exact hcard

/-- Source: none: infrastructure. Kind: L -/
theorem getElem?_snoc_eq_some {α : Type*} {l : List α} {a b : α} {n : ℕ} :
    (l ++ [a])[n]? = some b ↔ l[n]? = some b ∨ n = l.length ∧ b = a := by
  rw [List.getElem?_append]
  split
  · rename_i hlt
    exact ⟨Or.inl, fun h => h.resolve_right fun hr => absurd hr.1 hlt.ne⟩
  · rename_i hge
    rw [List.getElem?_eq_none (Nat.le_of_not_lt hge)]
    rcases Nat.eq_or_lt_of_le (Nat.le_of_not_lt hge) with heq | hlt
    · rw [← heq, Nat.sub_self]
      simp [eq_comm]
    · rw [List.getElem?_eq_none (by simp; omega)]
      simp [hlt.ne']

/-- The next node is for a new domain. Source: `sys/acpi.cpp` `setup_node`. Kind: L -/
theorem NodeMaps.snoc (h : NodeMaps doms s) (hd : d < maxPxmDomains) (hnew : d ∉ doms) :
    NodeMaps (doms ++ [d]) { s with
      numaNodes := s.numaNodes ++ [[]]
      pxmToNode := Function.update s.pxmToNode d (some doms.length)
      nodeToPxm := Function.update s.nodeToPxm doms.length (some d) } where
  nodup := List.nodup_append.mpr ⟨h.nodup, List.nodup_singleton d, fun a ha b hb hab =>
    hnew (List.mem_singleton.mp hb ▸ hab ▸ ha)⟩
  small d' hd' := by
    rcases List.mem_append.mp hd' with hd' | hd'
    · exact h.small d' hd'
    · exact List.mem_singleton.mp hd' ▸ hd
  pxm d' n := by
    dsimp only
    rw [getElem?_snoc_eq_some]
    by_cases heq : d' = d
    · subst heq
      rw [Function.update_self, Option.some_inj]
      refine ⟨fun hn => Or.inr ⟨hn.symm, rfl⟩, fun hn => ?_⟩
      rcases hn with hn | ⟨hn, -⟩
      · exact absurd (List.mem_of_getElem? hn) hnew
      · exact hn.symm
    · rw [Function.update_of_ne heq, h.pxm]
      exact ⟨Or.inl, fun hn => hn.resolve_right fun hr => heq hr.2⟩
  node n := by
    dsimp only
    by_cases hn : n = doms.length
    · subst hn
      rw [Function.update_self, List.getElem?_concat_length]
    · rw [Function.update_of_ne hn, h.node]
      rcases Nat.lt_or_ge n doms.length with hlt | hge
      · rw [List.getElem?_append_left hlt]
      · rw [List.getElem?_eq_none hge, List.getElem?_eq_none (by simp; omega)]
  length := by
    dsimp only
    rw [List.length_append, List.length_append, h.length]
    rfl

/-- **A domain has its node**, the one that it had or the next.
Source: `sys/acpi.cpp` `setup_node`
Kind: L -/
theorem setupNode_spec (h : NodeMaps doms s) (hd : d < maxPxmDomains) :
    ∃ node s' doms', setupNode d s = .ok (node, s') ∧ SetUp doms doms' d node s s' := by
  unfold setupNode
  rw [if_neg (Nat.not_le.mpr hd)]
  cases hnode : s.pxmToNode d with
  | some node =>
      have hown := (h.pxm d node).mp hnode
      have hmem := List.mem_of_getElem? hown
      refine ⟨node, s, doms, rfl, h, hown, fun _ _ h => h, fun d' => ?_, fun _ _ => rfl,
        fun hnew => absurd hmem hnew, rfl, rfl, rfl⟩
      exact ⟨Or.inl, fun h => h.elim id fun heq => heq ▸ hmem⟩
  | none =>
      have hnew : d ∉ doms := by
        intro hmem
        obtain ⟨n, hn⟩ := List.getElem?_of_mem hmem
        rw [(h.pxm d n).mpr hn] at hnode
        cases hnode
      have hroom := h.length_lt hd hnew
      dsimp only
      rw [h.length, if_neg (Nat.not_le.mpr hroom)]
      refine ⟨_, _, doms ++ [d], rfl, h.snoc hd hnew, List.getElem?_concat_length,
        fun n d' hn => getElem?_snoc_eq_some.mpr (Or.inl hn), fun d' => ?_, fun n hn => ?_,
        fun _ => ⟨?_, rfl⟩, rfl, rfl, rfl⟩
      · rw [List.mem_append, List.mem_singleton]
      · exact List.getElem?_append_left (h.length.symm ▸ hn)
      · rw [← h.length]
        exact List.getElem?_concat_length

/-! ## CPUs -/

variable {cpus cpus' : List Cpu} {apicId : ℕ}

/-- Source: `sys/acpi.cpp` `parse_srat`. Kind: L -/
theorem setNid_eq_none_iff : setNid apicId node cpus = none ↔ ∀ c ∈ cpus, c.apicId ≠ apicId := by
  induction cpus with
  | nil => exact iff_of_true rfl fun c hc => absurd hc List.not_mem_nil
  | cons c cpus ih =>
      rw [setNid, List.forall_mem_cons]
      split
      · rename_i heq
        exact iff_of_false (by simp) fun h => h.1 heq
      · rename_i hne
        rw [Option.map_eq_none_iff, ih]
        exact ⟨fun h => ⟨hne, h⟩, fun h => h.2⟩

/-- The first CPU with the APIC id gets the node, and no other is touched.
Source: `sys/acpi.cpp` `parse_srat`
Kind: L -/
theorem setNid_spec (h : setNid apicId node cpus = some cpus') :
    cpus'.map Cpu.apicId = cpus.map Cpu.apicId ∧
      (cpus'.find? fun c => c.apicId = apicId).bind Cpu.nid = some node ∧
      ∀ id, id ≠ apicId →
        (cpus'.find? fun c => c.apicId = id) = cpus.find? fun c => c.apicId = id := by
  induction cpus generalizing cpus' with
  | nil => cases h
  | cons c cpus ih =>
      rw [setNid] at h
      split at h
      · rename_i heq
        obtain rfl := Option.some.inj h
        refine ⟨rfl, ?_, fun id hid => ?_⟩
        · rw [List.find?_cons_of_pos (by simpa using heq)]
          rfl
        · have hne : c.apicId ≠ id := fun h => hid (h ▸ heq)
          rw [List.find?_cons_of_neg (by simpa using hne), List.find?_cons_of_neg (by simpa using hne)]
      · rename_i hne
        obtain ⟨rest, hrest, rfl⟩ := Option.map_eq_some_iff.mp h
        obtain ⟨hids, hfound, hothers⟩ := ih hrest
        refine ⟨?_, ?_, fun id hid => ?_⟩
        · rw [List.map_cons, List.map_cons, hids]
        · rw [List.find?_cons_of_neg (by simpa using hne)]
          exact hfound
        · rw [List.find?_cons, List.find?_cons, hothers id hid]

/-! ## One turn -/

/-- The entries `pre` are recorded. Source: `sys/acpi.cpp` `parse_srat`. Kind: D -/
structure Inv (cpus : List Cpu) (pre : Srat) (doms : List ℕ) (s : State) : Prop where
  maps : NodeMaps doms s
  mem : ∀ d, d ∈ doms ↔ ∃ e ∈ pre, e.domain? = some d
  blocks : ∀ (d node : ℕ), doms[node]? = some d → s.numaNodes[node]? = some (pre.blocks d node)
  ids : s.cpus.map Cpu.apicId = cpus.map Cpu.apicId
  cpu : ∀ apicId d, pre.lastDomain? apicId = some d → ∃ node : ℕ, doms[node]? = some d ∧
    s.apicToNode apicId = some node ∧
    (s.cpus.find? fun c => c.apicId = apicId).bind Cpu.nid = some node

variable {pre : Srat} {e : Subtable}

/-- An entry that is for a domain of another, or for none, adds nothing to a domain's blocks.
Source: `sys/acpi.cpp` `parse_srat`
Kind: L -/
theorem pages?_eq_none (h : e.domain? ≠ some d) : e.pages? d = none := by
  cases e with
  | memAffinity domain base length flags =>
      rw [Subtable.pages?]
      rw [Subtable.domain?] at h
      by_cases hflags : flags &&& 1 ≠ 0
      · rw [if_pos hflags] at h
        rw [if_neg fun hc => h (congrArg some hc.2)]
      · rw [if_neg fun hc => hflags hc.1]
  | cpuAffinity => rfl
  | x2apicCpuAffinity => rfl
  | other => rfl

/-- Source: `sys/acpi.cpp` `parse_srat`. Kind: L -/
theorem cpuDomain?_eq_none (h : e.domain? = none) : e.cpuDomain? apicId = none := by
  cases e with
  | cpuAffinity lo id flags hi =>
      rw [Subtable.cpuDomain?]
      rw [Subtable.domain?] at h
      split at h
      · cases h
      · rename_i hflags
        rw [if_neg fun hc => hflags hc.1]
  | memAffinity => rfl
  | x2apicCpuAffinity => rfl
  | other => rfl

/-- A domain that has not come has no blocks. Source: `sys/acpi.cpp` `parse_srat`. Kind: L -/
theorem Inv.blocks_eq_nil (h : Inv cpus pre doms s) (hd : d ∉ doms) : pre.blocks d node = [] := by
  have hnil : pre.filterMap (Subtable.pages? d) = [] :=
    List.filterMap_eq_nil_iff.mpr fun e he =>
      pages?_eq_none fun heq => hd ((h.mem d).mpr ⟨e, he, heq⟩)
  rw [Srat.blocks, hnil]
  rfl

/-- After `setup_node`, the nodes still have the blocks of the entries before.
Source: `sys/acpi.cpp` `setup_node`
Kind: L -/
theorem Inv.blocks_setUp (h : Inv cpus pre doms s) (hs : SetUp doms doms' d node s s') (d' n : ℕ)
    (hn : doms'[n]? = some d') : s'.numaNodes[n]? = some (pre.blocks d' n) := by
  have hunique : ∀ m : ℕ, doms'[m]? = some d' → m = n := fun m hm =>
    Option.some.inj (((hs.maps.pxm d' m).mpr hm).symm.trans ((hs.maps.pxm d' n).mpr hn))
  by_cases hold : d' ∈ doms
  · obtain ⟨m, hm⟩ := List.getElem?_of_mem hold
    obtain rfl := hunique m (hs.keeps m d' hm)
    rw [hs.old m (List.getElem?_eq_some_iff.mp hm).1]
    exact h.blocks d' m hm
  · obtain rfl := ((hs.mem d').mp (List.mem_of_getElem? hn)).resolve_left hold
    obtain rfl := hunique node hs.own
    rw [(hs.new hold).1, h.blocks_eq_nil hold]

/-- The domains after an entry with a domain. Source: `sys/acpi.cpp` `setup_node`. Kind: L -/
theorem Inv.mem_setUp (h : Inv cpus pre doms s) (hs : SetUp doms doms' d node s s')
    (he : e.domain? = some d) (d' : ℕ) : d' ∈ doms' ↔ ∃ e' ∈ pre ++ [e], e'.domain? = some d' := by
  rw [hs.mem, h.mem]
  constructor
  · rintro (⟨e', he', hd'⟩ | rfl)
    · exact ⟨e', List.mem_append_left _ he', hd'⟩
    · exact ⟨e, List.mem_append_right _ (List.mem_singleton_self e), he⟩
  · rintro ⟨e', he', hd'⟩
    rcases List.mem_append.mp he' with he' | he'
    · exact Or.inl ⟨e', he', hd'⟩
    · obtain rfl := List.mem_singleton.mp he'
      exact Or.inr (Option.some.inj (hd'.symm.trans he))

/-- Source: `sys/acpi.cpp` `parse_srat`. Kind: L -/
theorem blocks_snoc (h : e.pages? d = none) : Srat.blocks (pre ++ [e]) d node = pre.blocks d node := by
  rw [Srat.blocks, Srat.blocks, List.filterMap_append, List.filterMap_cons_none h,
    List.filterMap_nil, List.append_nil]

/-- Source: `sys/acpi.cpp` `parse_srat`. Kind: L -/
theorem lastDomain?_snoc (h : e.cpuDomain? apicId = none) :
    Srat.lastDomain? (pre ++ [e]) apicId = pre.lastDomain? apicId := by
  rw [Srat.lastDomain?, Srat.lastDomain?, List.filterMap_append, List.filterMap_cons_none h,
    List.filterMap_nil, List.append_nil]

/-- An entry without a domain changes nothing. Source: `sys/acpi.cpp` `parse_srat`. Kind: L -/
theorem Inv.skip (h : Inv cpus pre doms s) (he : e.domain? = none) :
    Inv cpus (pre ++ [e]) doms s where
  maps := h.maps
  mem d := by
    rw [h.mem]
    constructor
    · rintro ⟨e', he', hd⟩
      exact ⟨e', List.mem_append_left _ he', hd⟩
    · rintro ⟨e', he', hd⟩
      rcases List.mem_append.mp he' with he' | he'
      · exact ⟨e', he', hd⟩
      · rw [List.mem_singleton.mp he', he] at hd
        cases hd
  blocks d node hnode := by
    have hnone : e.pages? d = none := pages?_eq_none (by rw [he]; simp)
    rw [blocks_snoc hnone]
    exact h.blocks d node hnode
  ids := h.ids
  cpu apicId d hlast := by
    rw [lastDomain?_snoc (cpuDomain?_eq_none he)] at hlast
    exact h.cpu apicId d hlast

/-- What a turn does with an entry that the `switch` names.
Source: `sys/acpi.cpp` `parse_srat`
Kind: D -/
def TurnsOver (cpus : List Cpu) (pre : Srat) (s : State) (e : Subtable) : Prop :=
  (Fails cpus pre e → ∃ abort, turn s e = .error abort) ∧
    (¬ Fails cpus pre e → ∃ s' doms', turn s e = .ok (s', e.length) ∧
      Inv cpus (pre ++ [e]) doms' s' ∧ s'.visited = s.visited)

/-- The CPUs keep their APIC ids. Source: `sys/acpi.cpp` `parse_srat`. Kind: L -/
theorem Inv.unknown_iff (h : Inv cpus pre doms s) :
    (∀ c ∈ s.cpus, c.apicId ≠ apicId) ↔ ∀ c ∈ cpus, c.apicId ≠ apicId := by
  have hmem : apicId ∈ s.cpus.map Cpu.apicId ↔ apicId ∈ cpus.map Cpu.apicId := by rw [h.ids]
  rw [List.mem_map, List.mem_map] at hmem
  constructor
  · intro hall c hc heq
    obtain ⟨c', hc', heq'⟩ := hmem.mpr ⟨c, hc, heq⟩
    exact hall c' hc' heq'
  · intro hall c hc heq
    obtain ⟨c', hc', heq'⟩ := hmem.mp ⟨c, hc, heq⟩
    exact hall c' hc' heq'

/-- The CPU of a CPU entry gets its domain's node, also when an entry before was for the same CPU.
Source: `sys/acpi.cpp` `parse_srat`
Kind: L -/
theorem Inv.recordCpu {lo apicId flags : ℕ} {hi : ℕ × ℕ × ℕ} (h : Inv cpus pre doms s)
    (hs : SetUp doms doms' (proxDomain lo hi) node s s') (hflags : flags &&& 1 ≠ 0)
    (hdom : (Subtable.cpuAffinity lo apicId flags hi).domain? = some (proxDomain lo hi))
    (hset : setNid apicId node s.cpus = some cpus') :
    Inv cpus (pre ++ [.cpuAffinity lo apicId flags hi]) doms'
      { s' with apicToNode := Function.update s'.apicToNode apicId (some node), cpus := cpus' } where
  maps := ⟨hs.maps.nodup, hs.maps.small, hs.maps.pxm, hs.maps.node, hs.maps.length⟩
  mem := h.mem_setUp hs hdom
  blocks d n hn := by
    rw [blocks_snoc rfl]
    exact h.blocks_setUp hs d n hn
  ids := (setNid_spec hset).1.trans h.ids
  cpu id d hlast := by
    obtain ⟨-, hfound, hothers⟩ := setNid_spec hset
    by_cases hid : id = apicId
    · -- this entry is the last for its CPU
      subst hid
      have hself : (Subtable.cpuAffinity lo id flags hi).cpuDomain? id = some (proxDomain lo hi) := by
        rw [Subtable.cpuDomain?, if_pos ⟨hflags, rfl⟩]
      rw [Srat.lastDomain?, List.filterMap_append, List.filterMap_cons_some hself,
        List.filterMap_nil, List.getLast?_concat] at hlast
      obtain rfl := Option.some.inj hlast
      exact ⟨node, hs.own, Function.update_self .., hfound⟩
    · have hother : (Subtable.cpuAffinity lo apicId flags hi).cpuDomain? id = none := by
        rw [Subtable.cpuDomain?, if_neg fun hc => hid hc.2.symm]
      rw [lastDomain?_snoc hother] at hlast
      obtain ⟨n, hn, hnode, hcpu⟩ := h.cpu id d hlast
      refine ⟨n, hs.keeps n d hn, ?_, ?_⟩
      · dsimp only
        rw [Function.update_of_ne hid, hs.apics]
        exact hnode
      · dsimp only
        rw [hothers id hid]
        exact hcpu

/-- **A CPU entry.** Source: `sys/acpi.cpp` `parse_srat`. Kind: L -/
theorem turn_cpuAffinity (h : Inv cpus pre doms s) (lo apicId flags : ℕ) (hi : ℕ × ℕ × ℕ) :
    TurnsOver cpus pre s (.cpuAffinity lo apicId flags hi) := by
  unfold TurnsOver
  rw [turn, Fails, Subtable.length]
  by_cases hflags : flags &&& 1 ≠ 0
  · rw [if_pos hflags]
    have hdom : (Subtable.cpuAffinity lo apicId flags hi).domain? = some (proxDomain lo hi) := by
      rw [Subtable.domain?, if_pos hflags]
    by_cases hlarge : maxPxmDomains ≤ proxDomain lo hi
    · refine ⟨fun _ => ?_, fun hno => absurd ⟨hflags, Or.inl hlarge⟩ hno⟩
      rw [setupNode, if_pos hlarge]
      exact ⟨_, rfl⟩
    · obtain ⟨node, s₁, doms', hsetup, hs⟩ := setupNode_spec h.maps (Nat.lt_of_not_le hlarge)
      rw [hsetup]
      dsimp only
      by_cases hapic : maxLocalApic ≤ apicId
      · rw [if_pos hapic]
        exact ⟨fun _ => ⟨_, rfl⟩, fun hno => absurd ⟨hflags, Or.inr (Or.inl hapic)⟩ hno⟩
      · rw [if_neg hapic, hs.cpus]
        cases hset : setNid apicId node s.cpus with
        | none =>
            have hunknown := h.unknown_iff.mp (setNid_eq_none_iff.mp hset)
            exact ⟨fun _ => ⟨_, rfl⟩,
              fun hno => absurd ⟨hflags, Or.inr (Or.inr hunknown)⟩ hno⟩
        | some cpus' =>
            constructor
            · rintro ⟨-, hbad | hbad | hbad⟩
              · exact absurd hbad hlarge
              · exact absurd hbad hapic
              · rw [setNid_eq_none_iff.mpr (h.unknown_iff.mpr hbad)] at hset
                cases hset
            · intro _
              exact ⟨_, doms', rfl, h.recordCpu hs hflags hdom hset, hs.visited⟩
  · rw [if_neg hflags]
    refine ⟨fun hbad => absurd hbad.1 hflags, fun _ => ⟨s, doms, rfl, h.skip ?_, rfl⟩⟩
    rw [Subtable.domain?, if_neg hflags]

/-- The block of a memory entry is added to its domain's node.
Source: `sys/acpi.cpp` `parse_srat`
Kind: L -/
theorem Inv.recordBlock (h : Inv cpus pre doms s) (hs : SetUp doms doms' d node s s')
    (hdom : e.domain? = some d) {start stop : ℕ} (hpages : e.pages? d = some (start, stop))
    (hcpu : ∀ id, e.cpuDomain? id = none) :
    Inv cpus (pre ++ [e]) doms'
      { s' with numaNodes := s'.numaNodes.modify node (· ++ [⟨start, stop, node⟩]) } where
  maps := ⟨hs.maps.nodup, hs.maps.small, hs.maps.pxm, hs.maps.node, by
    dsimp only
    rw [List.length_modify]
    exact hs.maps.length⟩
  mem := h.mem_setUp hs hdom
  blocks d' n hn := by
    have hold := h.blocks_setUp hs d' n hn
    dsimp only
    by_cases hnode : node = n
    · subst hnode
      obtain rfl : d = d' := Option.some.inj (hs.own.symm.trans hn)
      rw [List.getElem?_modify_eq, hold, Srat.blocks, Srat.blocks, List.filterMap_append,
        List.filterMap_cons_some hpages, List.filterMap_nil, List.map_append]
      rfl
    · have hne : e.pages? d' = none := by
        refine pages?_eq_none fun heq => hnode ?_
        obtain rfl := Option.some.inj (hdom.symm.trans heq)
        exact Option.some.inj (((hs.maps.pxm d node).mpr hs.own).symm.trans
          ((hs.maps.pxm d n).mpr hn))
      rw [List.getElem?_modify_ne _ _ hnode, hold, blocks_snoc hne]
  ids := by
    dsimp only
    rw [hs.cpus]
    exact h.ids
  cpu id d' hlast := by
    rw [lastDomain?_snoc (hcpu id)] at hlast
    obtain ⟨n, hn, hnode, hfound⟩ := h.cpu id d' hlast
    dsimp only
    rw [hs.cpus, hs.apics]
    exact ⟨n, hs.keeps n d' hn, hnode, hfound⟩

/-- **A memory entry.** Source: `sys/acpi.cpp` `parse_srat`. Kind: L -/
theorem turn_memAffinity (h : Inv cpus pre doms s) (domain base length flags : ℕ) :
    TurnsOver cpus pre s (.memAffinity domain base length flags) := by
  unfold TurnsOver
  rw [turn, Fails, Subtable.length]
  by_cases hflags : flags &&& 1 ≠ 0
  · rw [if_pos hflags]
    have hdom : (Subtable.memAffinity domain base length flags).domain? = some domain := by
      rw [Subtable.domain?, if_pos hflags]
    have hpages : (Subtable.memAffinity domain base length flags).pages? domain
        = some (pfnDown base, pfnUp ((base + length) % word)) := by
      rw [Subtable.pages?, if_pos ⟨hflags, rfl⟩]
    by_cases hlarge : maxPxmDomains ≤ domain
    · refine ⟨fun _ => ?_, fun hno => absurd ⟨hflags, Or.inl hlarge⟩ hno⟩
      rw [setupNode, if_pos hlarge]
      exact ⟨_, rfl⟩
    · obtain ⟨node, s₁, doms', hsetup, hs⟩ := setupNode_spec h.maps (Nat.lt_of_not_le hlarge)
      have hlen : (s₁.numaNodes.getD node []).length
          = (pre.filterMap (Subtable.pages? domain)).length := by
        rw [List.getD_eq_getElem?_getD, h.blocks_setUp hs domain node hs.own, Option.getD_some,
          Srat.blocks, List.length_map]
      rw [hsetup]
      dsimp only
      rw [addMemblock, hlen]
      by_cases hfull : maxNumaMemblocks ≤ (pre.filterMap (Subtable.pages? domain)).length
      · rw [if_pos hfull]
        exact ⟨fun _ => ⟨_, rfl⟩, fun hno => absurd ⟨hflags, Or.inr hfull⟩ hno⟩
      · rw [if_neg hfull]
        refine ⟨fun hbad => absurd hbad.2 (not_or.mpr ⟨hlarge, hfull⟩), fun _ => ?_⟩
        exact ⟨_, doms', rfl, h.recordBlock hs hdom hpages fun _ => rfl, hs.visited⟩
  · rw [if_neg hflags]
    refine ⟨fun hbad => absurd hbad.1 hflags, fun _ => ⟨s, doms, rfl, h.skip ?_, rfl⟩⟩
    rw [Subtable.domain?, if_neg hflags]

/-- **One turn** of the loop, at an entry that the `switch` names.
Source: `sys/acpi.cpp` `parse_srat`
Kind: L -/
theorem turn_spec (h : Inv cpus pre doms s) (he : ¬ e.Unnamed) : TurnsOver cpus pre s e := by
  cases e with
  | cpuAffinity lo apicId flags hi => exact turn_cpuAffinity h lo apicId flags hi
  | memAffinity domain base length flags => exact turn_memAffinity h domain base length flags
  | x2apicCpuAffinity => exact ⟨fun _ => ⟨_, rfl⟩, fun hno => absurd trivial hno⟩
  | other type length unnamed => exact absurd trivial he

/-! ## The loop -/

/-- The invariant does not look at the record of the offsets. Source: none: infrastructure. Kind: L -/
theorem Inv.visit (h : Inv cpus pre doms s) (visited : List ℕ) :
    Inv cpus pre doms { s with visited := visited } :=
  ⟨⟨h.maps.nodup, h.maps.small, h.maps.pxm, h.maps.node, h.maps.length⟩, h.mem, h.blocks, h.ids,
    h.cpu⟩

/-- Where the entry after `pre` starts. Source: `sys/acpi.cpp` `parse_srat`. Kind: L -/
theorem subtableFrom_append {post : Srat} (start : ℕ) (hpos : ∀ e' ∈ pre, 0 < e'.length) :
    subtableFrom (start + (pre.map Subtable.length).sum) start (pre ++ e :: post) = some e := by
  have hrun : ∀ (pre : Srat) (offset start : ℕ), (∀ e' ∈ pre, 0 < e'.length) →
      offset = start + (pre.map Subtable.length).sum →
      subtableFrom offset start (pre ++ e :: post) = some e := by
    intro pre
    induction pre with
    | nil =>
        rintro offset start - rfl
        rw [List.nil_append, subtableFrom, if_pos rfl]
    | cons e' pre ih =>
        intro offset start hpos hoffset
        obtain ⟨h0, hrest⟩ := List.forall_mem_cons.mp hpos
        rw [List.map_cons, List.sum_cons] at hoffset
        rw [List.cons_append, subtableFrom, if_neg (by omega)]
        exact ih offset (start + e'.length) hrest (by omega)
  exact hrun pre _ start hpos rfl

/-- Source: `sys/acpi.cpp` `parse_srat`. Kind: L -/
theorem offsetsFrom_snoc (start : ℕ) (pre : Srat) (e : Subtable) :
    offsetsFrom start (pre ++ [e])
      = offsetsFrom start pre ++ [start + (pre.map Subtable.length).sum] := by
  induction pre generalizing start with
  | nil => rfl
  | cons e' pre ih =>
      rw [List.cons_append, offsetsFrom, ih, offsetsFrom, List.map_cons, List.sum_cons,
        List.cons_append, Nat.add_assoc]

/-- The offset after `pre`. Source: `sys/acpi.cpp` `parse_srat`. Kind: D -/
def Srat.offset (pre : Srat) : ℕ := sizeofTableSrat + (pre.map Subtable.length).sum

variable {srat post : Srat}

/-- One more turn of the loop, at the entry after `pre`.
Source: `sys/acpi.cpp` `parse_srat`
Kind: L -/
theorem parseLoop_succ (hsrat : srat = pre ++ e :: post) (hpos : ∀ e ∈ srat, 0 < e.length)
    (fuel : ℕ) (s : State) :
    parseLoop srat (fuel + 1) (Srat.offset pre) s =
      match turn { s with visited := s.visited ++ [Srat.offset pre] } e with
      | .error abort => some (.error abort)
      | .ok (s', n) => parseLoop srat fuel (Srat.offset pre + n) s' := by
  subst hsrat
  obtain ⟨hpre, hrest⟩ := List.forall_mem_append.mp hpos
  have he := hrest e List.mem_cons_self
  have hlt : Srat.offset pre < Srat.len (pre ++ e :: post) := by
    unfold Srat.offset Srat.len
    rw [List.map_append, List.map_cons, List.sum_append, List.sum_cons]
    omega
  have hat : Srat.at (pre ++ e :: post) (Srat.offset pre) = some e :=
    subtableFrom_append sizeofTableSrat hpre
  rw [parseLoop, if_pos hlt, hat]

/-- At an entry of a type that is not named, the loop stays.
Source: `sys/acpi.cpp` `parse_srat`
Kind: L -/
theorem parseLoop_unnamed (hsrat : srat = pre ++ e :: post) (hpos : ∀ e ∈ srat, 0 < e.length)
    (he : e.Unnamed) (fuel : ℕ) (s : State) : parseLoop srat fuel (Srat.offset pre) s = none := by
  induction fuel generalizing s with
  | zero => rfl
  | succ fuel ih =>
      rw [parseLoop_succ hsrat hpos]
      cases e with
      | other type length unnamed => exact ih _
      | cpuAffinity => exact absurd he id
      | memAffinity => exact absurd he id
      | x2apicCpuAffinity => exact absurd he id

/-- After `pre`, the loop gets to an entry of a type that is not named.
Source: `sys/acpi.cpp` `parse_srat`
Kind: D -/
def Stuck (cpus : List Cpu) : Srat → Srat → Prop
  | _, [] => False
  | pre, e :: rest => e.Unnamed ∨ ¬ Fails cpus pre e ∧ Stuck cpus (pre ++ [e]) rest

/-- Source: `sys/acpi.cpp` `parse_srat`. Kind: L -/
theorem stuck_iff (pre rest : Srat) : Stuck cpus pre rest ↔
    ∃ mid e post, rest = mid ++ e :: post ∧ e.Unnamed ∧
      ∀ mid' e' post', mid = mid' ++ e' :: post' → ¬ Fails cpus (pre ++ mid') e' := by
  induction rest generalizing pre with
  | nil =>
      refine iff_of_false id ?_
      rintro ⟨mid, e, post, h, -⟩
      exact absurd h (by simp)
  | cons e rest ih =>
      rw [Stuck, ih]
      constructor
      · rintro (he | ⟨hfail, mid, e', post, rfl, he', hnone⟩)
        · refine ⟨[], e, rest, rfl, he, fun mid' e' post' h => ?_⟩
          exact absurd h (by simp)
        · refine ⟨e :: mid, e', post, rfl, he', fun mid' e'' post' h => ?_⟩
          cases mid' with
          | nil =>
              obtain ⟨rfl, -⟩ := List.cons.inj h
              rwa [List.append_nil]
          | cons a mid' =>
              obtain ⟨rfl, htail⟩ := List.cons.inj h
              have := hnone mid' e'' post' htail
              rwa [List.append_assoc, List.singleton_append] at this
      · rintro ⟨mid, e', post, h, he', hnone⟩
        cases mid with
        | nil =>
            obtain ⟨rfl, -⟩ := List.cons.inj h
            exact Or.inl he'
        | cons a mid =>
            obtain ⟨rfl, rfl⟩ := List.cons.inj h
            have hfirst := hnone [] e mid rfl
            rw [List.append_nil] at hfirst
            refine Or.inr ⟨hfirst, mid, e', post, rfl, he', fun mid' e'' post' h => ?_⟩
            rw [List.append_assoc, List.singleton_append]
            exact hnone (e :: mid') e'' post' (by rw [h, List.cons_append])

/-- What the loop comes to from the entry after `pre` on.
Source: `sys/acpi.cpp` `parse_srat`
Kind: D -/
structure Outcome (srat : Srat) (cpus : List Cpu) (pre rest : Srat) (s : State) : Prop where
  stays : Stuck cpus pre rest → ∀ fuel, parseLoop srat fuel (Srat.offset pre) s = none
  ends : ¬ Stuck cpus pre rest → ∃ fuel r, parseLoop srat fuel (Srat.offset pre) s = some r
  records : ∀ fuel s', parseLoop srat fuel (Srat.offset pre) s = some (.ok s') →
    ∃ doms, Inv cpus srat doms s' ∧ s'.visited = offsetsFrom sizeofTableSrat srat

/-- **The whole loop**, by induction on the entries that are left.
Source: `sys/acpi.cpp` `parse_srat`
Kind: L -/
theorem outcome (rest : Srat) (hpos : ∀ e ∈ srat, 0 < e.length) :
    ∀ pre doms s, srat = pre ++ rest → Inv cpus pre doms s →
      s.visited = offsetsFrom sizeofTableSrat pre → Outcome srat cpus pre rest s := by
  induction rest with
  | nil =>
      intro pre doms s hsrat hinv hvisited
      rw [List.append_nil] at hsrat
      subst hsrat
      have hend : ¬ Srat.offset srat < srat.len := Nat.lt_irrefl _
      have hloop : ∀ fuel, parseLoop srat (fuel + 1) (Srat.offset srat) s = some (.ok s) :=
        fun fuel => by rw [parseLoop, if_neg hend]
      refine ⟨fun h => absurd h id, fun _ => ⟨1, _, hloop 0⟩, fun fuel s' h => ?_⟩
      cases fuel with
      | zero => cases h
      | succ fuel =>
          obtain rfl := Except.ok.inj (Option.some.inj ((hloop fuel).symm.trans h))
          exact ⟨doms, hinv, hvisited⟩
  | cons e rest ih =>
      intro pre doms s hsrat hinv hvisited
      by_cases hunnamed : e.Unnamed
      · have hnone := parseLoop_unnamed hsrat hpos hunnamed
        exact ⟨fun _ fuel => hnone fuel s, fun h => absurd (Or.inl hunnamed) h,
          fun fuel s' h => absurd ((hnone fuel s).symm.trans h) (by simp)⟩
      · have hloop := fun fuel => parseLoop_succ hsrat hpos fuel s
        obtain ⟨hbad, hgood⟩ := turn_spec (hinv.visit (s.visited ++ [Srat.offset pre])) hunnamed
        by_cases hfail : Fails cpus pre e
        · obtain ⟨abort, habort⟩ := hbad hfail
          rw [habort] at hloop
          refine ⟨fun h => absurd hfail (h.resolve_left hunnamed).1, fun _ => ⟨1, _, hloop 0⟩,
            fun fuel s' h => ?_⟩
          cases fuel with
          | zero => cases h
          | succ fuel =>
              rw [hloop] at h
              cases h
        · obtain ⟨s₁, doms', hturn, hinv₁, hvisited₁⟩ := hgood hfail
          rw [hturn] at hloop
          have hoffset : Srat.offset pre + e.length = Srat.offset (pre ++ [e]) := by
            unfold Srat.offset
            rw [List.map_append, List.sum_append, List.map_singleton, List.sum_singleton,
              Nat.add_assoc]
          dsimp only at hloop
          rw [hoffset] at hloop
          have hnext := ih (pre ++ [e]) doms' s₁ (by rw [hsrat, List.append_assoc]; rfl) hinv₁
            (by rw [hvisited₁, hvisited, offsetsFrom_snoc]; rfl)
          refine ⟨fun h fuel => ?_, fun h => ?_, fun fuel s' h => ?_⟩
          · cases fuel with
            | zero => rfl
            | succ fuel =>
                rw [hloop]
                exact hnext.stays (h.resolve_left hunnamed).2 fuel
          · obtain ⟨fuel, r, hr⟩ := hnext.ends fun hstuck => h (Or.inr ⟨hfail, hstuck⟩)
            exact ⟨fuel + 1, r, (hloop fuel).trans hr⟩
          · cases fuel with
            | zero => cases h
            | succ fuel =>
                rw [hloop] at h
                exact hnext.records fuel s' h

/-- Before the first entry nothing is recorded. Source: `sys/acpi.cpp` `acpi_boot_init`. Kind: L -/
theorem inv_init (cpus : List Cpu) : Inv cpus [] [] (State.init cpus) where
  maps := ⟨List.nodup_nil, fun d hd => absurd hd List.not_mem_nil,
    fun d node => iff_of_false (fun h => by cases h) (fun h => by cases h), fun _ => rfl, rfl⟩
  mem d := iff_of_false List.not_mem_nil fun ⟨_, he, _⟩ => List.not_mem_nil he
  blocks d node h := by cases h
  ids := rfl
  cpu apicId d h := by cases h

/-- What is recorded at the end. Source: `sys/acpi.cpp` `parse_srat`. Kind: L -/
theorem Inv.recorded (h : Inv cpus srat doms s)
    (hvisited : s.visited = offsetsFrom sizeofTableSrat srat) : Recorded srat s where
  visited := hvisited
  assigned d := by
    rw [← h.mem]
    constructor
    · rintro ⟨node, hnode⟩
      exact List.mem_of_getElem? ((h.maps.pxm d node).mp hnode)
    · intro hd
      obtain ⟨node, hnode⟩ := List.getElem?_of_mem hd
      exact ⟨node, (h.maps.pxm d node).mpr hnode⟩
  blocks d node hnode := h.blocks d node ((h.maps.pxm d node).mp hnode)
  cpu apicId d hlast := by
    obtain ⟨node, hnode, hapic, hfound⟩ := h.cpu apicId d hlast
    exact ⟨node, (h.maps.pxm d node).mpr hnode, hapic, hfound⟩
  inverse d node := by rw [h.maps.pxm, h.maps.node]
  count := by
    have hset : (srat.filterMap Subtable.domain?).toFinset = doms.toFinset := by
      ext d
      rw [List.mem_toFinset, List.mem_toFinset, List.mem_filterMap, h.mem]
    rw [hset, List.toFinset_card_of_nodup h.maps.nodup, h.maps.length]

/-- **The parser is right exactly when** no entry of a type that the `switch` does not name is reached.
Source: `sys/acpi.cpp` `parse_srat`
Kind: P
Fidelity: a subtable is a record of its fields, not its bytes
Hyps: `hpos`: a header's length is not zero -/
theorem parseSrat_exactlyWhen (srat : Srat) (cpus : List Cpu) (hpos : ∀ e ∈ srat, 0 < e.length) :
    Parses srat cpus ↔ NoneReached srat cpus := by
  have hout := outcome srat hpos [] [] _ rfl (inv_init cpus) rfl
  have hreached : NoneReached srat cpus ↔ ¬ Stuck cpus [] srat := by
    rw [stuck_iff]
    constructor
    · rintro hnone ⟨pre, e, post, hsrat, he, hno⟩
      obtain ⟨pre', e', post', hpre, hfail⟩ := hnone pre e post hsrat he
      exact hno pre' e' post' hpre (by rwa [List.nil_append])
    · intro hno pre e post hsrat he
      by_contra hnone
      refine hno ⟨pre, e, post, hsrat, he, fun mid' e' post' hmid hfail => hnone ?_⟩
      exact ⟨mid', e', post', hmid, by rwa [List.nil_append] at hfail⟩
  rw [hreached]
  constructor
  · rintro ⟨⟨fuel, r, hr⟩, -⟩ hstuck
    have hnone : parseSrat srat cpus fuel = none := hout.stays hstuck fuel
    rw [hnone] at hr
    cases hr
  · intro hno
    refine ⟨hout.ends hno, fun fuel s hs => ?_⟩
    obtain ⟨doms, hinv, hvisited⟩ := hout.records fuel s hs
    exact hinv.recorded hvisited

/-- The CPUs of the enabled entries are known.
Source: `sys/acpi.cpp` `parse_srat`
Kind: D -/
def KnownCpus (srat : Srat) (cpus : List Cpu) : Prop :=
  ∀ e ∈ srat, ∀ apicId, e.cpuDomain? apicId ≠ none → ∃ c ∈ cpus, c.apicId = apicId

/-- A memory entry, and then one of a type that the `switch` does not name: the loop stays there.
Source: `sys/acpi.cpp` `parse_srat`
Kind: P -/
theorem not_parses_unnamed : ¬ ∀ (srat : Srat) (cpus : List Cpu), (∀ e ∈ srat, 0 < e.length) →
    KnownCpus srat cpus → Parses srat cpus := by
  intro hclaim
  have hpos : ∀ e ∈ [Subtable.memAffinity 0 0 (2 ^ 27) 1, .other 3 18 (by decide)], 0 < e.length := by decide
  have hknown : KnownCpus [.memAffinity 0 0 (2 ^ 27) 1, .other 3 18 (by decide)] [⟨0, none⟩] := by
    intro e he apicId hne
    rcases List.mem_pair.mp he with rfl | rfl <;> exact absurd rfl hne
  obtain ⟨⟨fuel, r, hr⟩, -⟩ := hclaim _ _ hpos hknown
  have hstuck : Stuck [⟨0, none⟩] [] [.memAffinity 0 0 (2 ^ 27) 1, .other 3 18 (by decide)] :=
    Or.inr ⟨by rintro ⟨-, h⟩; revert h; decide, Or.inl trivial⟩
  have hnone := (outcome _ hpos [] [] _ rfl (inv_init [⟨0, none⟩]) rfl).stays hstuck fuel
  rw [parseSrat] at hr
  exact absurd (hnone.symm.trans hr) (by simp)

/-- A CPU and 128 MiB of memory, in one domain. Source: `sys/acpi.cpp` `parse_srat`. Kind: P -/
theorem parses_pair :
    Parses [.cpuAffinity 0 0 1 (0, 0, 0), .memAffinity 0 0 (2 ^ 27) 1] [⟨0, none⟩] := by
  refine (parseSrat_exactlyWhen _ _ (by decide)).mpr fun pre e post hsrat he => ?_
  have hmem : e ∈ [Subtable.cpuAffinity 0 0 1 (0, 0, 0), .memAffinity 0 0 (2 ^ 27) 1] :=
    hsrat ▸ List.mem_append_right pre List.mem_cons_self
  rcases List.mem_pair.mp hmem with rfl | rfl <;> exact absurd he id

end Acpi

end EbbRT
