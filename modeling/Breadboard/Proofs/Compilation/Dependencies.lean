import Breadboard.Proofs.Compilation.Internals
import Breadboard.Proofs.Text.NameOrder

namespace Breadboard.Netlist

open Relation

/-- A listed pin, or a gate behind the listed outputs. -/
def Between (nl : Netlist Gate) (inputs outputs : List NodeId) (id : NodeId) : Prop :=
  id ∈ inputs ∨ id ∈ outputs ∨ nl.Behind outputs id

/-- A netlist has one copy of each node between two lists of pins, and no other node. The pins are
in list order, and no gate is out of reach of the outputs. -/
structure HoldsBetween (nl part : Netlist Gate) (inputs outputs : List NodeId)
    (f : NodeId → NodeId) : Prop where
  embeds : nl.Embeds part (nl.Between inputs outputs) f
  live : ∀ id', part.isLive id' = true ↔ ∃ id, nl.Between inputs outputs id ∧ f id = id'
  kind : ∀ id, nl.Between inputs outputs id →
    ∃ index, part.kind? (f id) = (nl.kind? id).map (·.withIndex index)
  inputs : part.inputs = inputs.map f
  outputs : part.outputs = outputs.map f
  behind : ∀ id', part.IsGate id' → part.Behind part.outputs id'

variable {nl part : Netlist Gate} {name : String} {inputs outputs nodes ids : List NodeId}
  {metadata : Metadata} {g : Gate}

section dependencies

theorem mem_gateNames {dep : String} :
    dep ∈ nl.gateNames ids ↔
      ∃ id ∈ ids, ∃ placed, nl.role? id = some (.gate placed) ∧ placed.name = dep := by
  rw [gateNames, mem_eraseReps, List.mem_mergeSort, List.mem_map]
  simp only [List.mem_filterMap, gate?_eq_some_iff]
  constructor
  · rintro ⟨placed, ⟨id, hid, hr⟩, hname⟩
    exact ⟨id, hid, placed, hr, hname⟩
  · rintro ⟨id, hid, placed, hr, hname⟩
    exact ⟨placed, ⟨id, hid, hr⟩, hname⟩

theorem gateNames_ascend (nl : Netlist Gate) (ids : List NodeId) :
    (nl.gateNames ids).Pairwise (· < ·) := by
  refine ascend_eraseReps ((List.pairwise_mergeSort ?_ ?_ _).imp of_decide_eq_true)
  · intro a b c hab hbc
    exact decide_eq_true ((of_decide_eq_true hab).trans (of_decide_eq_true hbc))
  · intro a b
    rw [Bool.or_eq_true, decide_eq_true_iff, decide_eq_true_iff]
    exact le_total a b

theorem dependencies_tabledGate {islands : List Island}
    (hg : (nl.tabledGate name inputs outputs metadata islands).value = .ok g) :
    g.dependencies = nl.gateNames (islands.flatMap (·.nodes)) := by
  unfold tabledGate at hg
  dsimp only at hg
  split at hg
  · cases hg
  · obtain rfl := Except.ok.inj hg
    simp [Gate.dependencies]

theorem dependencies_hierarchicalGate
    (hg : nl.hierarchicalGate name inputs outputs metadata = .ok g) :
    ∃ nodes, nl.closure inputs outputs = .ok nodes ∧ g.dependencies = nl.gateNames nodes := by
  unfold hierarchicalGate at hg
  split at hg
  · cases hg
  · next nodes hc =>
    split at hg
    · cases hg
    · obtain rfl := Except.ok.inj hg
      refine ⟨nodes, hc, ?_⟩
      simp [Gate.dependencies, Named.get?_insert, Metadata.dependencies, Metadata.internalNodes]

/-- All islands together have what lies behind the outputs. -/
theorem IslandsOf.mem_nodes {islands : List Island} {id : NodeId}
    (hi : nl.IslandsOf inputs outputs outputs islands) :
    id ∈ islands.flatMap (·.nodes) ↔ nl.Behind outputs id := by
  rw [List.mem_flatMap]
  constructor
  · rintro ⟨island, hm, hid⟩
    have he := hi.exact island hm
    exact ((he.nodes id).1 hid).mono he.outputs_listed.subset
  · rintro ⟨hg, o, ho, hp⟩
    obtain ⟨island, hm, hio⟩ := (hi.produced o).1 ho
    exact ⟨island, hm, ((hi.exact island hm).nodes id).2 ⟨hg, o, hio, hp⟩⟩

/-- A closed list has the listed pins and what lies behind the outputs. -/
theorem ClosedList.mem_iff (h : nl.ClosedList inputs outputs nodes) {id : NodeId} :
    id ∈ nodes ↔ nl.Between inputs outputs id := by
  refine ⟨h.mem_cases, ?_⟩
  obtain ⟨rest, rfl, -⟩ := h.boundary
  rintro (hid | hid | ⟨-, o, ho, hp⟩)
  · simp [hid]
  · simp [hid]
  · have hmem : o ∈ inputs ++ outputs ++ rest := by simp [ho]
    induction hp with
    | single hr => exact h.closed hmem hr
    | tail _ hr ih => exact h.closed ih hr

theorem Between.behind (hb : nl.checkBoundary inputs outputs = .ok ()) {id : NodeId}
    (h : nl.Between inputs outputs id) (hg : nl.IsGate id) : nl.Behind outputs id := by
  obtain ⟨⟨hin, -⟩, hout, -⟩ := checkBoundary_eq_ok hb
  rcases h with hid | hid | hid
  · exact absurd (hin id hid) hg.role?_ne_input
  · exact absurd (hout id hid) hg.role?_ne_output
  · exact hid

/-- Both forms of a compiled gate list the names of the gates behind the outputs. -/
theorem dependencies_compileBetween (hw : nl.WellFormed)
    (hg : (nl.compileBetween name inputs outputs metadata).value = .ok g) :
    ∃ ids, g.dependencies = nl.gateNames ids ∧
      ∀ id, nl.IsGate id → (id ∈ ids ↔ nl.Behind outputs id) := by
  obtain ⟨hb, ⟨islands, hd, ht⟩ | hh⟩ := compileBetween_cases hg
  · exact ⟨_, dependencies_tabledGate ht, fun id _ => (hw.islandsOf_decompose hd).mem_nodes⟩
  · obtain ⟨nodes, hc, hdeps⟩ := dependencies_hierarchicalGate hh
    have hclosed := closure_eq_ok hw hb hc
    refine ⟨nodes, hdeps, fun id hgate => hclosed.mem_iff.trans ?_⟩
    exact ⟨fun h => h.behind hb hgate, fun h => .inr (.inr h)⟩

end dependencies

/-- The copy of a node is of its kind, but for the index of a pin. -/
theorem kind?_extract (hw : nl.WellFormed) (hn : nodes.Nodup)
    (hl : ∀ id ∈ nodes, nl.isLive id = true) {copies : Copies}
    (he : nl.extract nodes = .ok (part, copies)) {id : NodeId} (hid : id ∈ nodes) :
    ∃ index, part.kind? (nodes.idxOf id) = (nl.kind? id).map (·.withIndex index) := by
  obtain ⟨copies', target, hc, he'⟩ := extract_of_copySet hw (copySet_eq_self hn hl)
  obtain ⟨rfl, -⟩ := Prod.mk.inj (Except.ok.inj (he.symm.trans he'))
  obtain ⟨node, index, hnode, hcopy⟩ := hc.node?_wired hc.copiedLinks_innerLinks hid
  rw [copyPlace_empty] at hcopy
  refine ⟨index, ?_⟩
  rw [kind?, hcopy, kind?, hnode]
  rfl

/-- A closed list that is extracted is all there is in the new netlist. -/
theorem ClosedList.holdsBetween (hw : nl.WellFormed)
    (hb : nl.checkBoundary inputs outputs = .ok ()) (h : nl.ClosedList inputs outputs nodes)
    {copies : Copies} (he : nl.extract nodes = .ok (part, copies)) :
    nl.HoldsBetween part inputs outputs nodes.idxOf := by
  have hlive := h.isLive hb
  obtain ⟨part', copies', he', hx⟩ := extract_eq_ok hw h.nodup hlive
  obtain ⟨rfl, -⟩ := Prod.mk.inj (Except.ok.inj (he.symm.trans he'))
  obtain ⟨hinputs, houtputs⟩ := filter_boundary hb h
  have hmem : (· ∈ nodes) = nl.Between inputs outputs := funext fun id => propext h.mem_iff
  have hembeds : nl.Embeds part (nl.Between inputs outputs) nodes.idxOf := hmem ▸ hx.embeds h.closed
  have hin : part.inputs = inputs.map nodes.idxOf := by rw [hx.inputs, hinputs]
  have hout : part.outputs = outputs.map nodes.idxOf := by rw [hx.outputs, houtputs]
  have hall : ∀ id', part.isLive id' = true ↔
      ∃ id, nl.Between inputs outputs id ∧ nodes.idxOf id = id' := by
    intro id'
    constructor
    · intro hl
      obtain ⟨node, hnode⟩ := isLive_iff.1 hl
      have hlt : id' < nodes.length := next_extract h.nodup hlive he ▸ lt_next_of_node? hnode
      exact ⟨nodes[id'], h.mem_iff.1 (List.getElem_mem hlt), h.nodup.idxOf_getElem id' hlt⟩
    · rintro ⟨id, hid, rfl⟩
      rw [hembeds.isLive hid]
      exact hlive id (h.mem_iff.2 hid)
  refine ⟨hembeds, hall, fun id hid => kind?_extract hw h.nodup hlive he (h.mem_iff.2 hid),
    hin, hout, ?_⟩
  intro id' hgate'
  have hl : part.isLive id' = true := by
    rw [isLive_eq_isSome_role?, Option.isSome_iff_ne_none]
    exact hgate'.role?_ne_none
  obtain ⟨id, hid, rfl⟩ := (hall id').1 hl
  rw [hout]
  refine (hembeds.behind_iff fun o ho => .inr (.inl ho)).2 ⟨id, hid, ?_, rfl⟩
  exact hid.behind hb ((hembeds.isGate hid).1 hgate')

/-- A compiled gate depends on the types of the gates behind the listed outputs, each listed once
and in the order of bytes, whatever the metadata says and whichever form the gate has. In an
internal netlist there is one copy of each of these gates, and of each listed pin, and nothing
else. -/
theorem Reachable.dependencies_exact (hr : nl.Reachable)
    (hg : (nl.compileBetween name inputs outputs metadata).value = .ok g) :
    (g.dependencies.map Text.bytes).Pairwise (· < ·) ∧
    (∀ dep, dep ∈ g.dependencies ↔
      ∃ id placed, nl.Behind outputs id ∧ nl.role? id = some (.gate placed) ∧
        placed.name = dep) ∧
    ∀ part, g.logic = .hierarchical part → ∃ f, nl.HoldsBetween part inputs outputs f := by
  have hw := hr.wellFormed
  obtain ⟨ids, hdeps, hbehind⟩ := dependencies_compileBetween hw hg
  refine ⟨?_, ?_, ?_⟩
  · rw [hdeps, List.pairwise_map]
    exact (nl.gateNames_ascend ids).imp Text.bytes_lt_bytes
  · intro dep
    rw [hdeps, mem_gateNames]
    constructor
    · rintro ⟨id, hid, placed, hrole, hname⟩
      exact ⟨id, placed, (hbehind id ⟨placed, hrole⟩).1 hid, hrole, hname⟩
    · rintro ⟨id, placed, hid, hrole, hname⟩
      exact ⟨id, (hbehind id ⟨placed, hrole⟩).2 hid, placed, hrole, hname⟩
  · intro part hlogic
    obtain ⟨hb, -⟩ := compileBetween_cases hg
    obtain ⟨nodes, copies, hclosed, he⟩ := internals_compileBetween hw hg hlogic
    exact ⟨_, hclosed.holdsBetween hw hb he⟩

/-- The gate on the loop is the one dependency, and it is in the internal netlist. -/
theorem dependencies_exact_latch :
    ∃ g part f, (latch.compileBetween "LATCH" [0] [1] ⟨[("dependencies", .null)]⟩).value = .ok g ∧
      (∀ dep, dep ∈ g.dependencies ↔ ∃ id placed, latch.Behind [1] id ∧
        latch.role? id = some (.gate placed) ∧ placed.name = dep) ∧
      g.dependencies = ["OR"] ∧ g.logic = .hierarchical part ∧
      latch.HoldsBetween part [0] [1] f := by
  have hcompiled : (latch.compileBetween "LATCH" [0] [1] ⟨[("dependencies", .null)]⟩).value.map
      (fun g => (g.dependencies, g.isHierarchical)) = .ok (["OR"], true) := by cbv
  cases hg : (latch.compileBetween "LATCH" [0] [1] ⟨[("dependencies", .null)]⟩).value with
  | error cause =>
    rw [hg] at hcompiled
    cases hcompiled
  | ok g =>
    rw [hg] at hcompiled
    obtain ⟨hdeps, hform⟩ := Prod.mk.inj (Except.ok.inj hcompiled)
    obtain ⟨-, hmem, hinternal⟩ := reachable_latch.dependencies_exact hg
    cases hlogic : g.logic with
    | primitive cell => simp [Gate.isHierarchical, Gate.internals?, hlogic] at hform
    | tables logic => simp [Gate.isHierarchical, Gate.internals?, hlogic] at hform
    | hierarchical part =>
      obtain ⟨f, hholds⟩ := hinternal part hlogic
      exact ⟨g, part, f, rfl, hmem, hdeps, hlogic, hholds⟩

end Breadboard.Netlist
