import Breadboard.Proofs.Compilation.Closure
import Breadboard.Proofs.Compilation.Tables
import Breadboard.Proofs.Netlist.Extraction

namespace Breadboard.Netlist

open Relation Surroundings

variable {nl : Netlist Gate} {name : String} {inputs outputs nodes : List NodeId}
  {metadata : Metadata} {g : Gate}

/-- The internal netlist of a hierarchical gate: a copy of the listed nodes, which hold the boundary
and all that lies behind it. -/
structure CopiedBetween (nl part : Netlist Gate) (inputs outputs nodes : List NodeId) : Prop where
  wellFormed : part.WellFormed
  embeds : nl.Embeds part (· ∈ nodes) nodes.idxOf
  inputs_eq : part.inputs = inputs.map nodes.idxOf
  outputs_eq : part.outputs = outputs.map nodes.idxOf
  nodup : nodes.Nodup
  outputs_mem : outputs ⊆ nodes
  inputs_iff : ∀ id ∈ nodes, nl.role? id = some .input → id ∈ inputs

theorem filter_inputPin_eq_nil {ids : List NodeId} (h : ∀ id ∈ ids, nl.role? id ≠ some .input) :
    ids.filter (fun id => (nl.inputPin? id).isSome) = [] :=
  List.filter_eq_nil_iff.2 fun id hid hp => h id hid (inputPin?_isSome_iff.1 hp)

theorem filter_outputPin_eq_nil {ids : List NodeId} (h : ∀ id ∈ ids, nl.role? id ≠ some .output) :
    ids.filter (fun id => (nl.outputPin? id).isSome) = [] :=
  List.filter_eq_nil_iff.2 fun id hid hp => h id hid (outputPin?_isSome_iff.1 hp)

/-- A closed list has no other pins than the listed ones. -/
theorem filter_boundary (hb : nl.checkBoundary inputs outputs = .ok ())
    (hc : nl.ClosedList inputs outputs nodes) :
    nodes.filter (fun id => (nl.inputPin? id).isSome) = inputs ∧
      nodes.filter (fun id => (nl.outputPin? id).isSome) = outputs := by
  obtain ⟨⟨hin, _⟩, hout, _⟩ := checkBoundary_eq_ok hb
  obtain ⟨⟨rest, rfl, hrest⟩, _, _⟩ := hc
  have hinputs : inputs.filter (fun id => (nl.inputPin? id).isSome) = inputs :=
    List.filter_eq_self.2 fun id hid => inputPin?_isSome_iff.2 (hin id hid)
  have houtputs : outputs.filter (fun id => (nl.outputPin? id).isSome) = outputs :=
    List.filter_eq_self.2 fun id hid => outputPin?_isSome_iff.2 (hout id hid)
  have hgate : ∀ id ∈ rest, nl.role? id ≠ some .input ∧ nl.role? id ≠ some .output := by
    intro id hid
    obtain ⟨g, hg⟩ := (hrest id hid).1
    rw [hg]
    exact ⟨nofun, nofun⟩
  constructor
  · have hother : ∀ id ∈ outputs ++ rest, nl.role? id ≠ some .input := by
      intro id hid
      rcases List.mem_append.1 hid with hid | hid
      · rw [hout id hid]
        exact nofun
      · exact (hgate id hid).1
    rw [List.append_assoc, List.filter_append, hinputs, filter_inputPin_eq_nil hother,
      List.append_nil]
  · have hother : ∀ id ∈ inputs, nl.role? id ≠ some .output := by
      intro id hid
      rw [hin id hid]
      exact nofun
    rw [List.filter_append, List.filter_append, filter_outputPin_eq_nil hother, houtputs,
      filter_outputPin_eq_nil fun id hid => (hgate id hid).2, List.nil_append, List.append_nil]

theorem hierarchicalGate_cases (hg : nl.hierarchicalGate name inputs outputs metadata = .ok g) :
    (g.inputs = nl.pinNames inputs ∧ g.outputs = nl.pinNames outputs) ∧
      ∃ nodes part copies, nl.closure inputs outputs = .ok nodes ∧
        nl.extract nodes = .ok (part, copies) ∧ g.logic = .hierarchical part := by
  unfold hierarchicalGate at hg
  cases hc : nl.closure inputs outputs with
  | error cause => simp [hc] at hg
  | ok nodes =>
    cases he : nl.extract nodes with
    | error cause => simp [hc, he] at hg
    | ok extracted =>
      rw [hc] at hg
      simp only [he] at hg
      obtain rfl := Except.ok.inj hg
      exact ⟨⟨rfl, rfl⟩, nodes, extracted.1, extracted.2, rfl, he, rfl⟩

theorem hierarchicalGate_eq_ok (hw : nl.WellFormed) (hb : nl.checkBoundary inputs outputs = .ok ())
    (hg : nl.hierarchicalGate name inputs outputs metadata = .ok g) :
    (g.inputs = nl.pinNames inputs ∧ g.outputs = nl.pinNames outputs) ∧
      ∃ part nodes, g.logic = .hierarchical part ∧ nl.CopiedBetween part inputs outputs nodes := by
  obtain ⟨hpins, nodes, part, copies, hc, he, hlogic⟩ := hierarchicalGate_cases hg
  have hclosed := closure_eq_ok hw hb hc
  obtain ⟨hinputs, houtputs⟩ := filter_boundary hb hclosed
  obtain ⟨part', copies', he', hpart⟩ := extract_eq_ok hw hclosed.nodup (hclosed.isLive hb)
  obtain ⟨rfl, _⟩ := Prod.mk.inj (Except.ok.inj (he.symm.trans he'))
  refine ⟨hpins, part, nodes, hlogic, hw.extract he, hpart.embeds hclosed.closed, ?_, ?_,
    hclosed.nodup, ?_, ?_⟩
  · rw [hpart.inputs, hinputs]
  · rw [hpart.outputs, houtputs]
  · intro id hid
    obtain ⟨rest, rfl, _⟩ := hclosed.boundary
    simp [hid]
  · intro id hid hr
    rw [← hinputs]
    exact List.mem_filter.2 ⟨hid, inputPin?_isSome_iff.2 hr⟩

theorem pins_tabledGate {islands : List Island}
    (hg : (nl.tabledGate name inputs outputs metadata islands).value = .ok g) :
    g.inputs = nl.pinNames inputs ∧ g.outputs = nl.pinNames outputs := by
  unfold tabledGate at hg
  dsimp only at hg
  split at hg
  · cases hg
  · obtain rfl := Except.ok.inj hg
    exact ⟨rfl, rfl⟩

/-- The logic of a gate made of islands is that of their tables. -/
theorem logic_tabledGate {islands : List Island}
    (hg : (nl.tabledGate name inputs outputs metadata islands).value = .ok g) :
    ∃ logic, TableLogic.ofTables ((islands.map (nl.islandTable inputs outputs)).map (·.value))
      outputs.length = .ok logic ∧ g.logic = .tables logic := by
  unfold tabledGate at hg
  dsimp only at hg
  split at hg
  · cases hg
  · next logic hlogic =>
    obtain rfl := Except.ok.inj hg
    exact ⟨logic, hlogic, rfl⟩

/-- Islands that produce all outputs make a gate. -/
theorem IslandsOf.exists_tabledGate {islands : List Island}
    (hi : nl.IslandsOf inputs outputs outputs islands) (hn : outputs.Nodup) (name : String)
    (metadata : Metadata) :
    ∃ g logic, (nl.tabledGate name inputs outputs metadata islands).value = .ok g ∧
      g.logic = .tables logic := by
  unfold Netlist.tabledGate
  dsimp only
  cases hl : TableLogic.ofTables ((islands.map (nl.islandTable inputs outputs)).map (·.value))
      outputs.length with
  | ok logic => exact ⟨_, logic, rfl, rfl⟩
  | error k =>
    obtain ⟨hk, hnone, _⟩ := TableLogic.ofTables_eq_error_iff.1 hl
    obtain ⟨island, hm, ho⟩ := (hi.produced outputs[k]).1 (List.getElem_mem hk)
    have htable : (nl.islandTable inputs outputs island).value ∈
        (islands.map (nl.islandTable inputs outputs)).map (·.value) := by
      rw [List.map_map]
      exact List.mem_map_of_mem hm
    refine absurd ?_ (hnone _ htable)
    change k ∈ positions outputs island.outputs
    rw [positions_eq (hi.exact island hm).outputs_listed.subset]
    exact List.mem_map.2 ⟨outputs[k], ho, hn.idxOf_getElem k hk⟩

/-- Without pins that are not declared there is an internal netlist. -/
theorem exists_hierarchicalGate (hw : nl.WellFormed)
    (hb : nl.checkBoundary inputs outputs = .ok ())
    (hd : ∀ id, ¬ nl.Undeclared inputs outputs id) (name : String) (metadata : Metadata) :
    ∃ g, nl.hierarchicalGate name inputs outputs metadata = .ok g := by
  unfold hierarchicalGate
  cases hc : nl.closure inputs outputs with
  | error cause =>
    obtain ⟨id, hid⟩ := closure_eq_error hw hb hc
    exact absurd hid (hd id)
  | ok nodes =>
    have hclosed := closure_eq_ok hw hb hc
    obtain ⟨part, copies, hpart, _⟩ := extract_eq_ok hw hclosed.nodup (hclosed.isLive hb)
    simp only [hpart]
    exact ⟨_, rfl⟩

theorem WellFormed.checkBoundary_own (hw : nl.WellFormed) :
    nl.checkBoundary nl.inputs nl.outputs = .ok () :=
  checkBoundary_eq_ok_iff.2 ⟨⟨fun id => (hw.mem_inputs id).1, hw.nodup_inputs⟩,
    fun id => (hw.mem_outputs id).1, hw.nodup_outputs⟩

/-- A netlist declares all its input pins. -/
theorem WellFormed.not_undeclared_own (hw : nl.WellFormed) {id : NodeId} :
    ¬ nl.Undeclared nl.inputs outputs id := by
  intro h
  obtain ⟨hr, hn, _⟩ := h
  exact hn ((hw.mem_inputs id).2 hr)

theorem ok_of_mapError {ε ε' α : Type} {f : ε → ε'} {answer : Except ε α} {a : α}
    (h : answer.mapError f = .ok a) : answer = .ok a := by
  cases answer with
  | error cause => cases h
  | ok a' =>
    injection h with h
    rw [h]

theorem compileBetween_cases (hg : (nl.compileBetween name inputs outputs metadata).value = .ok g) :
    nl.checkBoundary inputs outputs = .ok () ∧
      ((∃ islands, nl.decompose inputs outputs = .ok (.islands islands) ∧
        (nl.tabledGate name inputs outputs metadata islands).value = .ok g) ∨
      nl.hierarchicalGate name inputs outputs metadata = .ok g) := by
  have hg := ok_of_mapError hg
  constructor
  · cases hb : nl.checkBoundary inputs outputs with
    | ok _ => rfl
    | error cause => simp [decompose, hb] at hg
  · cases hd : nl.decompose inputs outputs with
    | error cause => simp [hd] at hg
    | ok decomposition =>
      cases decomposition with
      | islands islands =>
        rw [hd] at hg
        exact .inl ⟨islands, rfl, hg⟩
      | fallback reason =>
        rw [hd] at hg
        exact .inr hg

/-- A compilation that succeeds answers a gate with the listed pins, of one of two kinds. -/
theorem compileBetween_eq_ok (hw : nl.WellFormed)
    (hg : (nl.compileBetween name inputs outputs metadata).value = .ok g) :
    nl.checkBoundary inputs outputs = .ok () ∧
      (g.inputs = nl.pinNames inputs ∧ g.outputs = nl.pinNames outputs) ∧
      ((∃ islands, nl.IslandsOf inputs outputs outputs islands ∧
        (nl.tabledGate name inputs outputs metadata islands).value = .ok g) ∨
      ∃ part nodes, g.logic = .hierarchical part ∧
        nl.CopiedBetween part inputs outputs nodes) := by
  obtain ⟨hb, hform⟩ := compileBetween_cases hg
  refine ⟨hb, ?_⟩
  rcases hform with ⟨islands, hd, ht⟩ | hh
  · exact ⟨pins_tabledGate ht, .inl ⟨islands, hw.islandsOf_decompose hd, ht⟩⟩
  · obtain ⟨hpins, hcopied⟩ := hierarchicalGate_eq_ok hw hb hh
    exact ⟨hpins, .inr hcopied⟩

/-- Behind an output pin without loops behind it, no path goes on for ever. -/
theorem WellFormed.grounded_output (hw : nl.WellFormed) {o : NodeId}
    (hr : nl.role? o = some .output)
    (ha : ∀ id, nl.Behind [o] id → ¬ TransGen nl.Reads id id) : nl.Grounded o := by
  apply grounded_of_acyclic
  intro b hp hloop
  obtain ⟨c, hbc, _⟩ := TransGen.head'_iff.1 hloop
  obtain ⟨d, _, hdb⟩ := TransGen.tail'_iff.1 hloop
  have hg := hw.gate_of_reads_reads hdb hbc
  rcases reflTransGen_iff_eq_or_transGen.1 hp with rfl | hp
  · exact absurd hr hg.role?_ne_output
  · exact ha b ⟨hg, o, List.mem_singleton_self o, hp⟩ hloop

theorem stateless_of_behind {o : NodeId} (hr : nl.role? o = some .output)
    (hs : ∀ id, nl.Behind [o] id → nl.isHierarchical id = false) : nl.Stateless o := by
  intro b hp
  by_cases hg : nl.IsGate b
  · rcases reflTransGen_iff_eq_or_transGen.1 hp with rfl | hp
    · exact absurd hr hg.role?_ne_output
    · exact hs b ⟨hg, o, List.mem_singleton_self o, hp⟩
  · exact isHierarchical_of_not_gate hg

/-- Without loops and hierarchical gates behind its outputs a netlist compiles to the function that
its outputs show, whatever happened in the tick before. -/
theorem Reachable.compile_combinational (hr : nl.Reachable)
    (hg : (nl.compileBetween name inputs outputs metadata).value = .ok g)
    (hacyclic : ∀ id, nl.Behind outputs id → ¬ TransGen nl.Reads id id)
    (hstateless : ∀ id, nl.Behind outputs id → nl.isHierarchical id = false)
    {x : Bits} (hx : x.length = inputs.length) (before previous : Option Context) :
    (g.compute x ∅ before).value =
      ((nl.within previous).readPins (Context.withPins (inputs.zip x)) outputs).value := by
  have hw := hr.wellFormed
  obtain ⟨hb, _, hform⟩ := compileBetween_eq_ok hw hg
  obtain ⟨⟨hin, hni⟩, hout, hno⟩ := checkBoundary_eq_ok hb
  rcases hform with ⟨islands, hi, ht⟩ | ⟨part, nodes, hlogic, hc⟩
  · exact tabledGate_readPins hw hni hout hi ht hx ∅ before previous
  · obtain ⟨hs, _, hvalue, hcached⟩ := readPins_settled (s := nl.within previous) hw
      (Context.settled_withPins _ (inputs.zip x)) outputs
    have hshows := shows_readPins previous outputs hw hni hx
    refine .trans ?_ hvalue.symm
    generalize ((nl.within previous).readPins (Context.withPins (inputs.zip x)) outputs).context =
      ctx at hs hshows
    have hlength : x.length = part.inputs.length := by rw [hc.inputs_eq, List.length_map, hx]
    obtain ⟨hs', _, hvalue', hcached'⟩ := readPins_settled (s := part.within before) hc.wellFormed
      (Context.settled_withPins _ (part.inputs.zip x)) part.outputs
    have hshows' := shows_readPins before part.outputs hc.wellFormed
      hc.wellFormed.nodup_inputs hlength
    rw [Gate.compute_hierarchical hlogic, Context.setPins_empty]
    refine hvalue'.trans ?_
    generalize ((part.within before).readPins (Context.withPins (part.inputs.zip x))
      part.outputs).context = ctx' at hs' hshows'
    rw [hc.inputs_eq] at hshows'
    rw [hc.outputs_eq, List.map_map]
    apply List.map_congr_left
    intro o ho
    have behind : ∀ id, nl.Behind [o] id → nl.Behind outputs id := fun id h =>
      h.mono fun a ha => List.mem_singleton.1 ha ▸ ho
    have hmem := hc.outputs_mem ho
    have hgrounded := hw.grounded_output (hout o ho) fun id h => hacyclic id (behind id h)
    have hpure := stateless_of_behind (hout o ho) fun id h => hstateless id (behind id h)
    have hpins := hshows.samePins hshows' hc.embeds hc.inputs_iff hmem
    have hplace : nodes.idxOf o ∈ part.outputs := hc.outputs_eq ▸ List.mem_map.2 ⟨o, ho, rfl⟩
    exact shown_agree (f := nodes.idxOf) (a := o) hc.embeds hw hc.wellFormed hs hs' hgrounded hmem
      hpure hpins (hshows.cached o ho) (hshows'.cached _ hplace)

/-- With both inputs low only the inverted one is high; the pin that shows the second input comes
first, and the gate behind the inverter next. -/
theorem compile_combinational_inverted :
    inverted.Reachable ∧ ∃ g, (inverted.compileBetween "G" [0, 1] [4, 3, 2] ∅).value = .ok g ∧
      (g.compute [false, false] ∅ (some ∅)).value = [false, false, true] ∧
      ((inverted.within none).readPins (.withPins [(0, false), (1, false)]) [4, 3, 2]).value =
        [false, false, true] := by
  have hcompiled : (inverted.compileBetween "G" [0, 1] [4, 3, 2] ∅).value.toBool = true := by cbv
  have hd : inverted.decompose [0, 1] [4, 3, 2] =
      .ok (.islands [⟨[1], [4], []⟩, ⟨[0, 1], [3, 2], [5, 6]⟩]) := by cbv
  have hi := reachable_inverted.wellFormed.islandsOf_decompose hd
  cases hg : (inverted.compileBetween "G" [0, 1] [4, 3, 2] ∅).value with
  | error cause => simp [hg, Except.toBool] at hcompiled
  | ok g =>
    have hread : ((inverted.within none).readPins (.withPins [(0, false), (1, false)])
        [4, 3, 2]).value = [false, false, true] := by decide +kernel
    have hsame := Reachable.compile_combinational reachable_inverted hg
      (fun id hb => (hi.combinational hb).1) (fun id hb => (hi.combinational hb).2)
      (x := [false, false]) rfl (some ∅) none
    exact ⟨reachable_inverted, g, rfl, hsame.trans hread, hread⟩

end Breadboard.Netlist
