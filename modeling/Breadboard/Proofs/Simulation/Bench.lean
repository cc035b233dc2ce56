import Breadboard.Bench
import Breadboard.Proofs.Evaluation.Meaning
import Breadboard.Proofs.Netlist.Laying
import Breadboard.Proofs.Simulation.Ticks

namespace Breadboard

open Surroundings Netlist

namespace Bench

/-- How the bench of a gate is wired: one placement, each of its slots to an input pin and each of
its outputs to an output pin. -/
structure Wired (bench : Bench) (g : Gate) : Prop where
  wellFormed : bench.netlist.WellFormed
  nodup : bench.inputs.Nodup
  inputs_length : bench.inputs.length = g.inputs.length
  outputs_length : bench.outputs.length = g.outputs.length
  inputs : ∀ id ∈ bench.inputs, bench.netlist.role? id = some .input
  gate : bench.netlist.role? bench.node = some (.gate g)
  slots : bench.netlist.slots bench.node = bench.inputs.map fun pin => some ⟨pin, 0⟩
  sources : ∀ (k : Nat) pin, bench.outputs[k]? = some pin →
    bench.netlist.source? pin 0 = some ⟨bench.node, k⟩

/-- The links of a bench, between pins and a node. -/
def links (inputs outputs : List NodeId) (node : NodeId) : List (NodeId × Nat × Link) :=
  inputs.zipIdx.map (fun (pin, i) => (node, i, ⟨pin, 0⟩)) ++
    outputs.zipIdx.map (fun (pin, i) => (pin, 0, ⟨node, i⟩))

theorem mem_links {inputs outputs : List NodeId} {node dest : NodeId} {slot : Nat} {link : Link} :
    (dest, slot, link) ∈ links inputs outputs node ↔
      (dest = node ∧ ∃ pin, inputs[slot]? = some pin ∧ link = ⟨pin, 0⟩) ∨
      slot = 0 ∧ ∃ k : Nat, outputs[k]? = some dest ∧ link = ⟨node, k⟩ := by
  simp only [links, List.mem_append, List.mem_map, Prod.exists, Prod.mk.injEq,
    List.mem_zipIdx_iff_getElem?]
  constructor
  · intro hm
    rcases hm with ⟨pin, i, hi, rfl, rfl, rfl⟩ | ⟨pin, i, hi, rfl, rfl, rfl⟩
    · exact .inl ⟨rfl, pin, hi, rfl⟩
    · exact .inr ⟨rfl, i, hi, rfl⟩
  · intro hm
    rcases hm with ⟨rfl, pin, hi, rfl⟩ | ⟨rfl, i, hi, rfl⟩
    · exact .inl ⟨pin, slot, hi, rfl, rfl, rfl⟩
    · exact .inr ⟨dest, i, hi, rfl, rfl, rfl⟩

/-- The nodes of a bench before they are wired. -/
structure Unwired (nl : Netlist Gate) (inputs outputs : List NodeId) (node : NodeId) (g : Gate) :
    Prop where
  wellFormed : nl.WellFormed
  inputs_eq : inputs = List.range g.inputs.length
  outputs_eq : outputs = (List.range g.outputs.length).map (g.inputs.length + ·)
  node_eq : node = g.inputs.length + g.outputs.length
  gate : nl.role? node = some (.gate g)
  input : ∀ id < g.inputs.length, nl.role? id = some .input
  output : ∀ k < g.outputs.length, nl.role? (g.inputs.length + k) = some .output

theorem unwired (g : Gate) :
    let inputs := Netlist.addEach Netlist.addInput ∅ g.inputs
    let outputs := Netlist.addEach Netlist.addOutput inputs.2 g.outputs
    let placed := outputs.2.place g
    Unwired placed.2 inputs.1 outputs.1 placed.1 g := by
  dsimp only
  obtain ⟨hin, hlaid⟩ := Laid.empty.addEach (fun name h => h.addInput name) g.inputs
  obtain ⟨hout, hlaid⟩ := hlaid.addEach (fun name h => h.addOutput name) g.outputs
  obtain ⟨hnode, hplaced⟩ := hlaid.place g
  simp only [List.nil_append, List.length_append, List.length_map, List.length_nil,
    hlaid.next] at hin hout hnode
  refine ⟨hplaced.wellFormed, ?_, ?_, hnode, ?_, ?_, ?_⟩
  · rw [hin, List.range_eq_range']
  · rw [hout, List.range'_eq_map_range]
  · rw [role?_eq_traits?, hplaced.traits, hnode]
    simp
  · intro id hid
    rw [role?_eq_traits?, hplaced.traits]
    simp [hid, Nat.lt_add_right]
  · intro k hk
    rw [role?_eq_traits?, hplaced.traits]
    simp [List.getElem?_append, hk]

namespace Unwired

variable {nl : Netlist Gate} {inputs outputs : List NodeId} {node : NodeId} {g : Gate}

theorem input_eq (h : Unwired nl inputs outputs node g) {k : Nat} {pin : NodeId}
    (hk : inputs[k]? = some pin) : k < g.inputs.length ∧ pin = k := by
  rw [h.inputs_eq] at hk
  obtain ⟨hlt, rfl⟩ := List.getElem?_eq_some_iff.1 hk
  exact ⟨by simpa using hlt, List.getElem_range _⟩

theorem output_eq (h : Unwired nl inputs outputs node g) {k : Nat} {pin : NodeId}
    (hk : outputs[k]? = some pin) : k < g.outputs.length ∧ pin = g.inputs.length + k := by
  rw [h.outputs_eq] at hk
  obtain ⟨hlt, rfl⟩ := List.getElem?_eq_some_iff.1 hk
  exact ⟨by simpa using hlt, by rw [List.getElem_map, List.getElem_range]⟩

theorem linkable (h : Unwired nl inputs outputs node g) :
    ∀ place ∈ links inputs outputs node, nl.Linkable place := by
  intro place hm
  obtain ⟨dest, slot, link⟩ := place
  rcases mem_links.1 hm with ⟨rfl, pin, hk, rfl⟩ | ⟨rfl, k, hk, rfl⟩
  · obtain ⟨hlt, rfl⟩ := h.input_eq hk
    have hslots := h.wellFormed.slotCount h.gate
    exact ⟨⟨.input, h.input pin hlt, Nat.zero_lt_one⟩, hslots ▸ hlt⟩
  · obtain ⟨hlt, rfl⟩ := h.output_eq hk
    have hslots := h.wellFormed.slotCount (h.output k hlt)
    exact ⟨⟨.gate g, h.gate, hlt⟩, hslots.symm ▸ Nat.zero_lt_one⟩

/-- No slot has two links, since the node of the gate is none of the pins. -/
theorem unique (h : Unwired nl inputs outputs node g) {dest : NodeId} {slot : Nat}
    {link link' : Link} (hm : (dest, slot, link) ∈ links inputs outputs node)
    (hm' : (dest, slot, link') ∈ links inputs outputs node) : link = link' := by
  have hne : ∀ (k : Nat), outputs[k]? ≠ some node := by
    intro k hk
    obtain ⟨hlt, he⟩ := h.output_eq hk
    exact Nat.ne_of_gt hlt (Nat.add_left_cancel (h.node_eq.symm.trans he))
  rcases mem_links.1 hm with ⟨rfl, pin, hk, rfl⟩ | ⟨rfl, k, hk, rfl⟩
  · rcases mem_links.1 hm' with ⟨_, pin', hk', rfl⟩ | ⟨_, k', hk', _⟩
    · rw [Option.some.inj (hk.symm.trans hk')]
    · exact absurd hk' (hne k')
  · rcases mem_links.1 hm' with ⟨rfl, _, _, _⟩ | ⟨_, k', hk', rfl⟩
    · exact absurd hk (hne k)
    · have he := (h.output_eq hk).2.symm.trans (h.output_eq hk').2
      rw [Nat.add_left_cancel he]

theorem getElem?_slots (h : Unwired nl inputs outputs node g) {dest : NodeId} {slot : Nat}
    {link : Link} (hm : (dest, slot, link) ∈ links inputs outputs node) :
    ((nl.setSlots (links inputs outputs node)).slots dest)[slot]? = some (some link) := by
  have hlt := (h.linkable _ hm).2
  exact getElem?_slots_setSlots (fun _ _ => h.unique) hlt hm

theorem wired (h : Unwired nl inputs outputs node g) :
    Wired ⟨nl.setSlots (links inputs outputs node), inputs, outputs, node⟩ g := by
  have hw := h.wellFormed.of_linkAll (linkAll_of_linkable h.linkable)
  refine ⟨hw, ?_, ?_, ?_, ?_, ?_, ?_, ?_⟩
  · rw [h.inputs_eq]
    exact List.nodup_range
  · rw [h.inputs_eq, List.length_range]
  · rw [h.outputs_eq, List.length_map, List.length_range]
  · intro id hid
    obtain ⟨k, hk⟩ := List.mem_iff_getElem?.1 hid
    obtain ⟨hlt, rfl⟩ := h.input_eq hk
    rw [role?_setSlots, h.input id hlt]
  · rw [role?_setSlots, h.gate]
  · apply List.ext_getElem?
    intro k
    rw [List.getElem?_map]
    cases hk : inputs[k]? with
    | some pin => exact h.getElem?_slots (mem_links.2 (.inl ⟨rfl, pin, hk, rfl⟩))
    | none =>
      have hle := List.getElem?_eq_none_iff.1 hk
      have hslots := h.wellFormed.slotCount h.gate
      rw [h.inputs_eq, List.length_range] at hle
      exact List.getElem?_eq_none (by rw [length_slots_setSlots, hslots]; exact hle)
  · intro k pin hk
    rw [hw.source?_eq, h.getElem?_slots (mem_links.2 (.inr ⟨rfl, k, hk, rfl⟩))]
    rfl

end Unwired

theorem ofGate_wired (g : Gate) : ∃ bench, Bench.ofGate g = .ok bench ∧ bench.Wired g := by
  have h := unwired g
  refine ⟨_, ?_, h.wired⟩
  unfold Bench.ofGate
  dsimp only
  rw [show _ ++ _ = links _ _ _ from rfl, linkAll_of_linkable h.linkable]

end Bench

/-- The outputs of a gate tick after tick, when it gets a row of values in every tick and the
context of a tick is the previous one of the next. -/
def Gate.trace (g : Gate) : Option Context → List Bits → List Bits
  | _, [] => []
  | before, row :: rows =>
    let answer := g.compute row ∅ before
    answer.value :: g.trace (some answer.context) rows

/-- A gate without an internal netlist ignores what was before. -/
theorem Gate.value_compute_stateless {g : Gate} (h : g.isHierarchical = false) (row : Bits)
    (before : Option Context) : (g.compute row ∅ before).value = (g.compute row ∅ none).value := by
  cases hl : g.logic with
  | primitive cell => rw [compute_primitive hl, compute_primitive hl]
  | tables logic => rw [compute_tables hl, compute_tables hl]
  | hierarchical nl => simp [isHierarchical, internals?, hl] at h

namespace Bench.Wired

variable {bench : Bench} {g : Gate}

/-- The gate of a bench reads the values of the pins. -/
theorem slotValues_eq (hb : bench.Wired g) {nl : Netlist Gate} (ha : Alike bench.netlist nl)
    {row : Bits} (hrow : row.length = g.inputs.length) {before : Option Context} {ctx : Context}
    (hpins : ∀ (k : Nat) id pin, bench.inputs[k]? = some id → nl.inputPin? id = some pin →
      row[k]? = some (pinValue ctx id pin)) (earlier : List NodeId) :
    (nl.within before).slotValues ctx earlier bench.node = row := by
  change (nl.slots bench.node).map _ = row
  rw [ha.slots, hb.slots, List.map_map]
  apply List.ext_getElem?
  intro k
  rw [List.getElem?_map]
  cases hk : bench.inputs[k]? with
  | none =>
    have hle := List.getElem?_eq_none_iff.1 hk
    rw [hb.inputs_length, ← hrow] at hle
    rw [List.getElem?_eq_none hle, Option.map_none]
  | some id =>
    have hrole := hb.inputs id (List.mem_of_getElem? hk)
    obtain ⟨pin, hp⟩ := exists_inputPin? ((ha.role id).trans hrole)
    have hslot : (nl.within before).slotValue ctx earlier (some ⟨id, 0⟩) = pinValue ctx id pin :=
      slotValue_input (s := nl.within before) earlier hp
    rw [hpins k id pin hk hp, Option.map_some, Function.comp_apply, hslot]

/-- What a tick of the bench computes: the gate's outputs for the states of the pins, in the context
that the gate had in the tick before. -/
theorem tick_of_states (hb : bench.Wired g) {sim : Simulator} (ha : Alike bench.netlist sim.netlist)
    {row : Bits} (hrow : row.length = g.inputs.length)
    (hstates : ∀ (k : Nat) id pin, bench.inputs[k]? = some id →
      sim.netlist.inputPin? id = some pin → row[k]? = some pin.state) {before : Option Context}
    (hbefore : g.isHierarchical = true →
      sim.before.bind (·.nested.get? bench.node) = before) :
    let sim' := sim.tick.value
    Alike bench.netlist sim'.netlist ∧
      sim'.current.cached.get? bench.node = some (g.compute row ∅ before).value ∧
      (g.isHierarchical = true → sim'.before.bind (·.nested.get? bench.node) =
        some (g.compute row ∅ before).context) := by
  have hgate : sim.netlist.role? bench.node = some (.gate g) := (ha.role _).trans hb.gate
  have ht := sim.ticked (hb.wellFormed.alike ha)
  generalize sim.tick.value = sim' at ht ⊢
  have hsettled := ht.settled
  have hcached := ht.cached bench.node (.inl ⟨g, hgate⟩)
  have hmem : bench.node ∈ (sim.netlist.within sim.before).gateOrder sim'.current :=
    mem_gateOrder.2 ⟨⟨g, hgate⟩, hcached⟩
  obtain ⟨earlier, later, ho⟩ := List.append_of_mem hmem
  have hd := determined_of_explained (gate?_eq_some_iff.2 hgate) (hsettled.inv.explained ho)
  have hpins : ∀ (k : Nat) id pin, bench.inputs[k]? = some id →
      sim.netlist.inputPin? id = some pin →
      row[k]? = some (pinValue sim'.current id pin) := by
    intro k id pin hk hp
    rw [Context.pinValue_of_pins ht.pins]
    exact hstates k id pin hk hp
  have hvalues : (sim.netlist.within sim.before).slotValues sim'.current earlier bench.node =
      row := hb.slotValues_eq ha hrow hpins earlier
  refine ⟨ht.netlist ▸ ha, ?_, ?_⟩
  · cases hh : g.isHierarchical with
    | true =>
      have hs := (hd.stateful hh).1
      rwa [hvalues, hbefore hh] at hs
    | false =>
      have hs := hd.stateless hh
      rwa [hvalues, ← Gate.value_compute_stateless hh row before] at hs
  · intro hh
    have hs := (hd.stateful hh).2
    rw [hvalues, hbefore hh] at hs
    rw [ht.before]
    exact hs

theorem tick (hb : bench.Wired g) {sim : Simulator} (ha : Alike bench.netlist sim.netlist)
    {row : Bits} (hrow : row.length = g.inputs.length) {before : Option Context}
    (hbefore : g.isHierarchical = true →
      sim.before.bind (·.nested.get? bench.node) = before) :
    let sim' := (sim.driveEach bench.inputs row).tick.value
    Alike bench.netlist sim'.netlist ∧
      sim'.current.cached.get? bench.node = some (g.compute row ∅ before).value ∧
      (g.isHierarchical = true → sim'.before.bind (·.nested.get? bench.node) =
        some (g.compute row ∅ before).context) := by
  have had : Alike bench.netlist (sim.driveEach bench.inputs row).netlist :=
    ha.trans (alike_driveEach _ _ _)
  refine hb.tick_of_states had hrow ?_ hbefore
  intro k id pin hk hp
  exact state_driveEach hb.nodup (hrow.trans hb.inputs_length.symm) hk hp

/-- The outputs of a bench show the outputs of its gate. -/
theorem readPins_eq (hb : bench.Wired g) {sim : Simulator} (ha : Alike bench.netlist sim.netlist)
    {values : Bits} (hl : values.length = g.outputs.length)
    (hc : sim.current.cached.get? bench.node = some values) :
    bench.outputs.map sim.readPin = values := by
  apply List.ext_getElem?
  intro k
  rw [List.getElem?_map]
  cases hk : bench.outputs[k]? with
  | none =>
    have hle := List.getElem?_eq_none_iff.1 hk
    rw [hb.outputs_length, ← hl] at hle
    rw [List.getElem?_eq_none hle, Option.map_none]
  | some pin =>
    have hlt : k < values.length := by
      rw [hl, ← hb.outputs_length]
      exact (List.getElem?_eq_some_iff.1 hk).1
    have hsource : sim.netlist.source? pin 0 = some ⟨bench.node, k⟩ := by
      rw [(hb.wellFormed.alike ha).source?_eq, ha.slots, ← hb.wellFormed.source?_eq,
        hb.sources k pin hk]
    rw [Option.map_some, Simulator.readPin_eq_shown, Context.shown, hsource, Context.linkValue,
      Context.output?, hc, Option.bind_some, List.getElem?_eq_getElem hlt, Option.getD_some]

theorem trace_from (hb : bench.Wired g) {sim : Simulator} (ha : Alike bench.netlist sim.netlist)
    {before : Option Context}
    (hbefore : g.isHierarchical = true → sim.before.bind (·.nested.get? bench.node) = before)
    (hlength : ∀ row before, row.length = g.inputs.length →
      (g.compute row ∅ before).value.length = g.outputs.length) {rows : List Bits}
    (hrows : ∀ row ∈ rows, row.length = g.inputs.length) :
    sim.trace bench.inputs bench.outputs rows = g.trace before rows := by
  induction rows generalizing sim before with
  | nil => rfl
  | cons row rows ih =>
    obtain ⟨hrow, hrows⟩ := List.forall_mem_cons.1 hrows
    obtain ⟨hnetlist, hcached, hnext⟩ := hb.tick ha hrow hbefore
    have hshown := hb.readPins_eq hnetlist (hlength row before hrow) hcached
    rw [Simulator.trace, Gate.trace, hshown, ih hnetlist hnext hrows]

/-- A simulator over the bench shows what the gate computes. -/
theorem trace_eq (hb : bench.Wired g)
    (hlength : ∀ row before, row.length = g.inputs.length →
      (g.compute row ∅ before).value.length = g.outputs.length) {rows : List Bits}
    (hrows : ∀ row ∈ rows, row.length = g.inputs.length) :
    (Simulator.ofNetlist bench.netlist).trace bench.inputs bench.outputs rows = g.trace none rows :=
  hb.trace_from (.refl _) (fun _ => rfl) hlength hrows

end Bench.Wired

end Breadboard
