import Breadboard.Proofs.Compilation.Compile
import Breadboard.Proofs.Evaluation.Placements
import Breadboard.Proofs.Netlist.Edits
import Breadboard.Proofs.Simulation.Ticks

namespace Breadboard

open Relation Surroundings

/-- The gate answers one value for each of its outputs, as every computation of it asserts. -/
def Gate.Sized (g : Gate) : Prop :=
  ∀ row before, row.length = g.inputs.length →
    (g.compute row ∅ before).value.length = g.outputs.length

/-- The gates that can be made: cells, tables, what a netlist of made gates compiles to, and the
logic of a made gate under other names. -/
inductive Gate.Made : Gate → Prop where
  | cell {g : Gate} {cell : Cell} (h : g.logic = .primitive cell) : Made g
  | tables {g : Gate} {logic : TableLogic} (h : g.logic = .tables logic) : Made g
  | compiled {nl : Netlist Gate} {name : String} {inputs outputs : List NodeId}
      {metadata : Metadata} {g : Gate} (hr : nl.Reachable)
      (hm : ∀ {id placed}, nl.role? id = some (.gate placed) → Made placed)
      (hg : (nl.compileBetween name inputs outputs metadata).value = .ok g) : Made g
  | relabeled {g g' : Gate} (h : Made g) (hl : g'.logic = g.logic) : Made g'

/-- Computing and counting placements depend on the logic of a gate only. -/
theorem Gate.compute_congr {g g' : Gate} (h : g'.logic = g.logic) :
    g'.compute = g.compute ∧ ∀ tag, g'.placements tag = g.placements tag := by
  constructor
  · funext row current before
    cases hl : g.logic with
    | primitive cell => rw [compute_primitive hl, compute_primitive (h.trans hl)]
    | tables logic => rw [compute_tables hl, compute_tables (h.trans hl)]
    | hierarchical nl => rw [compute_hierarchical hl, compute_hierarchical (h.trans hl)]
  · intro tag
    cases hl : g.logic with
    | primitive cell => rw [placements_primitive hl, placements_primitive (h.trans hl)]
    | tables logic => rw [placements_tables hl, placements_tables (h.trans hl)]
    | hierarchical nl => rw [placements_hierarchical hl, placements_hierarchical (h.trans hl)]

theorem Primitive.sized (p : Primitive) : p.gate.Sized := by
  intro row before _
  rw [Gate.compute_primitive rfl]
  rfl

namespace Netlist

variable {nl part : Netlist Gate} {name : String} {inputs outputs nodes : List NodeId}
  {metadata : Metadata} {g : Gate}

/-- An extraction has one node for every listed one. -/
theorem next_extract (hn : nodes.Nodup) (hl : ∀ id ∈ nodes, nl.isLive id = true)
    {copies : Copies} (he : nl.extract nodes = .ok (part, copies)) :
    part.next = nodes.length := by
  have hc := copied_copyNodes ∅ hn hl
  unfold extract at he
  rw [copySet_eq_self hn hl] at he
  dsimp only at he
  split at he
  · cases he
  · next hlinked =>
    obtain ⟨rfl, _⟩ := Prod.mk.inj (Except.ok.inj he)
    have hnext := congrArg (·.2.next) hlinked
    rw [next_linkAll, hc.next] at hnext
    exact hnext.symm.trans (Nat.zero_add _)

/-- A compilation to an internal netlist copies a closed list of nodes. -/
theorem internals_compileBetween (hw : nl.WellFormed)
    (hg : (nl.compileBetween name inputs outputs metadata).value = .ok g)
    (hlogic : g.logic = .hierarchical part) :
    ∃ nodes copies, nl.ClosedList inputs outputs nodes ∧
      nl.extract nodes = .ok (part, copies) := by
  obtain ⟨hb, hform⟩ := compileBetween_cases hg
  rcases hform with ⟨islands, _, ht⟩ | hh
  · obtain ⟨logic, _, hl⟩ := logic_tabledGate ht
    rw [hlogic] at hl
    cases hl
  · obtain ⟨_, nodes, internals, copies, hc, he, hl⟩ := hierarchicalGate_cases hh
    obtain rfl := Logic.hierarchical.inj (hlogic.symm.trans hl)
    exact ⟨nodes, copies, closure_eq_ok hw hb hc, he⟩

/-- The internal netlist of a compiled gate holds gates of the compiled netlist only, and each of
them lies behind an output. -/
theorem gate_internal (hw : nl.WellFormed)
    (hg : (nl.compileBetween name inputs outputs metadata).value = .ok g)
    (hlogic : g.logic = .hierarchical part) :
    part.WellFormed ∧ part.outputs.length = g.outputs.length ∧
      ∀ {id placed}, part.role? id = some (.gate placed) →
        part.Feeds part.outputs id ∧ ∃ original, nl.role? original = some (.gate placed) := by
  obtain ⟨hb, ⟨_, hnames⟩, _⟩ := compileBetween_eq_ok hw hg
  obtain ⟨⟨hin, _⟩, hout, _⟩ := checkBoundary_eq_ok hb
  obtain ⟨nodes, copies, hclosed, he⟩ := internals_compileBetween hw hg hlogic
  have hlive := hclosed.isLive hb
  obtain ⟨part', copies', he', hx⟩ := extract_eq_ok hw hclosed.nodup hlive
  obtain ⟨rfl, _⟩ := Prod.mk.inj (Except.ok.inj (he.symm.trans he'))
  have hnext := next_extract hclosed.nodup hlive he
  have hembeds := hx.embeds hclosed.closed
  have houtputs : part.outputs = outputs.map nodes.idxOf := by
    rw [hx.outputs, (filter_boundary hb hclosed).2]
  refine ⟨hw.extract he, ?_, ?_⟩
  · rw [houtputs, hnames, pinNames, List.length_map, List.length_map]
  · intro id placed hr
    have hlt : id < nodes.length := hnext ▸ lt_next_of_role? hr
    obtain ⟨original, ho⟩ : ∃ original, nodes[id]? = some original :=
      ⟨nodes[id], List.getElem?_eq_getElem hlt⟩
    have hmem := List.mem_of_getElem? ho
    have hid : nodes.idxOf original = id := by
      obtain ⟨_, rfl⟩ := List.getElem?_eq_some_iff.1 ho
      exact hclosed.nodup.idxOf_getElem id hlt
    have hgate : nl.role? original = some (.gate placed) := by rw [← hx.role original hmem, hid, hr]
    refine ⟨?_, original, hgate⟩
    rcases hclosed.mem_cases hmem with hpin | hpin | ⟨_, o, hmo, hpath⟩
    · simp [hin original hpin] at hgate
    · simp [hout original hpin] at hgate
    · obtain ⟨rest, hnodes, _⟩ := hclosed.boundary
      have hno : o ∈ nodes := by simp [hnodes, hmo]
      refine ⟨nodes.idxOf o, houtputs ▸ List.mem_map_of_mem hmo, ?_⟩
      exact hid ▸ (hembeds.transGen hno hpath).1.to_reflTransGen

/-- A compiled gate answers one value for each output, whatever the gates in it answer. -/
theorem sized_compileBetween (hw : nl.WellFormed)
    (hg : (nl.compileBetween name inputs outputs metadata).value = .ok g) : g.Sized := by
  obtain ⟨hb, ⟨hnames, hnames'⟩, hform⟩ := compileBetween_eq_ok hw hg
  obtain ⟨⟨_, hn⟩, hout, _⟩ := checkBoundary_eq_ok hb
  have hinputs : g.inputs.length = inputs.length := by rw [hnames, pinNames, List.length_map]
  have houtputs : g.outputs.length = outputs.length := by rw [hnames', pinNames, List.length_map]
  intro row before hrow
  rcases hform with ⟨islands, hi, ht⟩ | ⟨part, nodes, hlogic, hc⟩
  · rw [tabledGate_readPins hw hn hout hi ht (hrow.trans hinputs) ∅ before none, length_readPins,
      houtputs]
  · rw [Gate.compute_hierarchical hlogic, length_readPins, hc.outputs_eq, List.length_map, houtputs]

/-- Reading the outputs of an internal netlist calls each cell as often as it is placed there. -/
theorem count_calls_internal {tag : Nat} (hw : part.WellFormed)
    (hfeeds : ∀ {id}, part.IsGate id → part.Feeds part.outputs id)
    (hcount : ∀ {id placed}, part.role? id = some (.gate placed) → ∀ row before,
      row.length = placed.inputs.length →
        (placed.compute row ∅ before).calls.count tag = placed.placements tag)
    (hlogic : g.logic = .hierarchical part) (row : Bits) (before : Option Context) :
    (g.compute row ∅ before).calls.count tag = g.placements tag := by
  have hstart : (Context.withPins (part.inputs.zip row)).Settled (part.within before) :=
    Context.settled_withPins _ _
  obtain ⟨hs, _, _, hcached⟩ := readPins_settled (s := part.within before) hw hstart part.outputs
  have hr := readPins_recorded (s := part.within before) hw hstart part.outputs
  rw [Gate.compute_hierarchical hlogic, Context.setPins_empty, Gate.placements_hierarchical hlogic]
  refine hr.count_calls hs hw (fun id hg => ?_) hcount
  exact (hfeeds hg).cached hw hg hs (fun o ho => (hw.mem_outputs o).1 ho) hcached

end Netlist

namespace Gate.Made

variable {g : Gate}

theorem count_calls_primitive {cell : Cell} (h : g.logic = .primitive cell) (tag : Nat) (row : Bits)
    (before : Option Context) :
    (g.compute row ∅ before).calls.count tag = g.placements tag := by
  rw [compute_primitive h, placements_primitive h, List.count_singleton]
  simp

/-- A made gate calls the cells of a tag as often as they are placed in it, whatever its inputs and
its memory. -/
theorem count_calls (h : g.Made) (tag : Nat) (row : Bits) (before : Option Context) :
    (g.compute row ∅ before).calls.count tag = g.placements tag := by
  induction h generalizing row before with
  | cell h => exact count_calls_primitive h tag row before
  | tables h => rw [compute_tables h, placements_tables h, List.count_nil]
  | @compiled nl _ _ _ _ g hr _ hg ih =>
    cases hl : g.logic with
    | primitive cell => exact count_calls_primitive hl tag row before
    | tables logic => rw [compute_tables hl, placements_tables hl, List.count_nil]
    | hierarchical part =>
      obtain ⟨hw, _, hinternal⟩ := Netlist.gate_internal hr.wellFormed hg hl
      refine Netlist.count_calls_internal hw ?_ ?_ hl row before
      · intro id hgate
        obtain ⟨placed, hp⟩ := hgate
        exact (hinternal hp).1
      · intro id placed hp row before _
        obtain ⟨original, ho⟩ := (hinternal hp).2
        exact ih ho row before
  | relabeled _ hl ih =>
    obtain ⟨hcompute, hplacements⟩ := compute_congr hl
    rw [hcompute, hplacements]
    exact ih row before

end Gate.Made

end Breadboard
