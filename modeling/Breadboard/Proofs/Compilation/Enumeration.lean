import Breadboard.Proofs.Compilation.Compile
import Breadboard.Proofs.Evaluation.Extent
import Breadboard.Proofs.Evaluation.Placements
import Breadboard.Proofs.Simulation.Ticks

namespace Breadboard.Netlist

open Relation Surroundings

/-- Whether a node is a placement of a cell of the tag. -/
def places (nl : Netlist Gate) (tag : Nat) (id : NodeId) : Bool :=
  ((nl.gate? id).bind (·.cell?)).any (·.tag == tag)

/-- The calls of the cells of a tag that the tables of islands need: one for each row of an island
and each placement among its nodes. -/
def rowCalls (nl : Netlist Gate) (tag : Nat) (islands : List Island) : Nat :=
  (islands.map fun island => 2 ^ island.inputs.length * island.nodes.countP (nl.places tag)).sum

/-- What a compilation answers, with its calls: as many as the rows of its tables need, or none when
it makes no tables. -/
inductive Enumerates (nl : Netlist Gate) (inputs outputs : List NodeId) :
    Metered (Except CompileError Gate) → Prop where
  | tabled {g : Gate} {logic : TableLogic} {islands : List Island} {calls : List Nat}
      (hg : g.logic = .tables logic)
      (hd : nl.decompose inputs outputs = .ok (.islands islands))
      (hc : ∀ tag, calls.count tag = nl.rowCalls tag islands) :
      Enumerates nl inputs outputs ⟨.ok g, calls⟩
  | hierarchical {g : Gate} {part : Netlist Gate} {reason : Fallback}
      (hg : g.logic = .hierarchical part)
      (hd : nl.decompose inputs outputs = .ok (.fallback reason)) :
      Enumerates nl inputs outputs ⟨.ok g, []⟩
  | failed (cause : CompileError) : Enumerates nl inputs outputs ⟨.error cause, []⟩

variable {nl : Netlist Gate} {name : String} {inputs outputs : List NodeId} {metadata : Metadata}
  {island : Island} {islands : List Island} {g : Gate} {id : NodeId}

/-- A gate without an internal netlist calls its own cell. -/
theorem count_calls_of_stateless (hg : nl.gate? id = some g) (hs : nl.isHierarchical id = false)
    (tag : Nat) (row : Bits) (current : Context) (before : Option Context) :
    (g.compute row current before).calls.count tag = [id].countP (nl.places tag) := by
  rw [List.countP_singleton, places, hg, Option.bind_some]
  cases hl : g.logic with
  | primitive cell =>
    have hcell : g.cell? = some cell := by rw [Gate.cell?, hl]
    rw [Gate.compute_primitive hl, List.count_singleton, hcell, Option.any_some]
  | tables logic =>
    have hcell : g.cell? = none := by rw [Gate.cell?, hl]
    rw [Gate.compute_tables hl, List.count_nil, hcell, Option.any_none]
    rfl
  | hierarchical part =>
    have hh : nl.isHierarchical id = true := by
      simp [Netlist.isHierarchical, hg, Gate.isHierarchical, Gate.internals?, hl]
    exact absurd (hs.symm.trans hh) Bool.false_ne_true

namespace ExactIsland

variable (hw : nl.WellFormed) (hi : nl.ExactIsland inputs outputs island)
  (hout : ∀ o ∈ outputs, nl.role? o = some .output)

include hw hi hout

/-- The evaluation of a row lets each gate of the island compute once. -/
theorem islandRow_recorded (row : Bits) :
    ∃ ctx log, Recorded (nl.within none) (Context.withPins (island.inputs.zip row)) ctx log
      (nl.islandRow island row).calls ∧ (log.map (·.node)).Perm island.nodes := by
  have hfresh := Context.settled_withPins (nl.within none) (island.inputs.zip row)
  obtain ⟨hs, _, _, hc⟩ := readPins_settled (s := nl.within none) hw hfresh island.outputs
  have hr := readPins_recorded (s := nl.within none) hw hfresh island.outputs
  refine ⟨_, _, hr, (List.perm_ext_iff_of_nodup (hr.nodup hs) hi.nodup).2 ?_⟩
  intro id
  rw [hr.nodes_eq, mem_gateOrder, hi.nodes]
  constructor
  · intro hmem
    exact readPins_behind (s := nl.within none) hw _ hmem.1 hmem.2
  · intro hb
    obtain ⟨hg, o, ho, hp⟩ := hb
    have hfeeds : nl.Feeds island.outputs id := ⟨o, ho, hp.to_reflTransGen⟩
    exact ⟨hg, hfeeds.cached hw hg hs (fun o ho => hout o (hi.outputs_listed.subset ho)) hc⟩

theorem count_islandRow (tag : Nat) (row : Bits) :
    (nl.islandRow island row).calls.count tag = island.nodes.countP (nl.places tag) := by
  obtain ⟨ctx, log, hr, hperm⟩ := hi.islandRow_recorded hw hout row
  have hfired : ∀ f ∈ log,
      ((nl.within none).answer f).calls.count tag = [f.node].countP (nl.places tag) := by
    intro f hf
    have hmem : f.node ∈ island.nodes := hperm.mem_iff.1 (List.mem_map_of_mem hf)
    obtain ⟨g, hg⟩ := ((hi.nodes f.node).1 hmem).1
    have hgate : nl.gate? f.node = some g := gate?_eq_some_iff.2 hg
    obtain ⟨before, hcalls⟩ := calls_answer none hgate
    rw [hcalls, count_calls_of_stateless hgate (hi.stateless f.node hmem)]
  calc (nl.islandRow island row).calls.count tag
      = ((log.map (·.node)).map fun id => [id].countP (nl.places tag)).sum :=
        hr.count_eq_sum hfired
    _ = (island.nodes.map fun id => [id].countP (nl.places tag)).sum := (hperm.map _).sum_eq
    _ = island.nodes.countP (nl.places tag) := by
        rw [← Function.comp_def, ← List.countP_flatMap, List.flatMap_singleton']

/-- An island's table calls a cell once for each row and each placement. -/
theorem count_islandTable (tag : Nat) :
    (nl.islandTable inputs outputs island).calls.count tag =
      2 ^ island.inputs.length * island.nodes.countP (nl.places tag) := by
  have hrow : (Bits.all island.inputs.length).map (fun row =>
        (nl.islandRow island row).calls.count tag) =
      (Bits.all island.inputs.length).map fun _ => island.nodes.countP (nl.places tag) :=
    List.map_congr_left fun row _ => hi.count_islandRow hw hout tag row
  calc (nl.islandTable inputs outputs island).calls.count tag
      = ((Bits.all island.inputs.length).map fun row =>
          (nl.islandRow island row).calls.count tag).sum := by
        rw [islandTable]
        dsimp only
        rw [List.count_flatMap, List.map_reverse, List.sum_reverse, List.map_map]
        rfl
    _ = 2 ^ island.inputs.length * island.nodes.countP (nl.places tag) := by
        rw [hrow, List.map_const', List.sum_replicate, Bits.length_all, smul_eq_mul]
        rfl

end ExactIsland

theorem IslandsOf.count_tabledGate (hw : nl.WellFormed)
    (hi : nl.IslandsOf inputs outputs outputs islands)
    (hout : ∀ o ∈ outputs, nl.role? o = some .output) (tag : Nat) :
    (nl.tabledGate name inputs outputs metadata islands).calls.count tag =
      nl.rowCalls tag islands := by
  have htable : islands.map (fun island =>
        (nl.islandTable inputs outputs island).calls.count tag) =
      islands.map fun island =>
        2 ^ island.inputs.length * island.nodes.countP (nl.places tag) :=
    List.map_congr_left fun island hm => (hi.exact island hm).count_islandTable hw hout tag
  rw [tabledGate, rowCalls, ← htable]
  dsimp only
  rw [List.count_flatMap, List.map_reverse, List.sum_reverse, List.map_map]
  rfl

/-- A compilation calls each cell as often as the rows of its tables need it, and calls none when
it makes no tables. -/
theorem Reachable.compile_calls_exact (hr : nl.Reachable) (name : String)
    (inputs outputs : List NodeId) (metadata : Metadata) :
    nl.Enumerates inputs outputs (nl.compileBetween name inputs outputs metadata) := by
  unfold compileBetween
  cases hd : nl.decompose inputs outputs with
  | error cause => exact .failed _
  | ok decomposition =>
    cases decomposition with
    | fallback reason =>
      dsimp only
      cases hg : nl.hierarchicalGate name inputs outputs metadata with
      | error cause => exact .failed _
      | ok g =>
        obtain ⟨_, _, part, _, _, _, hlogic⟩ := hierarchicalGate_cases hg
        exact .hierarchical hlogic hd
    | islands islands =>
      have hi := hr.wellFormed.islandsOf_decompose hd
      obtain ⟨_, hout, hn⟩ := checkBoundary_eq_ok (decompose_eq_islands hd).1
      obtain ⟨g, logic, hg, hlogic⟩ := hi.exists_tabledGate hn name metadata
      dsimp only
      rw [hg]
      exact .tabled hlogic hd fun tag => hi.count_tabledGate hr.wellFormed hout tag

/-- Two nodes read the inverter, and it computes once for each of the four rows of its island. -/
theorem compile_calls_exact_inverted :
    inverted.Reachable ∧
      inverted.Enumerates [0, 1] [4, 3, 2] (inverted.compileBetween "G" [0, 1] [4, 3, 2] ∅) ∧
      (inverted.compileBetween "G" [0, 1] [4, 3, 2] ∅).calls.count Primitive.not.index = 4 := by
  have hcount : (inverted.compileBetween "G" [0, 1] [4, 3, 2] ∅).calls.count
      Primitive.not.index = 4 := by cbv
  exact ⟨reachable_inverted,
    Reachable.compile_calls_exact reachable_inverted "G" [0, 1] [4, 3, 2] ∅, hcount⟩

end Breadboard.Netlist
