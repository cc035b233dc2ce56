import Breadboard.Proofs.Evaluation.Firings
import Breadboard.Proofs.Evaluation.Meaning

namespace Breadboard

/-- The placements of the cells of a tag in a gate; tables hold none. -/
def Gate.placements (tag : Nat) (g : Gate) : Nat :=
  match _ : g.logic with
  | .primitive cell => if cell.tag = tag then 1 else 0
  | .tables _ => 0
  | .hierarchical nl => (nl.gates.attach.map fun entry => placements tag entry.1.2).sum
termination_by sizeOf g
decreasing_by
  exact Nat.lt_trans (Netlist.sizeOf_gate_lt (Netlist.mem_gates.1 entry.2))
    (Gate.sizeOf_internals_lt ‹_›)

/-- The placements of the cells of a tag in the live gates of a netlist. -/
def Netlist.placements (tag : Nat) (nl : Netlist Gate) : Nat :=
  (nl.gates.map fun entry => entry.2.placements tag).sum

namespace Gate

variable {g : Gate} {tag : Nat}

theorem placements_primitive {cell : Cell} (h : g.logic = .primitive cell) :
    g.placements tag = if cell.tag = tag then 1 else 0 := by
  rw [placements]
  split <;> simp_all

theorem placements_tables {logic : TableLogic} (h : g.logic = .tables logic) :
    g.placements tag = 0 := by
  rw [placements]
  split <;> simp_all

theorem placements_hierarchical {nl : Netlist Gate} (h : g.logic = .hierarchical nl) :
    g.placements tag = nl.placements tag := by
  rw [placements]
  split
  · next h' => simp [h] at h'
  · next h' => simp [h] at h'
  · next h' =>
    rw [h] at h'
    injection h' with h'
    subst h'
    exact congrArg List.sum
      (List.attach_map_val (f := fun entry : NodeId × Gate => entry.2.placements tag))

end Gate

namespace Surroundings

open Netlist

variable {nl : Netlist Gate} {before : Option Context} {s : Surroundings} {ctx ctx' : Context}
  {log : List Firing} {tags : List Nat} {tag : Nat}

/-- A firing computes with a context that the gate had in the tick before, or with none. -/
theorem calls_answer (before : Option Context) {f : Firing} {g : Gate}
    (hg : nl.gate? f.node = some g) :
    ∃ before', ((nl.within before).answer f).calls = (g.compute f.inputs ∅ before').calls := by
  rw [answer, fire_within hg]
  split
  · exact ⟨_, rfl⟩
  · exact ⟨_, rfl⟩

/-- The calls of a log are what its nodes cost, when each gate makes as many as its node costs. -/
theorem Recorded.count_eq_sum (h : Recorded s ctx ctx' log tags) {cost : NodeId → Nat}
    (hcost : ∀ f ∈ log, (s.answer f).calls.count tag = cost f.node) :
    tags.count tag = ((log.map (·.node)).map cost).sum := by
  calc tags.count tag
      = (log.reverse.map fun f => (s.answer f).calls.count tag).sum := by
        rw [h.calls, List.count_flatMap]
        rfl
    _ = (log.map fun f => (s.answer f).calls.count tag).sum := by
        rw [List.map_reverse, List.sum_reverse]
    _ = ((log.map (·.node)).map cost).sum := by
        rw [List.map_map, List.map_congr_left hcost]
        rfl

/-- When every gate has computed once, the calls are as many as the placements. -/
theorem Recorded.count_calls {pins : NodeMap Bool}
    (h : Recorded (nl.within before) { pins := pins } ctx log tags)
    (hs : ctx.Settled (nl.within before)) (hw : nl.WellFormed)
    (hall : ∀ id, nl.IsGate id → ctx.cached.get? id ≠ none)
    (hcount : ∀ {id g}, nl.role? id = some (.gate g) → ∀ row before,
      row.length = g.inputs.length → (g.compute row ∅ before).calls.count tag = g.placements tag) :
    tags.count tag = nl.placements tag := by
  -- the placements of the gate under a handle
  let cost (id : NodeId) : Nat := ((nl.gate? id).map (·.placements tag)).getD 0
  have hperm := h.perm_gates hs hall
  have hfired : ∀ f ∈ log, ((nl.within before).answer f).calls.count tag = cost f.node := by
    intro f hf
    obtain ⟨g, hr⟩ : nl.IsGate f.node :=
      mem_map_gates.1 (hperm.mem_iff.1 (List.mem_map_of_mem hf))
    have hg : nl.gate? f.node = some g := gate?_eq_some_iff.2 hr
    obtain ⟨before', hcalls⟩ := calls_answer before hg
    have harity : f.inputs.length = g.inputs.length := (h.arity f hf).trans (hw.slotCount hr)
    simp only [cost, hg, Option.map_some, Option.getD_some]
    rw [hcalls, hcount hr f.inputs before' harity]
  have hplaced : (nl.gates.map (·.1)).map cost =
      nl.gates.map fun entry => entry.2.placements tag := by
    rw [List.map_map]
    apply List.map_congr_left
    intro entry he
    simp [cost, mem_gates.1 he]
  calc tags.count tag
      = ((log.map (·.node)).map cost).sum := h.count_eq_sum hfired
    _ = ((nl.gates.map (·.1)).map cost).sum := (hperm.map cost).sum_eq
    _ = nl.placements tag := by rw [hplaced, Netlist.placements]

end Surroundings

end Breadboard
