import Breadboard.Evaluation.Walk

namespace Breadboard

/-- The outputs of a gate for its input values, in its own context and its own context of the
previous tick. Only a hierarchical gate uses the contexts. -/
def Gate.compute (g : Gate) (inputs : Bits) (current : Context) (previous : Option Context) :
    Outcome Bits :=
  match _ : g.logic with
  | .primitive cell => ⟨cell.eval inputs, current, [cell.tag]⟩
  | .tables logic => ⟨logic.compute inputs, current, []⟩
  | .hierarchical nl =>
    let respond : NodeId → Bits → Context → Option Context → Outcome Bits :=
      fun id inputs inner before =>
        match _ : nl.gate? id with
        | some placed => placed.compute inputs inner before
        | none => ⟨[], inner, []⟩
    Surroundings.readPins ⟨nl, previous, respond⟩ (current.setPins nl.inputs inputs) nl.outputs
termination_by sizeOf g
decreasing_by
  exact Nat.lt_trans (Netlist.sizeOf_gate_lt ‹_›) (Gate.sizeOf_internals_lt ‹_›)

namespace Netlist

def respond (nl : Netlist Gate) (id : NodeId) (inputs : Bits) (inner : Context)
    (before : Option Context) : Outcome Bits :=
  match nl.gate? id with
  | some placed => placed.compute inputs inner before
  | none => ⟨[], inner, []⟩

/-- The surroundings of a walk over a netlist after a given tick. -/
def within (nl : Netlist Gate) (previous : Option Context) : Surroundings :=
  ⟨nl, previous, nl.respond⟩

end Netlist

theorem Gate.compute_primitive {g : Gate} {cell : Cell} (h : g.logic = .primitive cell)
    (inputs : Bits) (current : Context) (previous : Option Context) :
    g.compute inputs current previous = ⟨cell.eval inputs, current, [cell.tag]⟩ := by
  rw [Gate.compute]
  split <;> simp_all

theorem Gate.compute_tables {g : Gate} {logic : TableLogic} (h : g.logic = .tables logic)
    (inputs : Bits) (current : Context) (previous : Option Context) :
    g.compute inputs current previous = ⟨logic.compute inputs, current, []⟩ := by
  rw [Gate.compute]
  split <;> simp_all

/-- A hierarchical gate reads the outputs of its internal netlist with its inputs driven. -/
theorem Gate.compute_hierarchical {g : Gate} {nl : Netlist Gate} (h : g.logic = .hierarchical nl)
    (inputs : Bits) (current : Context) (previous : Option Context) :
    g.compute inputs current previous =
      (nl.within previous).readPins (current.setPins nl.inputs inputs) nl.outputs := by
  rw [Gate.compute]
  split
  · next h' => rw [h] at h'; exact nomatch h'
  · next h' => rw [h] at h'; exact nomatch h'
  · next h' =>
    rw [h] at h'
    injection h' with h'
    subst h'
    have same : (fun (id : NodeId) (inputs : Bits) (inner : Context) (before : Option Context) =>
        match _ : nl.gate? id with
        | some placed => placed.compute inputs inner before
        | none => (⟨[], inner, []⟩ : Outcome Bits)) = nl.respond := by
      funext id inputs inner before
      unfold Netlist.respond
      split <;> simp_all
    simp only [Netlist.within, ← same]

/-- Why a gate cannot be evaluated alone. -/
inductive GateError where
  | wrongArity (name : String) (inputs given : Nat)
  | tooWide (name : String) (inputs : Nat)
  deriving DecidableEq, Repr, Inhabited

/-- The largest number of inputs for which all input rows are enumerated. -/
def maxTableInputs : Nat := 16

def GateError.message : GateError → String
  | .wrongArity name inputs given =>
    s!"Gate {name} has {inputs} inputs, but {given} values were given."
  | .tooWide name inputs =>
    s!"Gate {name} has {inputs} inputs, truth tables are limited to {maxTableInputs} inputs."

/-- A value with the tags of the cells that were called on the way, the latest first. -/
structure Metered (α : Type) where
  value : α
  calls : List Nat

namespace Gate

/-- The outputs of the gate alone, as in the first tick of a fresh placement. -/
def respondFresh (g : Gate) (inputs : Bits) : Metered Bits :=
  let answer := g.compute inputs ∅ none
  ⟨answer.value, answer.calls⟩

/-- The outputs of the gate alone, for one value per input. -/
def evaluate (g : Gate) (inputs : Bits) : Metered (Except GateError Bits) :=
  if inputs.length = g.inputs.length then
    let answer := g.respondFresh inputs
    ⟨.ok answer.value, answer.calls⟩
  else ⟨.error (.wrongArity g.name g.inputs.length inputs.length), []⟩

/-- The outputs for every row of input values, in the order of the packed rows. -/
def truthTable (g : Gate) : Metered (Except GateError (List Bits)) :=
  let width := g.inputs.length
  if maxTableInputs < width then ⟨.error (.tooWide g.name width), []⟩
  else
    let rows := (Bits.all width).map g.respondFresh
    ⟨.ok (rows.map (·.value)), rows.reverse.flatMap (·.calls)⟩

end Gate

end Breadboard
