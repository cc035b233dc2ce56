import Breadboard.Simulator
import Breadboard.Netlist.Copy

namespace Breadboard

/-- A netlist with the pins and the node of the gate under test. -/
structure Bench where
  netlist : Netlist Gate
  inputs : List NodeId
  outputs : List NodeId
  node : NodeId

/-- The bench of a gate, or the link that it refuses. -/
def Bench.ofGate (gate : Gate) : Except EditError Bench :=
  let (inputs, nl) := Netlist.addEach Netlist.addInput ∅ gate.inputs
  let (outputs, nl) := Netlist.addEach Netlist.addOutput nl gate.outputs
  let (node, nl) := nl.place gate
  let links := inputs.zipIdx.map (fun (pin, i) => (node, i, ⟨pin, 0⟩)) ++
    outputs.zipIdx.map (fun (pin, i) => (pin, 0, ⟨node, i⟩))
  match nl.linkAll links with
  | (.error cause, _) => .error cause
  | (.ok _, netlist) => .ok { netlist, inputs, outputs, node }

end Breadboard
