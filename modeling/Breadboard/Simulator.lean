import Breadboard.Evaluation.Compute
import Breadboard.Netlist.Edit

namespace Breadboard

/-- A netlist with the contexts of its last tick and of the tick before. -/
structure Simulator where
  netlist : Netlist Gate := ∅
  current : Context := ∅
  previous : Option Context := none
  ticks : Nat := 0

namespace Simulator

/-- A simulator that has not ticked. -/
def ofNetlist (netlist : Netlist Gate) : Simulator := { netlist }

/-- Edit the netlist; the edit takes effect at the next tick. -/
def edit {α : Type} (sim : Simulator) (change : Netlist Gate → α × Netlist Gate) :
    α × Simulator :=
  let (answer, netlist) := change sim.netlist
  (answer, { sim with netlist })

/-- Evaluate every boundary output and then every other node in a fresh context. The context of the
last tick becomes the previous one. -/
def tick (sim : Simulator) : Metered Simulator :=
  let previous := if sim.ticks = 0 then sim.previous else some sim.current
  let surroundings := sim.netlist.within previous
  let first := surroundings.readPins ∅ sim.netlist.outputs
  let rest := surroundings.evalNodes first.context (sim.netlist.live.map (·.1))
  ⟨{ sim with current := rest.context, previous, ticks := sim.ticks + 1 },
    rest.calls ++ first.calls⟩

/-- An output of a node at the last tick, low if it has none. -/
def readOutput (sim : Simulator) (id : NodeId) (output : Nat) : Bool :=
  (sim.current.output? ⟨id, output⟩).getD false

/-- What a boundary output showed at the last tick. -/
def readPin (sim : Simulator) (pin : NodeId) : Bool :=
  match sim.netlist.source? pin 0 with
  | some link => sim.readOutput link.node link.output
  | none => false

end Simulator

end Breadboard
