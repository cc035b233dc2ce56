import Breadboard.Simulator

namespace Breadboard

/-- The boundary pin that a wire of the dump shows. -/
inductive Signal where
  | input (pin : NodeId)
  | output (pin : NodeId)
  deriving DecidableEq, Repr

namespace Waveform

/-- The identifier code of the `i`-th wire: its digits in base 94 without a zero digit, least
significant first, written with the printable characters from `!` on. -/
def code (i : Nat) : List Char :=
  let digit := Char.ofNat (33 + i % 94)
  if h : i < 94 then [digit] else digit :: code (i / 94 - 1)
termination_by i
decreasing_by omega

/-- A line that is read by a dump: declarations of the header, times, and value changes. -/
inductive Line where
  | timescale
  | scope (name : String)
  | wire (code : List Char) (name : String)
  | upscope
  | endDefinitions
  | time (units : Nat)
  | change (code : List Char) (value : Bool)
  deriving DecidableEq, Repr

def Line.text : Line → String
  | .timescale => "$timescale 1 ns $end"
  | .scope name => s!"$scope module {name} $end"
  | .wire code name => s!"$var wire 1 {String.ofList code} {name} $end"
  | .upscope => "$upscope $end"
  | .endDefinitions => "$enddefinitions $end"
  | .time units => s!"#{units}"
  | .change code value => (if value then "1" else "0") ++ String.ofList code

end Waveform

/-- A dump in progress: the wires with their codes, the code of the clock, and the time reached. -/
structure Waveform where
  signals : List (List Char × Signal)
  clock : List Char
  time : Nat := 0

namespace Waveform

/-- The boundary pins of a netlist with their names, inputs first. -/
def boundary (nl : Netlist Gate) : List (Signal × String) :=
  let named (signal : NodeId → Signal) (id : NodeId) :=
    (nl.node? id).map fun node => (signal id, node.name)
  nl.inputs.filterMap (named .input) ++ nl.outputs.filterMap (named .output)

/-- Start a dump, with a wire for every boundary pin and one for the clock in a single scope. -/
def start (scope : String) (nl : Netlist Gate) : List Line × Waveform :=
  let pins := (boundary nl).zipIdx.map fun ((signal, name), i) => (code i, signal, name)
  let clock := code pins.length
  let wires := pins.map fun (code, _, name) => Line.wire code name
  ([.timescale, .scope scope] ++ wires ++
      [.wire clock "clock", .upscope, .endDefinitions, .time 0],
    { signals := pins.map fun (code, signal, _) => (code, signal), clock })

def value (sim : Simulator) : Signal → Bool
  | .input pin => sim.readOutput pin 0
  | .output pin => sim.readPin pin

/-- Record the values of the last tick and one period of the clock, of ten time units, which is high
in its first half. -/
def record (w : Waveform) (sim : Simulator) : List Line × Waveform :=
  (w.signals.map (fun (code, signal) => .change code (value sim signal)) ++
      [.change w.clock true, .time (w.time + 5), .change w.clock false, .time (w.time + 10)],
    { w with time := w.time + 10 })

end Waveform

end Breadboard
