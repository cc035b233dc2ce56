import Breadboard.Compilation.Closure
import Breadboard.Netlist.Copy

namespace Breadboard

/-- A gate that could not be compiled, and why. -/
structure CompileError where
  gate : String
  cause : BoundaryError
  deriving DecidableEq, Repr, Inhabited

/-- The texts of the error, outermost first. -/
def CompileError.chain (e : CompileError) : List String :=
  [s!"Compiling gate {e.gate}", e.cause.message]

namespace Netlist

/-- The positions in `pins` of the pins of an island. -/
def positions (pins islandPins : List NodeId) : List Nat := islandPins.filterMap (pins.idxOf? ·)

/-- The outputs of an island for one row of its inputs, in a context of their own. -/
def islandRow (nl : Netlist Gate) (island : Island) (row : Bits) : Metered Bits :=
  let answer := (nl.within none).readPins (Context.withPins (island.inputs.zip row)) island.outputs
  ⟨answer.value, answer.calls⟩

/-- The truth table of an island, by evaluation for every row of its inputs. -/
def islandTable (nl : Netlist Gate) (inputs outputs : List NodeId) (island : Island) :
    Metered GateTable :=
  let rows := (Bits.all island.inputs.length).map (nl.islandRow island)
  { value :=
      { inputs := positions inputs island.inputs
        outputs := positions outputs island.outputs
        rows := (rows.map (·.value)).toArray }
    calls := rows.reverse.flatMap (·.calls) }

/-- The names of pins, empty for a missing node. -/
def pinNames (nl : Netlist Gate) (pins : List NodeId) : List String :=
  pins.map fun id => ((nl.node? id).map (·.name)).getD ""

/-- The gate made of the tables of islands. -/
def tabledGate (nl : Netlist Gate) (name : String) (inputs outputs : List NodeId)
    (metadata : Metadata) (islands : List Island) : Metered (Except BoundaryError Gate) :=
  let tables := islands.map (nl.islandTable inputs outputs)
  let names := nl.gateNames (islands.flatMap (·.nodes))
  { value :=
      match TableLogic.ofTables (tables.map (·.value)) outputs.length with
      | .error output => .error (.unrouted output)
      | .ok logic => .ok
        { name
          inputs := nl.pinNames inputs
          outputs := nl.pinNames outputs
          logic := .tables logic
          metadata := (metadata.insert Metadata.hierarchical (.bool false)).insert
            Metadata.dependencies (.strings names) }
    calls := tables.reverse.flatMap (·.calls) }

/-- The gate made of a copy of the nodes behind the boundary. -/
def hierarchicalGate (nl : Netlist Gate) (name : String) (inputs outputs : List NodeId)
    (metadata : Metadata) : Except BoundaryError Gate :=
  match nl.closure inputs outputs with
  | .error cause => .error cause
  | .ok nodes =>
    match nl.extract nodes with
    | .error cause => .error (.refused cause)
    | .ok (internals, _) => .ok
      { name
        inputs := nl.pinNames inputs
        outputs := nl.pinNames outputs
        logic := .hierarchical internals
        metadata := ((metadata.insert Metadata.hierarchical (.bool true)).insert
          Metadata.dependencies (.strings (nl.gateNames nodes))).insert
          Metadata.internalNodes (.ofNat internals.size) }

/-- Compile the part of a netlist between two lists of pins. The pins of the gate are in the order
of the lists. -/
def compileBetween (nl : Netlist Gate) (name : String) (inputs outputs : List NodeId)
    (metadata : Metadata) : Metered (Except CompileError Gate) :=
  let answer : Metered (Except BoundaryError Gate) :=
    match nl.decompose inputs outputs with
    | .error cause => ⟨.error cause, []⟩
    | .ok (.islands islands) => nl.tabledGate name inputs outputs metadata islands
    | .ok (.fallback _) => ⟨nl.hierarchicalGate name inputs outputs metadata, []⟩
  ⟨answer.value.mapError (⟨name, ·⟩), answer.calls⟩

/-- Compile a netlist between its own boundary pins. -/
def compile (nl : Netlist Gate) (name : String) (metadata : Metadata) :
    Metered (Except CompileError Gate) :=
  nl.compileBetween name nl.inputs nl.outputs metadata

end Netlist

end Breadboard
