import Breadboard.Registry
import Breadboard.Compilation.Compile

namespace Breadboard

/-- A placed gate type, with properties that only editors use, by ascending key. -/
structure NodeDef where
  gateType : String
  extra : List (String × Json.Value) := []
  deriving Inhabited

/-- A link from output `index` of `node` to input `inIndex` of `dest`. Without a node it starts at
boundary input `index`, without a destination it ends at boundary output `inIndex`; other values
are positions in the node list. -/
structure LinkDef where
  node : Option Nat
  index : Nat
  dest : Option Nat
  inIndex : Nat
  routingPoints : List (Float × Float) := []
  deriving Inhabited

/-- A composite gate as it is kept. -/
structure GateDef where
  name : String
  nodes : List NodeDef
  links : List LinkDef
  inputs : List String
  outputs : List String
  metadata : Metadata
  deriving Inhabited

/-- What the end of a kept link may refer to. -/
inductive LinkEnd where
  | node
  | inputPin
  | outputPin
  deriving DecidableEq, Repr, Inhabited

def LinkEnd.word : LinkEnd → String
  | .node => "node"
  | .inputPin => "input pin"
  | .outputPin => "output pin"

/-- Why a definition gives no netlist. -/
inductive RehydrationError where
  | unknownGate (cause : RegistryError)
  | missingEnd (kind : LinkEnd) (position : Nat)
  | refused (cause : EditError)
  deriving DecidableEq, Repr, Inhabited

def RehydrationError.message : RehydrationError → String
  | .unknownGate cause => cause.message
  | .missingEnd kind position =>
    s!"Link refers to {kind.word} {position}, which does not exist."
  | .refused cause => cause.message

/-- Why a definition gives no gate. -/
inductive DefinitionError where
  | rehydration (gate : String) (cause : RehydrationError)
  | compilation (cause : CompileError)
  deriving DecidableEq, Repr, Inhabited

/-- The texts of the error, outermost first. -/
def DefinitionError.chain : DefinitionError → List String
  | .rehydration gate cause => [s!"Rehydrating gate {gate}", cause.message]
  | .compilation cause => cause.chain

namespace GateDef

/-- The gate types that the definition places, ascending and without repetition. -/
def dependencies (d : GateDef) : List String :=
  (d.nodes.map (·.gateType)).mergeSort (fun a b => a ≤ b) |>.eraseReps

/-- The gates registered under the types of the nodes. -/
def resolveAll (registry : Registry) : List NodeDef → Except RegistryError (List Gate)
  | [] => .ok []
  | node :: nodes =>
    match registry.resolve node.gateType with
    | .error cause => .error cause
    | .ok entry => (resolveAll registry nodes).map (entry.gate :: ·)

/-- The handle at a position. -/
def locate (kind : LinkEnd) (ids : List NodeId) (position : Nat) :
    Except RehydrationError NodeId :=
  match ids[position]? with
  | some id => .ok id
  | none => .error (.missingEnd kind position)

/-- Where a kept link starts: a node and one of its outputs. -/
def linkSource (nodes inputs : List NodeId) (link : LinkDef) :
    Except RehydrationError (NodeId × Nat) :=
  match link.node with
  | some position => (locate .node nodes position).map (·, link.index)
  | none => (locate .inputPin inputs link.index).map (·, 0)

/-- Where a kept link ends: a node and one of its slots. -/
def linkDestination (nodes outputs : List NodeId) (link : LinkDef) :
    Except RehydrationError (NodeId × Nat) :=
  match link.dest with
  | some position => (locate .node nodes position).map (·, link.inIndex)
  | none => (locate .outputPin outputs link.inIndex).map (·, 0)

/-- Make the kept links one after another. -/
def connect (nodes inputs outputs : List NodeId) (nl : Netlist Gate) :
    List LinkDef → Except RehydrationError (Netlist Gate)
  | [] => .ok nl
  | link :: links =>
    match linkSource nodes inputs link with
    | .error e => .error e
    | .ok (source, output) =>
      match linkDestination nodes outputs link with
      | .error e => .error e
      | .ok (dest, slot) =>
        match nl.link dest slot source output with
        | (.error cause, _) => .error (.refused cause)
        | (.ok _, nl) => connect nodes inputs outputs nl links

/-- The netlist of a definition, with the gates that a registry has under the placed types. -/
def toNetlist (d : GateDef) (registry : Registry) : Except RehydrationError (Netlist Gate) :=
  let (inputs, nl) := Netlist.addEach Netlist.addInput ∅ d.inputs
  let (outputs, nl) := Netlist.addEach Netlist.addOutput nl d.outputs
  match resolveAll registry d.nodes with
  | .error cause => .error (.unknownGate cause)
  | .ok gates =>
    let (nodes, nl) := Netlist.addEach Netlist.place nl gates
    connect nodes inputs outputs nl d.links

/-- Where a link starts, in terms of positions. -/
def keptSource (nodes inputs : List NodeId) (link : Link) : Option (Option Nat × Nat) :=
  match nodes.idxOf? link.node with
  | some position => some (some position, link.output)
  | none => (inputs.idxOf? link.node).map fun pin => (none, pin)

/-- The kept form of the link in a slot. -/
def keptLink (nodes inputs : List NodeId) (dest : Option Nat) (inIndex : Nat) (slot : Option Link) :
    Option LinkDef :=
  slot.bind fun link =>
    (keptSource nodes inputs link).map fun (node, index) => { node, index, dest, inIndex }

/-- The kept form of a netlist: its links are listed by destination, gate nodes before boundary
outputs. -/
def ofNetlist (name : String) (nl : Netlist Gate) (metadata : Metadata) : GateDef :=
  let nodes := nl.gates.map (·.1)
  let toGates := nodes.zipIdx.flatMap fun (id, position) =>
    (nl.slots id).zipIdx.filterMap fun (slot, index) =>
      keptLink nodes nl.inputs (some position) index slot
  let toOutputs := nl.outputs.zipIdx.flatMap fun (id, position) =>
    (nl.slots id).filterMap fun slot => keptLink nodes nl.inputs none position slot
  { name
    nodes := nl.gates.map fun (_, gate) => { gateType := gate.name }
    links := toGates ++ toOutputs
    inputs := nl.inputs.filterMap fun id => (nl.node? id).map (·.name)
    outputs := nl.outputs.filterMap fun id => (nl.node? id).map (·.name)
    metadata }

def compile (d : GateDef) (registry : Registry) : Metered (Except DefinitionError Gate) :=
  match d.toNetlist registry with
  | .error cause => ⟨.error (.rehydration d.name cause), []⟩
  | .ok nl =>
    let answer := nl.compile d.name d.metadata
    ⟨answer.value.mapError .compilation, answer.calls⟩

end GateDef

end Breadboard
