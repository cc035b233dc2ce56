import Breadboard.Gate.Table
import Breadboard.Netlist.Basic
import Breadboard.Named
import Breadboard.Json.Basic

namespace Breadboard

/-- A function of the input values. Cells with one tag share one function, whose calls are
counted together. -/
structure Cell where
  tag : Nat
  eval : Bits → Bits

/-- How a gate computes its outputs; `ν` is the type of internal netlists. -/
inductive Logic (ν : Type) where
  | primitive (cell : Cell)
  | tables (logic : TableLogic)
  | hierarchical (internals : ν)

/-- Open, ordered properties of a gate type. -/
abbrev Metadata := Named Json.Value

/-- A gate type with the names of its pins. -/
structure Gate where
  name : String
  inputs : List String
  outputs : List String
  logic : Logic (Netlist Gate)
  metadata : Metadata

namespace Metadata

def color : String := "color"

/-- Whether the gate was compiled to an internal netlist. -/
def hierarchical : String := "hierarchical"

def dependencies : String := "dependencies"

def internalNodes : String := "internalNodes"

end Metadata

namespace Gate

def internals? (g : Gate) : Option (Netlist Gate) :=
  match g.logic with
  | .hierarchical internals => some internals
  | _ => none

/-- Whether the gate interprets an internal netlist, and so may hold state. -/
def isHierarchical (g : Gate) : Bool := g.internals?.isSome

def cell? (g : Gate) : Option Cell :=
  match g.logic with
  | .primitive cell => some cell
  | _ => none

/-- The gate with further metadata, which overrides what it has. -/
def withMetadata (g : Gate) (metadata : Metadata) : Gate :=
  { g with metadata := g.metadata.insertAll metadata.entries }

/-- The editor's color, if it is a text. -/
def color? (g : Gate) : Option String := (g.metadata.get? Metadata.color).bind (·.string?)

/-- The gate types that the gate is built of, as its metadata lists them. -/
def dependencies (g : Gate) : List String :=
  ((g.metadata.get? Metadata.dependencies).bind (·.stringItems?)).getD []

def inputIndex? (g : Gate) (name : String) : Option Nat := g.inputs.idxOf? name

def outputIndex? (g : Gate) (name : String) : Option Nat := g.outputs.idxOf? name

end Gate

namespace Node

/-- Number of outputs that other nodes can read. -/
def outputCount (node : Node Gate) : Nat :=
  match node.kind with
  | .gate g => g.outputs.length
  | .input _ => 1
  | .output _ => 0

/-- The name of the gate type or of the pin. -/
def name (node : Node Gate) : String :=
  match node.kind with
  | .gate g => g.name
  | .input pin => pin.name
  | .output pin => pin.name

end Node

namespace Netlist

/-- Whether a handle names a live placement of a hierarchical gate. -/
def isHierarchical (nl : Netlist Gate) (id : NodeId) : Bool :=
  ((nl.gate? id).map (·.isHierarchical)).getD false

/-- A gate is larger than every gate placed in its internal netlist. -/
theorem sizeOf_gate_lt {nl : Netlist Gate} {id : NodeId} {g : Gate} (h : nl.gate? id = some g) :
    sizeOf g < sizeOf nl := by
  obtain ⟨node, hn, hk⟩ := gate?_eq_some.1 h
  have hmem : some node ∈ nl.nodes := by
    simp only [node?, Option.join_eq_some_iff] at hn
    exact Array.mem_of_getElem? hn
  have h1 : sizeOf (some node) < sizeOf nl.nodes := Array.sizeOf_lt_of_mem hmem
  have h2 : sizeOf nl.nodes < sizeOf nl := by cases nl; simp; omega
  have h3 : sizeOf node.kind < sizeOf node := by cases node; simp; omega
  have h4 : sizeOf g < sizeOf node.kind := by rw [hk]; simp
  have h5 : sizeOf node < sizeOf (some node) := by simp
  omega

end Netlist

theorem Gate.sizeOf_internals_lt {g : Gate} {nl : Netlist Gate} (h : g.logic = .hierarchical nl) :
    sizeOf nl < sizeOf g := by
  cases g
  simp only at h
  subst h
  simp
  omega

end Breadboard
