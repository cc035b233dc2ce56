import Breadboard.Project.Load
import Breadboard.Json.Printer

namespace Breadboard

open Json

/-- A node as a value; the gate type comes before the other fields. -/
def NodeDef.toJson (d : NodeDef) : Value :=
  .object (("gateTypeName", .string d.gateType) :: d.extra)

/-- A natural number as a value, `null` for none. -/
def optionalToJson : Option Nat → Value
  | some n => .ofNat n
  | none => .null

def LinkDef.toJson (d : LinkDef) : Value :=
  .object
    [("node", optionalToJson d.node), ("index", .ofNat d.index), ("to", optionalToJson d.dest),
      ("inIndex", .ofNat d.inIndex),
      ("routingPoints", .array (d.routingPoints.map fun (x, y) =>
        .array [.number (.float x), .number (.float y)]))]

def pinToJson (name : String) : Value := .object [("name", .string name)]

def GateDef.toJson (d : GateDef) : Value :=
  .object
    [("name", .string d.name), ("nodes", .array (d.nodes.map NodeDef.toJson)),
      ("links", .array (d.links.map LinkDef.toJson)), ("inputs", .array (d.inputs.map pinToJson)),
      ("outputs", .array (d.outputs.map pinToJson)), ("metadata", .object d.metadata.entries)]

def Project.toJson (p : Project) : Value := .object [("gates", .array (p.gates.map GateDef.toJson))]

def Project.write (p : Project) : String := p.toJson.pretty

end Breadboard
