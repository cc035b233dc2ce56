import Breadboard.Project.Load
import Breadboard.Json.Shape

namespace Breadboard

open Json

/-- A field that is kept in an optional place of a record under construction. -/
def storedField {σ α : Type} (name : String) (optional : Bool) (get : σ → Option α)
    (set : σ → α → σ) (reader : Nat → Reader α) : RecordField σ where
  name
  optional
  isRead state := (get state).isSome
  read levels state bytes := (reader levels bytes).map fun (a, rest) => (set state a, rest)

structure NodeDraft where
  gateType : Option String := none
  extra : List (String × Value) := []

/-- How the value of a key of a node is read. -/
def NodeDraft.announce (levels : Nat) (draft : NodeDraft) (key : String) :
    Except ReadError (Reader NodeDraft) :=
  if key = "gateTypeName" then
    if draft.gateType.isSome then .error (.mismatch (.duplicateField key))
    else .ok fun bytes => (text bytes).map fun (name, rest) =>
      ({ draft with gateType := some name }, rest)
  else
    .ok fun bytes => (value levels bytes).map fun (v, rest) =>
      ({ draft with extra := (key, v) :: draft.extra }, rest)

def NodeDef.reader (levels : Nat) : Reader NodeDef := fun bytes =>
  match mapOf "struct NodeDef" levels NodeDraft.announce {} bytes with
  | .error e => .error e
  | .ok (draft, rest) =>
    match draft.gateType with
    | none => .error (.mismatch (.missingField "gateTypeName"))
    | some gateType => .ok (⟨gateType, sortFields draft.extra.reverse⟩, rest)

structure LinkDraft where
  node : Option (Option Nat) := none
  index : Option Nat := none
  dest : Option (Option Nat) := none
  inIndex : Option Nat := none
  routingPoints : Option (List (Float × Float)) := none

def LinkDraft.fields : List (RecordField LinkDraft) :=
  [storedField "node" true (·.node) (fun d a => { d with node := some a }) fun _ => optionalNatural,
    storedField "index" false (·.index) (fun d a => { d with index := some a }) fun _ => natural,
    storedField "to" true (·.dest) (fun d a => { d with dest := some a }) fun _ => optionalNatural,
    storedField "inIndex" false (·.inIndex) (fun d a => { d with inIndex := some a })
      fun _ => natural,
    storedField "routingPoints" true (·.routingPoints)
      (fun d a => { d with routingPoints := some a }) fun levels => listOf levels floatPair]

def LinkDraft.finish (d : LinkDraft) : LinkDef where
  node := d.node.join
  index := d.index.getD 0
  dest := d.dest.join
  inIndex := d.inIndex.getD 0
  routingPoints := d.routingPoints.getD []

def LinkDef.reader (levels : Nat) : Reader LinkDef := fun bytes =>
  (record "struct LinkDef" LinkDraft.fields {} levels bytes).map fun (d, rest) => (d.finish, rest)

/-- Read a boundary pin, which is its name. -/
def pinReader (levels : Nat) : Reader String := fun bytes =>
  let fields : List (RecordField (Option String)) :=
    [storedField "name" false (fun d => d) (fun _ a => some a) fun _ => text]
  (record "struct PinDef" fields none levels bytes).map fun (d, rest) => (d.getD "", rest)

def Metadata.reader (levels : Nat) : Reader Metadata :=
  mapOf "a map" levels (fun levels metadata key => .ok fun bytes =>
    (value levels bytes).map fun (v, rest) => (metadata.insert key v, rest)) (∅ : Metadata)

structure GateDraft where
  name : Option String := none
  nodes : Option (List NodeDef) := none
  links : Option (List LinkDef) := none
  inputs : Option (List String) := none
  outputs : Option (List String) := none
  metadata : Option Metadata := none

def GateDraft.fields : List (RecordField GateDraft) :=
  [storedField "name" false (·.name) (fun d a => { d with name := some a }) fun _ => text,
    storedField "nodes" false (·.nodes) (fun d a => { d with nodes := some a })
      fun levels => listOf levels NodeDef.reader,
    storedField "links" false (·.links) (fun d a => { d with links := some a })
      fun levels => listOf levels LinkDef.reader,
    storedField "inputs" false (·.inputs) (fun d a => { d with inputs := some a })
      fun levels => listOf levels pinReader,
    storedField "outputs" false (·.outputs) (fun d a => { d with outputs := some a })
      fun levels => listOf levels pinReader,
    storedField "metadata" true (·.metadata) (fun d a => { d with metadata := some a })
      Metadata.reader]

def GateDraft.finish (d : GateDraft) : GateDef where
  name := d.name.getD ""
  nodes := d.nodes.getD []
  links := d.links.getD []
  inputs := d.inputs.getD []
  outputs := d.outputs.getD []
  metadata := d.metadata.getD ∅

def GateDef.reader (levels : Nat) : Reader GateDef := fun bytes =>
  (record "struct GateDef" GateDraft.fields {} levels bytes).map fun (d, rest) => (d.finish, rest)

def Project.reader (levels : Nat) : Reader Project := fun bytes =>
  let fields : List (RecordField (Option (List GateDef))) :=
    [storedField "gates" false (fun d => d) (fun _ a => some a)
      fun levels => listOf levels GateDef.reader]
  (record "struct Project" fields none levels bytes).map fun (d, rest) => (⟨d.getD []⟩, rest)

def Project.read (bytes : Bytes) : Except ReadError Project :=
  document (Project.reader maxLevels) bytes

end Breadboard
