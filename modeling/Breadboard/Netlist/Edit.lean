import Breadboard.Gate.Basic

namespace Breadboard

/-- Why an edit was refused. -/
inductive EditError where
  | missing (id : NodeId)
  | missingSource (id : NodeId)
  | notCopied (id : NodeId)
  | noOutput (id : NodeId) (name : String) (count output : Nat)
  | noInput (id : NodeId) (name : String) (count slot : Nat)
  | noSlot (id : NodeId) (count slot : Nat)
  | notInputPin (id : NodeId)
  deriving DecidableEq, Repr, Inhabited

def EditError.message : EditError → String
  | .missing id => s!"Node {id} does not exist."
  | .missingSource id => s!"Cannot link from node {id}: it does not exist."
  | .notCopied id => s!"Cannot copy node {id}: it does not exist."
  | .noOutput id name count output =>
    s!"Node {id} ({name}) has {count} outputs, cannot link from output {output}."
  | .noInput id name count slot =>
    s!"Node {id} ({name}) has {count} inputs, cannot link to input {slot}."
  | .noSlot id count slot => s!"Node {id} has {count} inputs, cannot unlink input {slot}."
  | .notInputPin id => s!"Node {id} is not an input pin."

/-- The pin with another index; a gate stays as it is. -/
def NodeKind.withIndex {γ : Type} (index : Nat) : NodeKind γ → NodeKind γ
  | .gate part => .gate part
  | .input pin => .input { pin with index }
  | .output pin => .output { pin with index }

/-- The input pin with another state; other kinds stay as they are. -/
def NodeKind.withState {γ : Type} (state : Bool) : NodeKind γ → NodeKind γ
  | .input pin => .input { pin with state }
  | kind => kind

/-- The node without its links to `id`. -/
def Node.forget {γ : Type} (id : NodeId) (node : Node γ) : Node γ :=
  { node with slots := node.slots.map fun slot => slot.filter (·.node != id) }

namespace Netlist

variable {γ : Type}

/-- Change the node behind a handle, if it is live. -/
def modifyNode (nl : Netlist γ) (id : NodeId) (f : Node γ → Node γ) : Netlist γ :=
  { nl with nodes := nl.nodes.modify id (Option.map f) }

/-- Add a node under a new handle. A pin goes to the end of its boundary list and takes its index
from there. -/
def insert (nl : Netlist γ) (node : Node γ) : NodeId × Netlist γ :=
  let id := nl.next
  match node.kind with
  | .gate _ => (id, { nl with nodes := nl.nodes.push (some node) })
  | .input _ =>
    let pin := { node with kind := node.kind.withIndex nl.inputs.length }
    (id, { nl with nodes := nl.nodes.push (some pin), inputs := nl.inputs ++ [id] })
  | .output _ =>
    let pin := { node with kind := node.kind.withIndex nl.outputs.length }
    (id, { nl with nodes := nl.nodes.push (some pin), outputs := nl.outputs ++ [id] })

/-- Place an instance of a gate, all inputs disconnected. -/
def place (nl : Netlist Gate) (g : Gate) : NodeId × Netlist Gate :=
  nl.insert ⟨.gate g, List.replicate g.inputs.length none⟩

/-- Add a boundary input, driven low. -/
def addInput (nl : Netlist γ) (name : String) : NodeId × Netlist γ :=
  nl.insert ⟨.input ⟨name, nl.inputs.length, false⟩, []⟩

/-- Add a boundary output, disconnected. -/
def addOutput (nl : Netlist γ) (name : String) : NodeId × Netlist γ :=
  nl.insert ⟨.output ⟨name, nl.outputs.length⟩, [none]⟩

/-- Add pins or gates one after another; answers their handles. -/
def addEach {α : Type} (add : Netlist Gate → α → NodeId × Netlist Gate) :
    Netlist Gate → List α → List NodeId × Netlist Gate
  | nl, [] => ([], nl)
  | nl, a :: as =>
    let (id, nl) := add nl a
    let (ids, nl) := addEach add nl as
    (id :: ids, nl)

/-- The first pin of a list with a name. -/
def pinByName? (nl : Netlist Gate) (pins : List NodeId) (name : String) : Option NodeId :=
  pins.find? fun id => (nl.node? id).any (·.name == name)

def inputByName? (nl : Netlist Gate) (name : String) : Option NodeId :=
  nl.pinByName? nl.inputs name

def outputByName? (nl : Netlist Gate) (name : String) : Option NodeId :=
  nl.pinByName? nl.outputs name

def setSlot (nl : Netlist γ) (dest : NodeId) (slot : Nat) (link : Option Link) : Netlist γ :=
  nl.modifyNode dest fun node => { node with slots := node.slots.set slot link }

/-- Connect a slot to an output of `source`; answers the link that was replaced. -/
def link (nl : Netlist Gate) (dest : NodeId) (slot : Nat) (source : NodeId) (output : Nat) :
    Except EditError (Option Link) × Netlist Gate :=
  match nl.node? source with
  | none => (.error (.missingSource source), nl)
  | some node =>
    if node.outputCount ≤ output then
      (.error (.noOutput source node.name node.outputCount output), nl)
    else
      match nl.node? dest with
      | none => (.error (.missing dest), nl)
      | some target =>
        match target.slots[slot]? with
        | none => (.error (.noInput dest target.name target.slots.length slot), nl)
        | some old => (.ok old, nl.setSlot dest slot (some ⟨source, output⟩))

/-- Disconnect a slot; answers its link. -/
def unlink (nl : Netlist γ) (dest : NodeId) (slot : Nat) :
    Except EditError (Option Link) × Netlist γ :=
  match nl.node? dest with
  | none => (.error (.missing dest), nl)
  | some target =>
    match target.slots[slot]? with
    | none => (.error (.noSlot dest target.slots.length slot), nl)
    | some old => (.ok old, nl.setSlot dest slot none)

/-- Empty the place of a node, and every slot that reads from it. -/
def detach (nl : Netlist γ) (id : NodeId) : Netlist γ :=
  { nl with
    nodes := (nl.nodes.modify id fun _ => none).map (Option.map (Node.forget id)) }

/-- Write into every boundary pin its position in its list. -/
def reindex (nl : Netlist γ) : Netlist γ :=
  (nl.inputs.zipIdx ++ nl.outputs.zipIdx).foldl (fun nl (id, index) =>
    nl.modifyNode id fun node => { node with kind := node.kind.withIndex index }) nl

/-- Remove a node and every link that reads from it; answers the node as it was. -/
def remove (nl : Netlist γ) (id : NodeId) : Except EditError (Node γ) × Netlist γ :=
  match nl.node? id with
  | none => (.error (.missing id), nl)
  | some node =>
    let rest := nl.detach id
    (.ok node,
      match node.kind with
      | .gate _ => rest
      | .input _ => reindex { rest with inputs := rest.inputs.filter (· != id) }
      | .output _ => reindex { rest with outputs := rest.outputs.filter (· != id) })

/-- Replace the state of an input pin by a function of it; answers the new state. -/
def updatePin (nl : Netlist γ) (id : NodeId) (f : Bool → Bool) :
    Except EditError Bool × Netlist γ :=
  match nl.kind? id with
  | none => (.error (.missing id), nl)
  | some (.input pin) =>
    let state := f pin.state
    (.ok state, nl.modifyNode id fun node => { node with kind := node.kind.withState state })
  | some _ => (.error (.notInputPin id), nl)

def drive (nl : Netlist γ) (id : NodeId) (value : Bool) : Except EditError Unit × Netlist γ :=
  let (answer, edited) := nl.updatePin id fun _ => value
  (answer.map fun _ => (), edited)

/-- Flip the external state of an input pin; answers the new state. -/
def toggle (nl : Netlist γ) (id : NodeId) : Except EditError Bool × Netlist γ :=
  nl.updatePin id not

def pinState (nl : Netlist γ) (id : NodeId) : Except EditError Bool :=
  match nl.inputPin? id with
  | some pin => .ok pin.state
  | none => .error (.notInputPin id)

theorem node?_modifyNode (nl : Netlist γ) (id : NodeId) (f : Node γ → Node γ) (id' : NodeId) :
    (nl.modifyNode id f).node? id' = if id = id' then (nl.node? id').map f else nl.node? id' := by
  by_cases h : id = id' <;> cases hn : nl.nodes[id']? with
  | none => simp [node?, modifyNode, Array.getElem?_modify, h, hn]
  | some node => cases node <;> simp [node?, modifyNode, Array.getElem?_modify, h, hn]

@[simp] theorem next_modifyNode (nl : Netlist γ) (id : NodeId) (f : Node γ → Node γ) :
    (nl.modifyNode id f).next = nl.next := by simp [next, modifyNode]

theorem node?_detach (nl : Netlist γ) (id id' : NodeId) :
    (nl.detach id).node? id' = if id = id' then none else (nl.node? id').map (Node.forget id) := by
  by_cases h : id = id' <;> cases hn : nl.nodes[id']? with
  | none => simp [node?, detach, Array.getElem?_modify, h, hn]
  | some node => cases node <;> simp [node?, detach, Array.getElem?_modify, h, hn]

@[simp] theorem next_detach (nl : Netlist γ) (id : NodeId) : (nl.detach id).next = nl.next := by
  simp [next, detach]

@[simp] theorem insert_fst (nl : Netlist γ) (node : Node γ) : (nl.insert node).1 = nl.next := by
  unfold insert
  split <;> rfl

@[simp] theorem next_insert (nl : Netlist γ) (node : Node γ) :
    (nl.insert node).2.next = nl.next + 1 := by
  unfold insert
  split <;> simp [next]

/-- Position that the kind of a node gets when it is added. -/
def nextIndex (nl : Netlist γ) : NodeKind γ → Nat
  | .gate _ => 0
  | .input _ => nl.inputs.length
  | .output _ => nl.outputs.length

theorem node?_insert (nl : Netlist γ) (node : Node γ) (id : NodeId) :
    (nl.insert node).2.node? id =
      if id = nl.next then some { node with kind := node.kind.withIndex (nl.nextIndex node.kind) }
      else nl.node? id := by
  obtain ⟨kind, slots⟩ := node
  by_cases h : id = nl.next
  · cases kind <;> simp [insert, node?, nextIndex, NodeKind.withIndex, h, next]
  · cases kind <;> simp [insert, node?, Array.getElem?_push, h, show id ≠ nl.nodes.size from h]

theorem inputs_insert (nl : Netlist γ) (node : Node γ) :
    (nl.insert node).2.inputs =
      if node.kind.inputPin?.isSome then nl.inputs ++ [nl.next] else nl.inputs := by
  obtain ⟨kind, slots⟩ := node
  cases kind <;> rfl

theorem outputs_insert (nl : Netlist γ) (node : Node γ) :
    (nl.insert node).2.outputs =
      if node.kind.outputPin?.isSome then nl.outputs ++ [nl.next] else nl.outputs := by
  obtain ⟨kind, slots⟩ := node
  cases kind <;> rfl

end Netlist

end Breadboard
