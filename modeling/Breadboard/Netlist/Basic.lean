import Breadboard.NodeMap

namespace Breadboard

/-- Output `output` of node `node`. -/
structure Link where
  node : NodeId
  output : Nat
  deriving DecidableEq, Repr, Inhabited

/-- A boundary input, driven from outside; `index` is its position among the inputs. -/
structure InputPin where
  name : String
  index : Nat
  state : Bool
  deriving DecidableEq, Repr, Inhabited

/-- A boundary output; `index` is its position among the outputs. -/
structure OutputPin where
  name : String
  index : Nat
  deriving DecidableEq, Repr, Inhabited

/-- What a node is: a placed part, or a boundary pin. -/
inductive NodeKind (γ : Type) where
  | gate (part : γ)
  | input (pin : InputPin)
  | output (pin : OutputPin)

/-- A node with one slot per input, empty when disconnected. -/
structure Node (γ : Type) where
  kind : NodeKind γ
  slots : List (Option Link)

/-- Nodes by handle, where a removed node leaves `none`, and the boundary pins in pin order. The
type of the placed parts is a parameter, because a placed gate may itself hold a netlist. -/
structure Netlist (γ : Type) where
  nodes : Array (Option (Node γ)) := #[]
  inputs : List NodeId := []
  outputs : List NodeId := []

variable {γ : Type}

namespace NodeKind

def gate? : NodeKind γ → Option γ
  | .gate part => some part
  | _ => none

def inputPin? : NodeKind γ → Option InputPin
  | .input pin => some pin
  | _ => none

def outputPin? : NodeKind γ → Option OutputPin
  | .output pin => some pin
  | _ => none

end NodeKind

namespace Node

def isPin (node : Node γ) : Bool := node.kind.gate?.isNone

def unlinked (node : Node γ) : Node γ := { node with slots := node.slots.map fun _ => none }

@[simp] theorem length_slots_unlinked (node : Node γ) :
    node.unlinked.slots.length = node.slots.length := by simp [unlinked]

end Node

namespace Netlist

instance : EmptyCollection (Netlist γ) := ⟨{}⟩
instance : Inhabited (Netlist γ) := ⟨∅⟩

/-- The live node behind a handle; nothing for a removed or foreign handle. -/
def node? (nl : Netlist γ) (id : NodeId) : Option (Node γ) := nl.nodes[id]?.join

def isLive (nl : Netlist γ) (id : NodeId) : Bool := (nl.node? id).isSome

def kind? (nl : Netlist γ) (id : NodeId) : Option (NodeKind γ) := (nl.node? id).map (·.kind)

def gate? (nl : Netlist γ) (id : NodeId) : Option γ := (nl.kind? id).bind (·.gate?)

def inputPin? (nl : Netlist γ) (id : NodeId) : Option InputPin := (nl.kind? id).bind (·.inputPin?)

def outputPin? (nl : Netlist γ) (id : NodeId) : Option OutputPin :=
  (nl.kind? id).bind (·.outputPin?)

/-- The input slots of a node; a node that is not live has none. -/
def slots (nl : Netlist γ) (id : NodeId) : List (Option Link) :=
  ((nl.node? id).map (·.slots)).getD []

/-- The handle that the next node gets. -/
def next (nl : Netlist γ) : NodeId := nl.nodes.size

/-- The live nodes in handle order. -/
def live (nl : Netlist γ) : List (NodeId × Node γ) :=
  (List.range nl.next).filterMap fun id => (nl.node? id).map (id, ·)

/-- The live gate nodes in handle order. -/
def gates (nl : Netlist γ) : List (NodeId × γ) :=
  (List.range nl.next).filterMap fun id => (nl.gate? id).map (id, ·)

def size (nl : Netlist γ) : Nat := nl.live.length

/-- The link in a slot, if its source is live. -/
def source? (nl : Netlist γ) (dest : NodeId) (slot : Nat) : Option Link :=
  ((nl.slots dest)[slot]?.join).filter fun link => nl.isLive link.node

@[simp] theorem node?_empty (id : NodeId) : (∅ : Netlist γ).node? id = none := by
  simp [node?, EmptyCollection.emptyCollection]

theorem node?_eq_none_of_le (nl : Netlist γ) {id : NodeId} (h : nl.next ≤ id) :
    nl.node? id = none := by
  simp [node?, Array.getElem?_eq_none h]

theorem lt_next_of_node? {nl : Netlist γ} {id : NodeId} {node : Node γ}
    (h : nl.node? id = some node) : id < nl.next := by
  rcases Nat.lt_or_ge id nl.next with hlt | hge
  · exact hlt
  · rw [node?_eq_none_of_le nl hge] at h
    exact nomatch h

theorem isLive_iff {nl : Netlist γ} {id : NodeId} :
    nl.isLive id = true ↔ ∃ node, nl.node? id = some node := Option.isSome_iff_exists

theorem gate?_eq_some {nl : Netlist γ} {id : NodeId} {part : γ} :
    nl.gate? id = some part ↔ ∃ node, nl.node? id = some node ∧ node.kind = .gate part := by
  simp only [gate?, kind?]
  cases nl.node? id with
  | none => simp
  | some node => cases h : node.kind <;> simp [NodeKind.gate?, h]

theorem mem_live {nl : Netlist γ} {id : NodeId} {node : Node γ} :
    (id, node) ∈ nl.live ↔ nl.node? id = some node := by
  simp only [live, List.mem_filterMap, List.mem_range, Option.map_eq_some_iff, Prod.mk.injEq]
  constructor
  · rintro ⟨_, _, _, h, rfl, rfl⟩
    exact h
  · intro h
    exact ⟨id, lt_next_of_node? h, node, h, rfl, rfl⟩

theorem mem_gates {nl : Netlist γ} {id : NodeId} {part : γ} :
    (id, part) ∈ nl.gates ↔ nl.gate? id = some part := by
  simp only [gates, List.mem_filterMap, List.mem_range, Option.map_eq_some_iff, Prod.mk.injEq]
  constructor
  · rintro ⟨_, _, _, h, rfl, rfl⟩
    exact h
  · intro h
    obtain ⟨node, hn, _⟩ := gate?_eq_some.1 h
    exact ⟨id, lt_next_of_node? hn, part, h, rfl, rfl⟩

end Netlist

end Breadboard
