import Breadboard.Compilation.Boundary
import Breadboard.Evaluation.Compute
import Breadboard.Unseen

namespace Breadboard

/-- An acyclic part of a netlist: the boundary inputs it reads, the boundary outputs it produces,
both in the order of the boundary, and its gates. -/
structure Island where
  inputs : List NodeId
  outputs : List NodeId
  nodes : List NodeId
  deriving DecidableEq, Repr, Inhabited

/-- Why a gate is compiled to an internal netlist. -/
inductive Fallback where
  | feedback (id : NodeId)
  | statefulGate (id : NodeId)
  | tableTooLarge (inputs : Nat)
  deriving DecidableEq, Repr, Inhabited

def Fallback.message : Fallback → String
  | .feedback id => s!"feedback loop through node {id}"
  | .statefulGate id => s!"node {id} is a stateful gate"
  | .tableTooLarge inputs => s!"island with {inputs} inputs (limit: {maxTableInputs})"

/-- The islands of a netlist, or the reason why there are none. -/
inductive Decomposition where
  | islands (islands : List Island)
  | fallback (reason : Fallback)
  deriving DecidableEq, Repr, Inhabited

/-- What the source of a link is for a backward walk. -/
inductive SourceKind where
  | absent
  | pin
  | gate
  | stateful
  deriving DecidableEq, Repr

/-- What a backward walk has met: new gates, input pins, and gates of earlier islands. -/
structure Cone where
  nodes : List NodeId := []
  inputs : List NodeId := []
  touched : List NodeId := []
  deriving DecidableEq, Repr

/-- Why a backward walk stopped early. -/
inductive Obstacle where
  | rejected (cause : BoundaryError)
  | fallback (reason : Fallback)
  deriving DecidableEq, Repr

namespace Netlist

/-- What the source of a link is; an input pin has to be among the listed inputs. -/
def sourceKind (nl : Netlist Gate) (inputs : List NodeId) (id : NodeId) :
    Except BoundaryError SourceKind :=
  match nl.kind? id with
  | none | some (.output _) => .ok .absent
  | some (.input pin) => if id ∈ inputs then .ok .pin else .error (.undeclared pin.name id)
  | some (.gate g) => .ok (if g.isHierarchical then .stateful else .gate)

theorem lt_next_of_sourceKind {nl : Netlist Gate} {inputs : List NodeId} {id : NodeId}
    (h : nl.sourceKind inputs id = .ok .gate) : id < nl.next := by
  unfold sourceKind at h
  cases hk : nl.kind? id with
  | none => rw [hk] at h; exact nomatch h
  | some kind =>
    obtain ⟨node, hn, _⟩ := Option.map_eq_some_iff.1 hk
    exact lt_next_of_node? hn

/-- Number of steps that leave a path without a node, if none is added. -/
def pathWork : List (NodeId × List (Option Link)) → Nat
  | [] => 0
  | (_, slots) :: path => slots.length + 1 + pathWork path

/-- Walk backward, depth first. The path is a list of nodes with the slots that are still to be
followed, the latest first; `settled` holds the gates of earlier islands. -/
def explore (nl : Netlist Gate) (inputs settled : List NodeId) :
    List (NodeId × List (Option Link)) → Cone → Except Obstacle Cone
  | [], cone => .ok cone
  | (_, []) :: path, cone => explore nl inputs settled path cone
  | (node, none :: slots) :: path, cone =>
    explore nl inputs settled ((node, slots) :: path) cone
  | (node, some link :: slots) :: path, cone =>
    match _ : nl.sourceKind inputs link.node with
    | .error cause => .error (.rejected cause)
    | .ok .absent => explore nl inputs settled ((node, slots) :: path) cone
    | .ok .pin =>
      explore nl inputs settled ((node, slots) :: path)
        { cone with inputs := link.node :: cone.inputs }
    | .ok .stateful => .error (.fallback (.statefulGate link.node))
    | .ok .gate =>
      if link.node = node ∨ link.node ∈ path.map (·.1) then
        .error (.fallback (.feedback link.node))
      else if link.node ∈ settled then
        explore nl inputs settled ((node, slots) :: path)
          { cone with touched := link.node :: cone.touched }
      else if link.node ∈ cone.nodes then
        explore nl inputs settled ((node, slots) :: path) cone
      else
        explore nl inputs settled ((link.node, nl.slots link.node) :: (node, slots) :: path)
          { cone with nodes := link.node :: cone.nodes }
termination_by path cone => (unseen (List.range nl.next) cone.nodes, pathWork path)
decreasing_by
  all_goals first
    | (apply Prod.Lex.right; simp only [pathWork, List.length_cons]; omega)
    | exact Prod.Lex.left _ _
        (unseen_cons_lt (List.mem_range.2 (lt_next_of_sourceKind ‹_›)) ‹_›)

/-- The islands after one more output: the new one takes over the islands that its walk met. -/
def addIsland (nl : Netlist Gate) (inputs outputs : List NodeId) (islands : List Island)
    (output : NodeId) : Except Obstacle (List Island) :=
  match nl.explore inputs (islands.flatMap (·.nodes)) [(output, nl.slots output)] {} with
  | .error obstacle => .error obstacle
  | .ok cone =>
    let meets (island : Island) := cone.touched.any (· ∈ island.nodes)
    let merged := islands.filter meets
    let reads := cone.inputs ++ merged.flatMap (·.inputs)
    let produces := output :: merged.flatMap (·.outputs)
    .ok (islands.filter (!meets ·) ++
      [{ inputs := inputs.filter (· ∈ reads)
         outputs := outputs.filter (· ∈ produces)
         nodes := cone.nodes ++ merged.flatMap (·.nodes) }])

def addIslands (nl : Netlist Gate) (inputs outputs : List NodeId) :
    List NodeId → List Island → Except Obstacle (List Island)
  | [], islands => .ok islands
  | output :: rest, islands =>
    match nl.addIsland inputs outputs islands output with
    | .error obstacle => .error obstacle
    | .ok islands => addIslands nl inputs outputs rest islands

/-- Split the part of a netlist behind the listed outputs into islands. A loop, a stateful gate, or
an island with too many inputs rules this out. -/
def decompose (nl : Netlist Gate) (inputs outputs : List NodeId) :
    Except BoundaryError Decomposition :=
  match nl.checkBoundary inputs outputs with
  | .error cause => .error cause
  | .ok () =>
    match nl.addIslands inputs outputs outputs [] with
    | .error (.rejected cause) => .error cause
    | .error (.fallback reason) => .ok (.fallback reason)
    | .ok islands =>
      match islands.find? (maxTableInputs < ·.inputs.length) with
      | some island => .ok (.fallback (.tableTooLarge island.inputs.length))
      | none => .ok (.islands islands)

end Netlist

end Breadboard
