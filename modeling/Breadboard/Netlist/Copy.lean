import Breadboard.Netlist.Edit

namespace Breadboard.Netlist

/-- From the nodes that were copied to their copies. -/
abbrev Copies := NodeMap NodeId

/-- The listed nodes that are to be copied, each once, by first appearance. -/
def copySet (nl : Netlist Gate) (withPins : Bool) :
    List NodeId → Except EditError (List NodeId)
  | [] => .ok []
  | id :: ids =>
    match nl.node? id with
    | none => .error (.notCopied id)
    | some node =>
      (nl.copySet withPins ids).map fun set =>
        if withPins || !node.isPin then id :: set.filter (· != id) else set

/-- Add an unlinked copy to `target` of every node in a list. -/
def copyNodes (source : Netlist Gate) (ids : List NodeId) (target : Netlist Gate) :
    Copies × Netlist Gate :=
  ids.foldl (fun (copies, target) id =>
    match source.node? id with
    | none => (copies, target)
    | some node =>
      let (copy, target) := target.insert node.unlinked
      (copies.insert id copy, target)) (∅, target)

/-- The links of the listed nodes, each with the node and the slot that it feeds. -/
def linksOf (nl : Netlist Gate) (ids : List NodeId) : List (NodeId × Nat × Link) :=
  ids.flatMap fun id =>
    (nl.slots id).zipIdx.filterMap fun (slot, index) => slot.map fun link => (id, index, link)

/-- Make links one after another, up to the first that is refused. -/
def linkAll (nl : Netlist Gate) :
    List (NodeId × Nat × Link) → Except EditError Unit × Netlist Gate
  | [] => (.ok (), nl)
  | (dest, slot, link) :: links =>
    match nl.link dest slot link.node link.output with
    | (.error e, nl) => (.error e, nl)
    | (.ok _, nl) => linkAll nl links

/-- Copy nodes within the netlist. Links between copied nodes go to the copies, other links keep
their source. Pins are copied only `withPins`, to the end of the boundary lists. -/
def duplicate (nl : Netlist Gate) (ids : List NodeId) (withPins : Bool) :
    Except EditError Copies × Netlist Gate :=
  match nl.copySet withPins ids with
  | .error e => (.error e, nl)
  | .ok set =>
    let (copies, grown) := nl.copyNodes set nl
    let links := (grown.linksOf set).filterMap fun (id, slot, link) =>
      if grown.isLive link.node then
        (copies.get? id).map fun copy =>
          (copy, slot, { link with node := (copies.get? link.node).getD link.node })
      else none
    let (answer, wired) := grown.linkAll links
    (answer.map fun _ => copies, wired)

/-- Copy nodes, pins included, into a netlist of their own. Links from outside the set are left
out, and the pins are in the order of the list. -/
def extract (nl : Netlist Gate) (ids : List NodeId) :
    Except EditError (Netlist Gate × Copies) :=
  match nl.copySet true ids with
  | .error e => .error e
  | .ok set =>
    let (copies, copied) := nl.copyNodes set ∅
    let links := (nl.linksOf set).filterMap fun (id, slot, link) =>
      (copies.get? id).bind fun copy =>
        (copies.get? link.node).map fun source => (copy, slot, { link with node := source })
    match copied.linkAll links with
    | (.error e, _) => .error e
    | (.ok _, wired) => .ok (wired, copies)

end Breadboard.Netlist
