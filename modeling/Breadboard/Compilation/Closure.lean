import Breadboard.Compilation.Island

namespace Breadboard.Netlist

/-- Follow links backward from the nodes on a stack, adding what is met to the end of a list. An
input pin has to be in the list already. -/
def close (nl : Netlist Gate) :
    List Link → (stack found : List NodeId) → Except BoundaryError (List NodeId)
  | [], [], found => .ok found
  | [], id :: stack, found => close nl ((nl.slots id).filterMap fun slot => slot) stack found
  | link :: links, stack, found =>
    match _ : nl.kind? link.node with
    | none => close nl links stack found
    | some kind =>
      if link.node ∈ found then close nl links stack found
      else
        match kind with
        | .input pin => .error (.undeclared pin.name link.node)
        | _ => close nl links (link.node :: stack) (link.node :: found)
termination_by links stack found =>
  (unseen (List.range nl.next) found, stack.length, links.length)
decreasing_by
  · exact Prod.Lex.right _ (Prod.Lex.left _ _ (by simp))
  · exact Prod.Lex.right _ (Prod.Lex.right _ (by simp))
  · exact Prod.Lex.right _ (Prod.Lex.right _ (by simp))
  · obtain ⟨node, hn, _⟩ := Option.map_eq_some_iff.1 ‹nl.kind? link.node = some _›
    exact Prod.Lex.left _ _ (unseen_cons_lt (List.mem_range.2 (lt_next_of_node? hn)) ‹_›)

/-- The pins of a boundary in list order, and then the nodes that are reachable backward from its
outputs. -/
def closure (nl : Netlist Gate) (inputs outputs : List NodeId) :
    Except BoundaryError (List NodeId) :=
  (nl.close [] outputs.reverse (inputs ++ outputs).reverse).map (·.reverse)

/-- The names of the gate types placed at some nodes, ascending and without repetition. -/
def gateNames (nl : Netlist Gate) (ids : List NodeId) : List String :=
  ((ids.filterMap nl.gate?).map (·.name)).mergeSort (fun a b => a ≤ b) |>.eraseReps

end Breadboard.Netlist
