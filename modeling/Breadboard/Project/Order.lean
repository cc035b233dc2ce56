import Breadboard.Unseen

namespace Breadboard.Order

variable {n : Nat}

/-- Depth-first search from the nodes on a stack. A node stays on the stack until its successors
are done, and is then finished, once. Answers the discovered nodes and the finished ones, both with
the latest first, or a node that is its own successor. -/
def search (successors : Fin n → List (Fin n)) :
    (stack discovered finished : List (Fin n)) → Except (Fin n) (List (Fin n) × List (Fin n))
  | [], discovered, finished => .ok (discovered, finished)
  | i :: stack, discovered, finished =>
    if i ∈ discovered then
      search successors stack discovered (if i ∈ finished then finished else i :: finished)
    else if i ∈ successors i then .error i
    else
      let fresh := (successors i).filter (· ∉ i :: discovered)
      search successors (fresh.reverse ++ i :: stack) (i :: discovered) finished
termination_by stack discovered => (unseen (List.finRange n) discovered, stack.length)
decreasing_by
  · exact Prod.Lex.right _ (by simp)
  · exact Prod.Lex.left _ _ (unseen_cons_lt (List.mem_finRange _) ‹_›)

/-- Search from every node of a list that is not discovered yet. -/
def searchAll (successors : Fin n → List (Fin n)) :
    List (Fin n) → (discovered finished : List (Fin n)) → Except (Fin n) (List (Fin n))
  | [], _, finished => .ok finished
  | i :: rest, discovered, finished =>
    if i ∈ discovered then searchAll successors rest discovered finished
    else
      match search successors [i] discovered finished with
      | .error j => .error j
      | .ok (discovered, finished) => searchAll successors rest discovered finished

/-- A predecessor of a node in the list that does not stand before it: the first one of the first
such node. -/
def behind? (predecessors : Fin n → List (Fin n)) (earlier : List (Fin n)) :
    List (Fin n) → Option (Fin n)
  | [] => none
  | i :: rest =>
    match (predecessors i).find? (· ∉ i :: earlier) with
    | some j => some j
    | none => behind? predecessors (i :: earlier) rest

/-- The nodes in an order in which every node comes after its predecessors, or a node on a cycle.
The two arguments describe the same edges. -/
def forward (successors predecessors : Fin n → List (Fin n)) :
    Except (Fin n) (List (Fin n)) :=
  match searchAll successors (List.finRange n) [] [] with
  | .error i => .error i
  | .ok order =>
    match behind? predecessors [] order with
    | some j => .error j
    | none => .ok order

end Breadboard.Order
