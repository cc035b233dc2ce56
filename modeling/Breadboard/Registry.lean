import Breadboard.Gate.Primitive

namespace Breadboard

/-- What happens when a name that is in use is registered for another gate. -/
inductive ConflictPolicy where
  | reject
  | replace
  deriving DecidableEq, Repr, Inhabited

/-- A gate with the number of its first registration; equal numbers mean the very same gate. -/
structure Registered where
  gate : Gate
  number : Nat

/-- Gate types in registration order, and the number of the next new gate. -/
structure Registry where
  gates : Named Registered := ∅
  policy : ConflictPolicy := .reject
  count : Nat := 0

/-- Why a name was not registered or not found. -/
inductive RegistryError where
  | taken (name : String)
  | unknown (name : String)
  deriving DecidableEq, Repr, Inhabited

def RegistryError.message : RegistryError → String
  | .taken name => s!"A gate named {name} is already registered."
  | .unknown name => s!"Unknown gate type {name}."

namespace Registry

def empty (policy : ConflictPolicy) : Registry := { policy }

def get? (r : Registry) (name : String) : Option Registered := r.gates.get? name

def resolve (r : Registry) (name : String) : Except RegistryError Registered :=
  match r.get? name with
  | some entry => .ok entry
  | none => .error (.unknown name)

/-- Register a gate that was registered before, under its name. -/
def registerAgain (r : Registry) (entry : Registered) : Except RegistryError Registry :=
  match r.get? entry.gate.name with
  | some existing =>
    if existing.number ≠ entry.number ∧ r.policy = .reject then .error (.taken entry.gate.name)
    else .ok { r with gates := r.gates.insert entry.gate.name entry }
  | none => .ok { r with gates := r.gates.insert entry.gate.name entry }

/-- Register a new gate under its name. -/
def register (r : Registry) (gate : Gate) : Except RegistryError (Registered × Registry) :=
  let entry : Registered := ⟨gate, r.count⟩
  (registerAgain { r with count := r.count + 1 } entry).map fun r => (entry, r)

def standard (policy : ConflictPolicy) : Registry where
  gates := Named.ofList (Primitive.all.map fun p => (p.name, ⟨p.gate, p.index⟩))
  policy
  count := Primitive.all.length

end Registry

end Breadboard
