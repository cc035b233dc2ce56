import Breadboard.Project.Definition
import Breadboard.Project.Order

namespace Breadboard

/-- Composite gates that are kept together. -/
structure Project where
  gates : List GateDef := []
  deriving Inhabited

/-- Why a project was not loaded. -/
inductive LoadError where
  | definedTwice (name : String)
  | recursive (name : String)
  | definition (cause : DefinitionError)
  | registration (cause : RegistryError)
  deriving DecidableEq, Repr, Inhabited

/-- The texts of the error, outermost first. -/
def LoadError.chain : LoadError → List String
  | .definedTwice name => [s!"Gate {name} is defined twice in the project."]
  | .recursive name => [s!"Project contains recursive gate definitions: {name}."]
  | .definition cause => cause.chain
  | .registration cause => [cause.message]

namespace Project

/-- The first definition of a name. -/
def gate? (p : Project) (name : String) : Option GateDef := p.gates.find? (·.name == name)

/-- The first name that an earlier definition has already. -/
def repeated? (earlier : List String) : List GateDef → Option String
  | [] => none
  | d :: ds => if d.name ∈ earlier then some d.name else repeated? (d.name :: earlier) ds

/-- The positions of the definitions that a definition places, by ascending name. -/
def placedBy (p : Project) (i : Fin p.gates.length) : List (Fin p.gates.length) :=
  p.gates[i].dependencies.filterMap fun name =>
    (List.finRange p.gates.length).find? fun j => p.gates[j].name == name

/-- The positions of the definitions that place a definition, the last one first. -/
def placing (p : Project) (i : Fin p.gates.length) : List (Fin p.gates.length) :=
  (List.finRange p.gates.length).reverse.filter fun j => i ∈ p.placedBy j

/-- The definitions in load order. Who places whom is looked up once for each definition. -/
def loadOrder (p : Project) : Except LoadError (List GateDef) :=
  match repeated? [] p.gates with
  | some name => .error (.definedTwice name)
  | none =>
    let placedBy := Vector.ofFn p.placedBy
    let placing := Vector.ofFn fun i =>
      (List.finRange p.gates.length).reverse.filter fun j => i ∈ placedBy[j]
    match Order.forward (fun i => placing[i]) (fun i => placedBy[i]) with
    | .error i => .error (.recursive p.gates[i].name)
    | .ok order => .ok (order.map fun i => p.gates[i])

/-- Definitions with names of their own are ordered by who places whom. -/
theorem loadOrder_eq (p : Project) (h : repeated? [] p.gates = none) :
    p.loadOrder =
      match Order.forward p.placing p.placedBy with
      | .error i => .error (.recursive p.gates[i].name)
      | .ok order => .ok (order.map fun i => p.gates[i]) := by
  have placing : p.placing = fun i =>
      ((List.finRange p.gates.length).filter fun j => i ∈ p.placedBy j).reverse := by
    funext i
    simp [Project.placing]
  simp [loadOrder, h, placing]

/-- Compile and register definitions one after another, up to the first that fails. What was
registered before it stays. -/
def loadAll : List GateDef → Registry →
    Metered (Except LoadError (List Registered) × Registry)
  | [], registry => ⟨(.ok [], registry), []⟩
  | d :: ds, registry =>
    let compiled := d.compile registry
    match compiled.value with
    | .error cause => ⟨(.error (.definition cause), registry), compiled.calls⟩
    | .ok gate =>
      match registry.register gate with
      | .error cause => ⟨(.error (.registration cause), registry), compiled.calls⟩
      | .ok (entry, registry) =>
        let rest := loadAll ds registry
        ⟨(rest.value.1.map (entry :: ·), rest.value.2), rest.calls ++ compiled.calls⟩

/-- Compile every definition and register it. -/
def load (p : Project) (registry : Registry) :
    Metered (Except LoadError (List Registered) × Registry) :=
  match p.loadOrder with
  | .error cause => ⟨(.error cause, registry), []⟩
  | .ok definitions => loadAll definitions registry

end Project

end Breadboard
