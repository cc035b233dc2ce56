import Breadboard.Compilation.Compile
import Breadboard.Proofs.Netlist.Embedding
import Mathlib.Logic.Function.Basic

namespace Breadboard.Netlist

/-- The nodes of `nl'` are those of `nl` under the handles that `f` gives them. -/
structure Isomorphic (nl nl' : Netlist Gate) (f : NodeId → NodeId) : Prop where
  injective : Function.Injective f
  inputs : nl'.inputs = nl.inputs.map f
  outputs : nl'.outputs = nl.outputs.map f
  gates : nl'.gates = nl.gates.map fun entry => (f entry.1, entry.2)
  role : ∀ id, nl'.role? (f id) = nl.role? id
  name : ∀ id, (nl'.node? (f id)).map (·.name) = (nl.node? id).map (·.name)
  slots : ∀ id, nl'.slots (f id) = (nl.slots id).map (Option.map (Link.rename f))

variable {nl nl' : Netlist Gate} {f : NodeId → NodeId}

namespace Isomorphic

theorem embeds (h : nl.Isomorphic nl' f) {part : NodeId → Prop}
    (hc : ∀ {a b}, part a → nl.Reads a b → part b) : nl.Embeds nl' part f where
  injective _ _ he := h.injective he
  role {a} _ := h.role a
  slots {a} _ := h.slots a
  closed := hc

theorem pinNames_map (h : nl.Isomorphic nl' f) (pins : List NodeId) :
    nl'.pinNames (pins.map f) = nl.pinNames pins := by
  unfold pinNames
  rw [List.map_map]
  apply List.map_congr_left
  intro id _
  exact congrArg (·.getD "") (h.name id)

theorem gateNames_map (h : nl.Isomorphic nl' f) (ids : List NodeId) :
    nl'.gateNames (ids.map f) = nl.gateNames ids := by
  have hgate : nl'.gate? ∘ f = nl.gate? := funext fun id => gate?_congr (h.role id)
  rw [gateNames, gateNames, List.filterMap_map, hgate]

end Isomorphic

end Breadboard.Netlist
