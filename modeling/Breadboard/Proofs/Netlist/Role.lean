import Breadboard.Netlist.Edit

namespace Breadboard

inductive Role where
  | gate (part : Gate)
  | input
  | output

namespace Role

/-- Number of outputs that other nodes can read. -/
def outputCount : Role → Nat
  | gate part => part.outputs.length
  | input => 1
  | output => 0

/-- Number of slots. -/
def slotCount : Role → Nat
  | gate part => part.inputs.length
  | input => 0
  | output => 1

end Role

def NodeKind.role : NodeKind Gate → Role
  | .gate part => .gate part
  | .input _ => .input
  | .output _ => .output

@[simp] theorem NodeKind.role_withIndex (kind : NodeKind Gate) (index : Nat) :
    (kind.withIndex index).role = kind.role := by cases kind <;> rfl

@[simp] theorem NodeKind.role_withState (kind : NodeKind Gate) (state : Bool) :
    (kind.withState state).role = kind.role := by cases kind <;> rfl

theorem Node.outputCount_eq (node : Node Gate) : node.outputCount = node.kind.role.outputCount := by
  unfold Node.outputCount
  cases node.kind <;> rfl

namespace Netlist

/-- The role of a live node. -/
def role? (nl : Netlist Gate) (id : NodeId) : Option Role := (nl.kind? id).map (·.role)

def IsGate (nl : Netlist Gate) (id : NodeId) : Prop := ∃ g, nl.role? id = some (.gate g)

variable {nl : Netlist Gate} {id : NodeId}

theorem role?_eq_map (nl : Netlist Gate) (id : NodeId) :
    nl.role? id = (nl.node? id).map (·.kind.role) := by
  unfold role? kind?
  cases nl.node? id <;> rfl

theorem isLive_eq_isSome_role? (nl : Netlist Gate) (id : NodeId) :
    nl.isLive id = (nl.role? id).isSome := by
  rw [role?_eq_map, Option.isSome_map]
  rfl

theorem exists_kind? (h : nl.isLive id = true) : ∃ kind, nl.kind? id = some kind := by
  rw [isLive_eq_isSome_role?, Option.isSome_iff_exists] at h
  obtain ⟨r, hr⟩ := h
  obtain ⟨kind, hk, _⟩ := Option.map_eq_some_iff.1 hr
  exact ⟨kind, hk⟩

theorem role?_eq_none_iff : nl.role? id = none ↔ nl.kind? id = none := Option.map_eq_none_iff

theorem kind?_eq_gate_iff {g : Gate} :
    nl.kind? id = some (.gate g) ↔ nl.role? id = some (.gate g) := by
  unfold role?
  cases nl.kind? id with
  | none => simp
  | some kind => cases kind <;> simp [NodeKind.role]

theorem gate?_eq_some_iff {g : Gate} : nl.gate? id = some g ↔ nl.role? id = some (.gate g) := by
  unfold role? gate?
  cases nl.kind? id with
  | none => simp
  | some kind => cases kind <;> simp [NodeKind.role, NodeKind.gate?]

theorem gate?_congr {nl' : Netlist Gate} {id' : NodeId} (h : nl'.role? id' = nl.role? id) :
    nl'.gate? id' = nl.gate? id := by
  apply Option.ext
  intro g
  rw [gate?_eq_some_iff, gate?_eq_some_iff, h]

theorem IsGate.role?_ne_none (h : nl.IsGate id) : nl.role? id ≠ none := by
  obtain ⟨g, hg⟩ := h
  simp [hg]

theorem IsGate.role?_ne_input (h : nl.IsGate id) : nl.role? id ≠ some .input := by
  obtain ⟨g, hg⟩ := h
  simp [hg]

theorem IsGate.role?_ne_output (h : nl.IsGate id) : nl.role? id ≠ some .output := by
  obtain ⟨g, hg⟩ := h
  simp [hg]

theorem gate?_isSome_iff : (nl.gate? id).isSome ↔ nl.IsGate id := by
  simp only [Option.isSome_iff_exists, gate?_eq_some_iff, IsGate]

theorem inputPin?_isSome_iff : (nl.inputPin? id).isSome ↔ nl.role? id = some .input := by
  unfold role? inputPin?
  cases nl.kind? id with
  | none => simp
  | some kind => cases kind <;> simp [NodeKind.role, NodeKind.inputPin?]

theorem outputPin?_isSome_iff : (nl.outputPin? id).isSome ↔ nl.role? id = some .output := by
  unfold role? outputPin?
  cases nl.kind? id with
  | none => simp
  | some kind => cases kind <;> simp [NodeKind.role, NodeKind.outputPin?]

theorem kind?_of_inputPin? {pin : InputPin} (h : nl.inputPin? id = some pin) :
    nl.kind? id = some (.input pin) := by
  unfold inputPin? at h
  cases hk : nl.kind? id with
  | none => simp [hk] at h
  | some kind => cases kind <;> simp_all [NodeKind.inputPin?]

theorem role?_of_inputPin? {pin : InputPin} (h : nl.inputPin? id = some pin) :
    nl.role? id = some .input := inputPin?_isSome_iff.1 (by simp [h])

theorem exists_inputPin? (h : nl.role? id = some .input) : ∃ pin, nl.inputPin? id = some pin :=
  Option.isSome_iff_exists.1 (inputPin?_isSome_iff.2 h)

theorem exists_outputPin? (h : nl.role? id = some .output) :
    ∃ pin, nl.kind? id = some (.output pin) := by
  unfold role? at h
  cases hk : nl.kind? id with
  | none => simp [hk] at h
  | some kind => cases kind <;> simp_all [NodeKind.role]

theorem IsGate.inputPin?_eq_none (h : nl.IsGate id) : nl.inputPin? id = none := by
  cases hp : nl.inputPin? id with
  | none => rfl
  | some pin => exact absurd (role?_of_inputPin? hp) h.role?_ne_input

theorem slots_eq_nil_of_role? (h : nl.role? id = none) : nl.slots id = [] := by
  rw [role?_eq_map, Option.map_eq_none_iff] at h
  simp [slots, h]

theorem isHierarchical_of_role? {g : Gate} (h : nl.role? id = some (.gate g)) :
    nl.isHierarchical id = g.isHierarchical := by
  simp [isHierarchical, gate?_eq_some_iff.2 h]

theorem isHierarchical_of_not_gate (h : ¬ nl.IsGate id) : nl.isHierarchical id = false := by
  have hg : nl.gate? id = none := Option.not_isSome_iff_eq_none.1 (mt gate?_isSome_iff.1 h)
  rw [isHierarchical, hg]
  rfl

theorem lt_next_of_role? {r : Role} (h : nl.role? id = some r) : id < nl.next := by
  rw [role?_eq_map] at h
  obtain ⟨node, hn, _⟩ := Option.map_eq_some_iff.1 h
  exact lt_next_of_node? hn

theorem mem_map_gates : id ∈ nl.gates.map (·.1) ↔ nl.IsGate id := by
  rw [List.mem_map]
  constructor
  · intro hm
    obtain ⟨⟨id, g⟩, hm, rfl⟩ := hm
    exact ⟨g, gate?_eq_some_iff.1 (mem_gates.1 hm)⟩
  · intro hg
    obtain ⟨g, hr⟩ := hg
    exact ⟨(id, g), mem_gates.2 (gate?_eq_some_iff.2 hr), rfl⟩

/-- The handles that are looked up successfully. -/
theorem map_fst_filterMap {α : Type} (look : NodeId → Option α) (ids : List NodeId) :
    (ids.filterMap fun id => (look id).map (id, ·)).map (·.1) =
      ids.filter fun id => (look id).isSome := by
  induction ids with
  | nil => rfl
  | cons id ids ih =>
    cases h : look id with
    | none => simp [h, ih]
    | some a => simp [h, ih]

theorem gates_ascend (nl : Netlist Gate) : (nl.gates.map (·.1)).Pairwise (· < ·) := by
  rw [gates, map_fst_filterMap]
  exact List.pairwise_lt_range.filter _

theorem nodup_gates (nl : Netlist Gate) : (nl.gates.map (·.1)).Nodup :=
  nl.gates_ascend.imp fun hlt => Nat.ne_of_lt hlt

theorem gates_eq_filterMap (nl : Netlist Gate) :
    nl.gates = (nl.gates.map (·.1)).filterMap fun id => (nl.gate? id).map (id, ·) := by
  rw [gates, map_fst_filterMap, List.filterMap_filter]
  congr 1
  funext id
  cases nl.gate? id <;> rfl

theorem map_live (nl : Netlist Gate) :
    nl.live.map (·.1) = (List.range nl.next).filter fun id => (nl.role? id).isSome := by
  rw [live, map_fst_filterMap]
  simp only [role?_eq_map, Option.isSome_map]

@[simp] theorem role?_empty (id : NodeId) : (∅ : Netlist Gate).role? id = none := by
  simp [role?_eq_map]

@[simp] theorem slots_empty (id : NodeId) : (∅ : Netlist Gate).slots id = [] :=
  slots_eq_nil_of_role? (role?_empty id)

theorem role?_insert (nl : Netlist Gate) (node : Node Gate) (id : NodeId) :
    (nl.insert node).2.role? id = if id = nl.next then some node.kind.role else nl.role? id := by
  rw [role?_eq_map, role?_eq_map, node?_insert]
  split <;> simp

theorem slots_insert (nl : Netlist Gate) (node : Node Gate) (id : NodeId) :
    (nl.insert node).2.slots id = if id = nl.next then node.slots else nl.slots id := by
  simp only [slots, node?_insert]
  split <;> simp

theorem role?_modifyNode (nl : Netlist Gate) (id : NodeId) {f : Node Gate → Node Gate}
    (hf : ∀ node, (f node).kind.role = node.kind.role) (id' : NodeId) :
    (nl.modifyNode id f).role? id' = nl.role? id' := by
  rw [role?_eq_map, role?_eq_map, node?_modifyNode]
  split
  · cases nl.node? id' <;> simp [hf]
  · rfl

theorem slots_modifyNode (nl : Netlist Gate) (id : NodeId) {f : Node Gate → Node Gate}
    (hf : ∀ node, (f node).slots = node.slots) (id' : NodeId) :
    (nl.modifyNode id f).slots id' = nl.slots id' := by
  simp only [slots, node?_modifyNode]
  split
  · cases nl.node? id' <;> simp [hf]
  · rfl

@[simp] theorem role?_setSlot (nl : Netlist Gate) (dest : NodeId) (slot : Nat)
    (link : Option Link) (id : NodeId) : (nl.setSlot dest slot link).role? id = nl.role? id := by
  rw [setSlot, role?_modifyNode]
  exact fun _ => rfl

theorem slots_setSlot (nl : Netlist Gate) (dest : NodeId) (slot : Nat) (link : Option Link)
    (id : NodeId) :
    (nl.setSlot dest slot link).slots id =
      if dest = id then (nl.slots id).set slot link else nl.slots id := by
  simp only [slots, setSlot, node?_modifyNode]
  split
  · cases nl.node? id <;> simp
  · rfl

theorem role?_detach (nl : Netlist Gate) (id id' : NodeId) :
    (nl.detach id).role? id' = if id = id' then none else nl.role? id' := by
  rw [role?_eq_map, role?_eq_map, node?_detach]
  split
  · rfl
  · cases nl.node? id' <;> simp [Node.forget]

theorem slots_detach (nl : Netlist Gate) (id id' : NodeId) :
    (nl.detach id).slots id' =
      if id = id' then [] else (nl.slots id').map fun slot => slot.filter (·.node != id) := by
  simp only [slots, node?_detach]
  split
  · rfl
  · cases nl.node? id' <;> simp [Node.forget]

/-- Two netlists with the same roles, slots and boundary; the data of pins may differ. -/
structure Alike (nl nl' : Netlist Gate) : Prop where
  role : ∀ id, nl'.role? id = nl.role? id
  slots : ∀ id, nl'.slots id = nl.slots id
  inputs : nl'.inputs = nl.inputs
  outputs : nl'.outputs = nl.outputs

theorem Alike.refl (nl : Netlist Gate) : Alike nl nl := ⟨fun _ => rfl, fun _ => rfl, rfl, rfl⟩

theorem Alike.symm {nl nl' : Netlist Gate} (h : Alike nl nl') : Alike nl' nl :=
  ⟨fun id => (h.role id).symm, fun id => (h.slots id).symm, h.inputs.symm, h.outputs.symm⟩

theorem Alike.trans {nl nl' nl'' : Netlist Gate} (h : Alike nl nl') (h' : Alike nl' nl'') :
    Alike nl nl'' :=
  ⟨fun id => (h'.role id).trans (h.role id), fun id => (h'.slots id).trans (h.slots id),
    h'.inputs.trans h.inputs, h'.outputs.trans h.outputs⟩

theorem alike_modifyNode (nl : Netlist Gate) (id : NodeId) {f : Node Gate → Node Gate}
    (hr : ∀ node, (f node).kind.role = node.kind.role) (hs : ∀ node, (f node).slots = node.slots) :
    Alike nl (nl.modifyNode id f) :=
  ⟨role?_modifyNode nl id hr, slots_modifyNode nl id hs, rfl, rfl⟩

theorem alike_updatePin (nl : Netlist Gate) (id : NodeId) (f : Bool → Bool) :
    Alike nl (nl.updatePin id f).2 := by
  unfold updatePin
  split
  · exact .refl nl
  · exact alike_modifyNode nl id (by simp) (by simp)
  · exact .refl nl

theorem alike_drive (nl : Netlist Gate) (id : NodeId) (value : Bool) :
    Alike nl (nl.drive id value).2 := alike_updatePin nl id fun _ => value

theorem alike_reindex (nl : Netlist Gate) : Alike nl nl.reindex := by
  unfold reindex
  generalize nl.inputs.zipIdx ++ nl.outputs.zipIdx = places
  induction places generalizing nl with
  | nil => exact .refl nl
  | cons place places ih =>
    exact (alike_modifyNode nl place.1 (by simp) (by simp)).trans (ih _)

end Netlist

end Breadboard
