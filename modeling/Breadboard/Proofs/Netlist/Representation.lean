import Breadboard.Project.Definition
import Breadboard.Proofs.Netlist.PinIndex

namespace Breadboard

namespace Netlist

/-- The parts of a netlist fit together. -/
structure Consistent (nl : Netlist Gate) : Prop where
  gate_slots : ∀ {id g}, nl.gate? id = some g → (nl.slots id).length = g.inputs.length
  input_slots : ∀ {id pin}, nl.inputPin? id = some pin → nl.slots id = []
  output_slots : ∀ {id pin}, nl.outputPin? id = some pin → (nl.slots id).length = 1
  links : ∀ {id link}, some link ∈ nl.slots id → nl.outputPin? link.node = none ∧
    ∃ node, nl.node? link.node = some node ∧ link.output < node.outputCount
  mem_inputs : ∀ id, id ∈ nl.inputs ↔ (nl.inputPin? id).isSome
  mem_outputs : ∀ id, id ∈ nl.outputs ↔ (nl.outputPin? id).isSome
  inputs_ascend : nl.inputs.Pairwise (· < ·)
  outputs_ascend : nl.outputs.Pairwise (· < ·)
  input_index : ∀ {id pin}, nl.inputPin? id = some pin → nl.inputs[pin.index]? = some id
  output_index : ∀ {id pin}, nl.outputPin? id = some pin → nl.outputs[pin.index]? = some id

variable {nl : Netlist Gate}

theorem pinIndex?_of_output {id : NodeId} {pin : OutputPin} (h : nl.outputPin? id = some pin) :
    nl.pinIndex? id = some pin.index := by
  unfold outputPin? at h
  cases hk : nl.kind? id with
  | none => simp [hk] at h
  | some kind =>
    cases kind <;> simp_all [NodeKind.outputPin?, pinIndex?, NodeKind.index?]

/-- A pin in a list whose members carry their positions stands at the position it carries. -/
private theorem getElem?_of_index {pins : List NodeId} {id : NodeId} {index : Nat}
    (hm : id ∈ pins) (hi : nl.pinIndex? id = some index)
    (hp : ∀ {k id}, pins[k]? = some id → nl.pinIndex? id = some k) : pins[index]? = some id := by
  obtain ⟨k, hk⟩ := List.mem_iff_getElem?.1 hm
  have hat := hp hk
  rw [hi] at hat
  rw [Option.some.inj hat, hk]

theorem WellFormed.consistent (h : nl.WellFormed) (hi : nl.Indexed) : nl.Consistent where
  gate_slots hg := h.slotCount (gate?_eq_some_iff.1 hg)
  input_slots hp := h.slots_of_input (role?_of_inputPin? hp)
  output_slots hp := h.slotCount (outputPin?_isSome_iff.1 (by simp [hp]))
  links {id link} hl := by
    obtain ⟨r, hr, ho⟩ := h.links hl
    constructor
    · cases hp : nl.outputPin? link.node with
      | none => rfl
      | some pin =>
        have hr' := outputPin?_isSome_iff.1 (Option.isSome_of_eq_some hp)
        rw [hr] at hr'
        injection hr' with hr'
        rw [hr'] at ho
        exact absurd ho (Nat.not_lt_zero _)
    · rw [role?_eq_map] at hr
      obtain ⟨node, hn, rfl⟩ := Option.map_eq_some_iff.1 hr
      exact ⟨node, hn, node.outputCount_eq ▸ ho⟩
  mem_inputs id := (h.mem_inputs id).trans inputPin?_isSome_iff.symm
  mem_outputs id := (h.mem_outputs id).trans outputPin?_isSome_iff.symm
  inputs_ascend := h.inputs_ascend
  outputs_ascend := h.outputs_ascend
  input_index {id pin} hp :=
    getElem?_of_index ((h.mem_inputs id).2 (role?_of_inputPin? hp)) (pinIndex?_of_input hp)
      hi.inputs
  output_index {id pin} hp :=
    getElem?_of_index ((h.mem_outputs id).2 (outputPin?_isSome_iff.1 (by simp [hp])))
      (pinIndex?_of_output hp) hi.outputs

section rehydration

variable {K : Netlist Gate → Prop}

theorem of_addEach {α : Type} {add : Netlist Gate → α → NodeId × Netlist Gate} (as : List α)
    (hadd : ∀ nl, ∀ a ∈ as, K nl → K (add nl a).2) (h : K nl) : K (addEach add nl as).2 := by
  induction as generalizing nl with
  | nil => exact h
  | cons a as ih =>
    refine ih (fun nl b hb => hadd nl b (List.mem_cons_of_mem a hb)) ?_
    exact hadd nl a List.mem_cons_self h

theorem of_connect (hlink : ∀ nl dest slot source output, K nl →
      K (nl.link dest slot source output).2) (h : K nl) {nodes inputs outputs : List NodeId}
    {links : List LinkDef} {nl' : Netlist Gate}
    (hc : GateDef.connect nodes inputs outputs nl links = .ok nl') : K nl' := by
  induction links generalizing nl with
  | nil =>
    injection hc with hc
    exact hc ▸ h
  | cons link links ih =>
    rw [GateDef.connect] at hc
    split at hc
    · cases hc
    · next source output _ =>
      split at hc
      · cases hc
      · next dest slot _ =>
        have hl := hlink nl dest slot source output h
        split at hc
        · cases hc
        · next he =>
          rw [he] at hl
          exact ih hl hc

theorem registered_of_mem_resolveAll {registry : Registry} {nodes : List NodeDef}
    {gates : List Gate} (h : GateDef.resolveAll registry nodes = .ok gates) :
    ∀ g ∈ gates, ∃ name entry, registry.get? name = some entry ∧ entry.gate = g := by
  induction nodes generalizing gates with
  | nil =>
    injection h with h
    exact h ▸ List.forall_mem_nil _
  | cons node nodes ih =>
    rw [GateDef.resolveAll, Registry.resolve] at h
    cases hr : registry.get? node.gateType with
    | none => simp [hr] at h
    | some entry =>
      cases hg : GateDef.resolveAll registry nodes with
      | error cause => simp [hr, hg, Except.map] at h
      | ok others =>
        simp only [hr, hg, Except.map, Except.ok.injEq] at h
        subst h
        exact List.forall_mem_cons.2 ⟨⟨_, entry, hr, rfl⟩, ih hg⟩

/-- What the empty netlist is, and every edit keeps that places registered gates only, a rehydrated
netlist is as well. -/
theorem of_toNetlist {registry : Registry} {d : GateDef} (hempty : K ∅)
    (hedit : ∀ nl e, (∀ g, e = .place g →
      ∃ name entry, registry.get? name = some entry ∧ entry.gate = g) → K nl → K (nl.edit e))
    (h : d.toNetlist registry = .ok nl) : K nl := by
  have hin := of_addEach d.inputs (fun nl name _ => hedit nl (.addInput name) nofun) hempty
  have hout := of_addEach d.outputs (fun nl name _ => hedit nl (.addOutput name) nofun) hin
  unfold GateDef.toNetlist at h
  dsimp only at h
  split at h
  · cases h
  · next gates hg =>
    have hplace : ∀ nl, ∀ g ∈ gates, K nl → K (nl.place g).2 := by
      intro nl g hm
      refine hedit nl (.place g) fun g' he => ?_
      obtain rfl := Edit.place.inj he
      exact registered_of_mem_resolveAll hg g hm
    exact of_connect (fun nl dest slot source output =>
      hedit nl (.link dest slot source output) nofun) (of_addEach gates hplace hout) h

/-- A definition rehydrates to a netlist that editing can make. -/
theorem reachable_toNetlist {d : GateDef} {registry : Registry}
    (h : d.toNetlist registry = .ok nl) : nl.Reachable :=
  of_toNetlist .empty (fun _ e _ h => h.edit e) h

end rehydration

/-- What a netlist starts as: empty, extracted from another one, or rehydrated. -/
inductive Origin : Netlist Gate → Prop where
  | empty : Origin ∅
  | extracted {nl part : Netlist Gate} {copies : Copies} (h : Origin nl) (es : List Edit)
      {ids : List NodeId} (he : (nl.edits es).extract ids = .ok (part, copies)) : Origin part
  | rehydrated {nl : Netlist Gate} {d : GateDef} {registry : Registry}
      (h : d.toNetlist registry = .ok nl) : Origin nl

theorem Origin.reachable (h : Origin nl) : nl.Reachable := by
  induction h with
  | empty => exact .empty
  | extracted _ es he ih => exact (ih.edits es).extract he
  | rehydrated h => exact reachable_toNetlist h

/-- A handle that a prefix of the edits left alive was given out before the last edit. -/
theorem lt_next_of_isLive_earlier {es es' : List Edit} (hp : es' <+: es) {id : NodeId}
    (hl : (nl.edits es').isLive id = true) : id < (nl.edits es).next := by
  obtain ⟨rest, rfl⟩ := hp
  obtain ⟨node, hn⟩ := isLive_iff.1 hl
  rw [edits_append]
  exact Nat.lt_of_lt_of_le (lt_next_of_node? hn) (later_edits _ rest).next_le

/-- A node that an edit brings to life was never alive before. -/
theorem fresh_of_edit (nl : Netlist Gate) (es : List Edit) (e : Edit) {id : NodeId}
    (hnew : id ∈ (nl.edits es).created e ∨
      (nl.edits es).isLive id = false ∧ ((nl.edits es).edit e).isLive id = true) :
    ∀ es', es' <+: es → (nl.edits es').isLive id = false := by
  have hle : (nl.edits es).next ≤ id := by
    rcases hnew with hm | ⟨hdead, hlive⟩
    · exact ((created_fresh _ e).2 id hm).1
    · apply Nat.le_of_not_lt
      intro hid
      rw [isLive_eq_isSome_role?] at hdead hlive
      have hnone := Option.isSome_eq_false_iff.1 hdead
      rw [(later_edit _ e).role?_eq_none hid (Option.isNone_iff_eq_none.1 hnone)] at hlive
      cases hlive
  intro es' hp
  apply Bool.eq_false_iff.2
  intro hl
  exact Nat.not_lt.2 hle (lt_next_of_isLive_earlier hp hl)

/-- After any edits, refused ones among them, a netlist is consistent, and what the next edit makes
are live nodes under handles that no node had before. -/
theorem Origin.representation (h : Origin nl) (es : List Edit) :
    (nl.edits es).Consistent ∧
    ∀ e, ((nl.edits es).created e).Nodup ∧
      (∀ id ∈ (nl.edits es).created e, ((nl.edits es).edit e).isLive id = true) ∧
      ∀ id, (id ∈ (nl.edits es).created e ∨
          (nl.edits es).isLive id = false ∧ ((nl.edits es).edit e).isLive id = true) →
        ∀ es', es' <+: es → (nl.edits es').isLive id = false := by
  have hr := h.reachable.edits es
  refine ⟨hr.wellFormed.consistent hr.indexed, ?_⟩
  intro e
  obtain ⟨hn, hlive⟩ := created_fresh (nl.edits es) e
  exact ⟨hn, fun id hm => (hlive id hm).2, fun id => fresh_of_edit nl es e⟩

/-- An inverter as it is kept. -/
def inverter : GateDef where
  name := "INVERTER"
  nodes := [{ gateType := "NOT" }]
  links := [⟨none, 0, some 0, 0, []⟩, ⟨some 0, 0, none, 0, []⟩]
  inputs := ["A"]
  outputs := ["Q"]
  metadata := ∅

/-- Once its gate is removed, a copy of its input pin gets the handle after that gate. -/
theorem representation_inverter : ∃ nl, inverter.toNetlist (.standard .reject) = .ok nl ∧
    (nl.edits [.remove 2]).Consistent ∧ 3 ∈ (nl.edits [.remove 2]).created (.duplicate [0] true) ∧
    ((nl.edits [.remove 2]).edit (.duplicate [0] true)).isLive 3 = true ∧
    (nl.edits []).isLive 3 = false := by
  have hd : inverter.toNetlist (.standard .reject) = .ok _ := rfl
  refine ⟨_, hd, ?_⟩
  obtain ⟨hc, hnew⟩ := Origin.representation (.rehydrated hd) [.remove 2]
  obtain ⟨_, hlive, hfresh⟩ := hnew (.duplicate [0] true)
  refine ⟨hc, ?made, hlive 3 ?made, hfresh 3 (.inl ?made) [] List.nil_prefix⟩
  decide +kernel

end Netlist

end Breadboard
