import Breadboard.Gate.Primitive
import Breadboard.Netlist.Copy
import Breadboard.Proofs.Netlist.Role

namespace Breadboard.Netlist

structure WellFormed (nl : Netlist Gate) : Prop where
  links : ∀ {id link}, some link ∈ nl.slots id →
    ∃ r, nl.role? link.node = some r ∧ link.output < r.outputCount
  slotCount : ∀ {id r}, nl.role? id = some r → (nl.slots id).length = r.slotCount
  mem_inputs : ∀ id, id ∈ nl.inputs ↔ nl.role? id = some .input
  mem_outputs : ∀ id, id ∈ nl.outputs ↔ nl.role? id = some .output
  inputs_ascend : nl.inputs.Pairwise (· < ·)
  outputs_ascend : nl.outputs.Pairwise (· < ·)

/-- The netlists that the editing operations and extraction can make of the empty one. -/
inductive Reachable : Netlist Gate → Prop where
  | empty : Reachable ∅
  | place {nl} (h : Reachable nl) (g : Gate) : Reachable (nl.place g).2
  | addInput {nl} (h : Reachable nl) (name : String) : Reachable (nl.addInput name).2
  | addOutput {nl} (h : Reachable nl) (name : String) : Reachable (nl.addOutput name).2
  | link {nl} (h : Reachable nl) (dest : NodeId) (slot : Nat) (source : NodeId) (output : Nat) :
      Reachable (nl.link dest slot source output).2
  | unlink {nl} (h : Reachable nl) (dest : NodeId) (slot : Nat) :
      Reachable (nl.unlink dest slot).2
  | remove {nl} (h : Reachable nl) (id : NodeId) : Reachable (nl.remove id).2
  | drive {nl} (h : Reachable nl) (id : NodeId) (value : Bool) : Reachable (nl.drive id value).2
  | toggle {nl} (h : Reachable nl) (id : NodeId) : Reachable (nl.toggle id).2
  | duplicate {nl} (h : Reachable nl) (ids : List NodeId) (withPins : Bool) :
      Reachable (nl.duplicate ids withPins).2
  | extract {nl part : Netlist Gate} {copies : Copies} (h : Reachable nl) {ids : List NodeId}
      (he : nl.extract ids = .ok (part, copies)) : Reachable part

/-- What every link keeps is kept when links are made one after another. -/
theorem linkAll_induction {P : Netlist Gate → Prop} {nl : Netlist Gate} (h : P nl)
    {links : List (NodeId × Nat × Link)}
    (hstep : ∀ nl, P nl → ∀ dest slot link, (dest, slot, link) ∈ links →
      P (nl.link dest slot link.node link.output).2) : P (nl.linkAll links).2 := by
  induction links generalizing nl with
  | nil => exact h
  | cons place links ih =>
    obtain ⟨dest, slot, link⟩ := place
    have hl := hstep nl h dest slot link List.mem_cons_self
    unfold Netlist.linkAll
    split
    · next he =>
      rw [he] at hl
      exact hl
    · next he =>
      rw [he] at hl
      exact ih hl fun nl hnl dest slot link hm => hstep nl hnl _ _ _ (List.mem_cons_of_mem _ hm)

/-- What every copy keeps is kept when nodes are copied one after another. -/
theorem copyNodes_induction {P : Netlist Gate → Prop} {source nl : Netlist Gate} (h : P nl)
    (ids : List NodeId)
    (hstep : ∀ nl, P nl → ∀ id node, source.node? id = some node →
      P (nl.insert node.unlinked).2) : P (source.copyNodes ids nl).2 := by
  unfold Netlist.copyNodes
  generalize (∅ : Copies) = copies
  induction ids generalizing nl copies with
  | nil => exact h
  | cons id ids ih =>
    rw [List.foldl_cons]
    cases hn : source.node? id with
    | none => exact ih h copies
    | some node => exact ih (hstep nl h id node hn) _

/-- The netlist without a node and the links to it. The pins keep the indices that they carry. -/
def without (nl : Netlist Gate) (id : NodeId) : Netlist Gate :=
  { nl.detach id with
    inputs := nl.inputs.filter (· != id)
    outputs := nl.outputs.filter (· != id) }

namespace WellFormed

variable {nl : Netlist Gate}

theorem slots_of_input (h : nl.WellFormed) {id : NodeId} (hr : nl.role? id = some .input) :
    nl.slots id = [] := List.eq_nil_of_length_eq_zero (h.slotCount hr)

/-- The source of a link is a gate or an input pin. -/
theorem source_cases (h : nl.WellFormed) {id : NodeId} {link : Link}
    (hl : some link ∈ nl.slots id) :
    (∃ g, nl.role? link.node = some (.gate g) ∧ link.output < g.outputs.length) ∨
      nl.role? link.node = some .input ∧ link.output = 0 := by
  obtain ⟨r, hr, ho⟩ := h.links hl
  cases r with
  | gate g => exact .inl ⟨g, hr, ho⟩
  | input => exact .inr ⟨hr, Nat.lt_one_iff.1 ho⟩
  | output => exact absurd ho (Nat.not_lt_zero _)

theorem isLive_of_link (h : nl.WellFormed) {id : NodeId} {link : Link}
    (hl : some link ∈ nl.slots id) : nl.isLive link.node = true := by
  obtain ⟨r, hr, _⟩ := h.links hl
  simp [isLive_eq_isSome_role?, hr]

/-- A link in a well-formed netlist is never filtered out by the liveness of its source. -/
theorem source?_eq (h : nl.WellFormed) (dest : NodeId) (slot : Nat) :
    nl.source? dest slot = (nl.slots dest)[slot]?.join := by
  unfold source?
  cases hs : (nl.slots dest)[slot]?.join with
  | none => rfl
  | some link =>
    have hl : some link ∈ nl.slots dest := by
      simp only [Option.join_eq_some_iff] at hs
      exact List.mem_of_getElem? hs
    simp [Option.filter, h.isLive_of_link hl]

theorem nodup_inputs (h : nl.WellFormed) : nl.inputs.Nodup :=
  h.inputs_ascend.imp fun hlt => Nat.ne_of_lt hlt

theorem nodup_outputs (h : nl.WellFormed) : nl.outputs.Nodup :=
  h.outputs_ascend.imp fun hlt => Nat.ne_of_lt hlt

theorem lt_length_slots_iff (h : nl.WellFormed) {id : NodeId} {slot : Nat} :
    slot < (nl.slots id).length ↔ ∃ r, nl.role? id = some r ∧ slot < r.slotCount := by
  cases hr : nl.role? id with
  | none => simp [slots_eq_nil_of_role? hr]
  | some r => simp [h.slotCount hr]

theorem empty : WellFormed ∅ where
  links h := by simp at h
  slotCount h := by simp at h
  mem_inputs id := by simp [EmptyCollection.emptyCollection, role?_eq_map, node?]
  mem_outputs id := by simp [EmptyCollection.emptyCollection, role?_eq_map, node?]
  inputs_ascend := List.Pairwise.nil
  outputs_ascend := List.Pairwise.nil

theorem alike {nl' : Netlist Gate} (h : nl.WellFormed) (ha : Alike nl nl') : nl'.WellFormed where
  links hl := by
    rw [ha.slots] at hl
    rw [ha.role]
    exact h.links hl
  slotCount hr := by
    rw [ha.role] at hr
    rw [ha.slots]
    exact h.slotCount hr
  mem_inputs id := by rw [ha.inputs, ha.role]; exact h.mem_inputs id
  mem_outputs id := by rw [ha.outputs, ha.role]; exact h.mem_outputs id
  inputs_ascend := by rw [ha.inputs]; exact h.inputs_ascend
  outputs_ascend := by rw [ha.outputs]; exact h.outputs_ascend

/-- The boundary list of one kind of pin after a new node. -/
private theorem boundary_insert (isPin : Bool) (new : Role) {pins : List NodeId} {next : NodeId}
    {role : NodeId → Option Role} {r : Role} (hp : isPin = true ↔ new = r)
    (hm : ∀ id, id ∈ pins ↔ role id = some r) (hlt : ∀ id ∈ pins, id < next)
    (ha : pins.Pairwise (· < ·)) :
    (∀ id, id ∈ (if isPin then pins ++ [next] else pins) ↔
      (if id = next then some new else role id) = some r) ∧
    (if isPin then pins ++ [next] else pins).Pairwise (· < ·) := by
  have hnew : next ∉ pins := fun h => Nat.lt_irrefl _ (hlt next h)
  by_cases h : isPin = true
  · rw [if_pos h]
    constructor
    · intro id
      by_cases hid : id = next
      · simp [hid, hp.1 h]
      · simp [hid, hm]
    · exact List.pairwise_append.2 ⟨ha, List.pairwise_singleton _ _, by simpa using hlt⟩
  · rw [if_neg h]
    refine ⟨?_, ha⟩
    intro id
    by_cases hid : id = next
    · subst hid
      simp [hnew, mt hp.2 h]
    · simp [hid, hm]

theorem insert (h : nl.WellFormed) {node : Node Gate}
    (hs : node.slots.length = node.kind.role.slotCount) (hn : ∀ slot ∈ node.slots, slot = none) :
    (nl.insert node).2.WellFormed := by
  have hin := boundary_insert node.kind.inputPin?.isSome node.kind.role
    (by cases node.kind <;> simp [NodeKind.inputPin?, NodeKind.role]) h.mem_inputs
    (fun id hid => lt_next_of_role? ((h.mem_inputs id).1 hid)) h.inputs_ascend
  have hout := boundary_insert node.kind.outputPin?.isSome node.kind.role
    (by cases node.kind <;> simp [NodeKind.outputPin?, NodeKind.role]) h.mem_outputs
    (fun id hid => lt_next_of_role? ((h.mem_outputs id).1 hid)) h.outputs_ascend
  constructor
  case links =>
    intro id link hl
    rw [slots_insert] at hl
    split at hl
    · simpa using hn _ hl
    · obtain ⟨r, hr, ho⟩ := h.links hl
      exact ⟨r, by rw [role?_insert, if_neg (Nat.ne_of_lt (lt_next_of_role? hr)), hr], ho⟩
  case slotCount =>
    intro id r hr
    rw [role?_insert] at hr
    rw [slots_insert]
    split at hr
    · next hid =>
      injection hr with hr
      rw [if_pos hid, hs, hr]
    · next hid =>
      rw [if_neg hid]
      exact h.slotCount hr
  case mem_inputs =>
    intro id
    rw [inputs_insert, role?_insert]
    exact hin.1 id
  case mem_outputs =>
    intro id
    rw [outputs_insert, role?_insert]
    exact hout.1 id
  case inputs_ascend =>
    rw [inputs_insert]
    exact hin.2
  case outputs_ascend =>
    rw [outputs_insert]
    exact hout.2

theorem setSlot (h : nl.WellFormed) (dest : NodeId) (slot : Nat) {link : Option Link}
    (hl : ∀ l, link = some l → ∃ r, nl.role? l.node = some r ∧ l.output < r.outputCount) :
    (nl.setSlot dest slot link).WellFormed where
  links {id l} hm := by
    rw [role?_setSlot]
    rw [slots_setSlot] at hm
    split at hm
    · rcases List.mem_or_eq_of_mem_set hm with hm | hm
      · exact h.links hm
      · exact hl l hm.symm
    · exact h.links hm
  slotCount {id r} hr := by
    rw [role?_setSlot] at hr
    rw [slots_setSlot, ← h.slotCount hr]
    split <;> simp
  mem_inputs id := by rw [role?_setSlot]; exact h.mem_inputs id
  mem_outputs id := by rw [role?_setSlot]; exact h.mem_outputs id
  inputs_ascend := h.inputs_ascend
  outputs_ascend := h.outputs_ascend

theorem link (h : nl.WellFormed) (dest : NodeId) (slot : Nat) (source : NodeId) (output : Nat) :
    (nl.link dest slot source output).2.WellFormed := by
  unfold Netlist.link
  split
  · exact h
  · next node hn =>
    split
    · exact h
    · next ho =>
      split
      · exact h
      · split
        · exact h
        · apply h.setSlot dest slot
          intro l hl
          injection hl with hl
          subst hl
          exact ⟨node.kind.role, by simp [role?_eq_map, hn], by
            rw [← node.outputCount_eq]
            exact Nat.lt_of_not_le ho⟩

theorem unlink (h : nl.WellFormed) (dest : NodeId) (slot : Nat) :
    (nl.unlink dest slot).2.WellFormed := by
  unfold Netlist.unlink
  split
  · exact h
  · split
    · exact h
    · exact h.setSlot dest slot nofun

/-- Without a node and the links to it, all is well when the boundary lists lose it too. -/
theorem without (h : nl.WellFormed) (id : NodeId) : (nl.without id).WellFormed := by
  have role : ∀ id', (nl.without id).role? id' = if id = id' then none else nl.role? id' :=
    role?_detach nl id
  have slots : ∀ id', (nl.without id).slots id' =
      if id = id' then [] else (nl.slots id').map fun slot => slot.filter (·.node != id) :=
    slots_detach nl id
  have kept {pins : List NodeId} {r : Role} (hm : ∀ id', id' ∈ pins ↔ nl.role? id' = some r)
      (id' : NodeId) : id' ∈ pins.filter (· != id) ↔ (nl.without id).role? id' = some r := by
    rw [role, List.mem_filter, hm]
    by_cases he : id = id'
    · simp [he]
    · simp [he, Ne.symm he]
  constructor
  case links =>
    intro id' link hl
    rw [slots] at hl
    split at hl
    · exact absurd hl (by simp)
    · obtain ⟨slot, hs, hf⟩ := List.mem_map.1 hl
      obtain ⟨rfl, hne⟩ := Option.filter_eq_some_iff.1 hf
      obtain ⟨r, hr, ho⟩ := h.links hs
      have hne : id ≠ link.node := fun he => by simp [he] at hne
      exact ⟨r, by rw [role, if_neg hne, hr], ho⟩
  case slotCount =>
    intro id' r hr
    rw [role] at hr
    rw [slots]
    split at hr
    · cases hr
    · next he =>
      rw [if_neg he, List.length_map]
      exact h.slotCount hr
  case mem_inputs => exact kept h.mem_inputs
  case mem_outputs => exact kept h.mem_outputs
  case inputs_ascend => exact h.inputs_ascend.filter _
  case outputs_ascend => exact h.outputs_ascend.filter _

/-- A node is removed from the list that it is in, and the others do not hold it. -/
theorem remove_eq (h : nl.WellFormed) {id : NodeId} {node : Node Gate}
    (hn : nl.node? id = some node) :
    nl.remove id = (.ok node, nl.without id) ∨
      nl.remove id = (.ok node, (nl.without id).reindex) := by
  have hr : nl.role? id = some node.kind.role := by simp [role?_eq_map, hn]
  -- a list that does not hold the node is its own filtered list
  have same {pins : List NodeId} {r : Role} (hm : ∀ id', id' ∈ pins ↔ nl.role? id' = some r)
      (hne : node.kind.role ≠ r) : pins.filter (· != id) = pins := by
    refine List.filter_eq_self.2 fun id' hid => bne_iff_ne.2 ?_
    rintro rfl
    rw [(hm id').1 hid] at hr
    exact hne (Option.some.inj hr).symm
  unfold remove Netlist.without
  rw [hn]
  dsimp only
  cases hk : node.kind with
  | gate g =>
    rw [same h.mem_inputs (by simp [hk, NodeKind.role]),
      same h.mem_outputs (by simp [hk, NodeKind.role])]
    exact .inl rfl
  | input pin =>
    rw [same h.mem_outputs (by simp [hk, NodeKind.role])]
    exact .inr rfl
  | output pin =>
    rw [same h.mem_inputs (by simp [hk, NodeKind.role])]
    exact .inr rfl

theorem remove (h : nl.WellFormed) (id : NodeId) : (nl.remove id).2.WellFormed := by
  cases hn : nl.node? id with
  | none =>
    rw [Netlist.remove, hn]
    exact h
  | some node =>
    rcases h.remove_eq hn with he | he
    · rw [he]
      exact h.without id
    · rw [he]
      exact (h.without id).alike (alike_reindex _)

theorem linkAll (h : nl.WellFormed) (links : List (NodeId × Nat × Link)) :
    (nl.linkAll links).2.WellFormed :=
  linkAll_induction h fun _ h _ _ _ _ => h.link ..

theorem of_linkAll (h : nl.WellFormed) {links : List (NodeId × Nat × Link)} {nl' : Netlist Gate}
    {answer : Except EditError Unit} (hl : nl.linkAll links = (answer, nl')) : nl'.WellFormed := by
  have hw := h.linkAll links
  rwa [hl] at hw

/-- Unlinked copies of nodes of a well-formed netlist fit into any other. -/
theorem insert_unlinked {source : Netlist Gate} (h : nl.WellFormed) (hs : source.WellFormed)
    {id : NodeId} {node : Node Gate} (hn : source.node? id = some node) :
    (nl.insert node.unlinked).2.WellFormed := by
  have hr : source.role? id = some node.kind.role := by simp [role?_eq_map, hn]
  have hc := hs.slotCount hr
  simp only [slots, hn, Option.map_some, Option.getD_some] at hc
  exact h.insert (by simpa [Node.unlinked] using hc) (by simp [Node.unlinked])

theorem copyNodes {source : Netlist Gate} (h : nl.WellFormed) (hs : source.WellFormed)
    (ids : List NodeId) : (source.copyNodes ids nl).2.WellFormed :=
  copyNodes_induction h ids fun _ h _ _ hn => h.insert_unlinked hs hn

theorem duplicate (h : nl.WellFormed) (ids : List NodeId) (withPins : Bool) :
    (nl.duplicate ids withPins).2.WellFormed := by
  unfold Netlist.duplicate
  split
  · exact h
  · next set _ => exact (h.copyNodes h set).linkAll _

theorem extract {ids : List NodeId} {part : Netlist Gate} {copies : Copies} (h : nl.WellFormed)
    (he : nl.extract ids = .ok (part, copies)) : part.WellFormed := by
  unfold Netlist.extract at he
  split at he
  · cases he
  · next set _ =>
    have hc := empty.copyNodes h set
    generalize nl.copyNodes set ∅ = copied at he hc
    dsimp only at he
    split at he
    · cases he
    · next hl =>
      injection he with he
      injection he with he _
      exact he ▸ hc.of_linkAll hl

end WellFormed

theorem Reachable.wellFormed {nl : Netlist Gate} (h : nl.Reachable) : nl.WellFormed := by
  induction h with
  | empty => exact .empty
  | place _ g ih => exact ih.insert (by simp [NodeKind.role, Role.slotCount]) (by simp)
  | addInput _ name ih => exact ih.insert rfl (by simp)
  | addOutput _ name ih => exact ih.insert rfl (by simp)
  | link _ dest slot source output ih => exact ih.link dest slot source output
  | unlink _ dest slot ih => exact ih.unlink dest slot
  | remove _ id ih => exact ih.remove id
  | drive _ id value ih => exact ih.alike (alike_drive _ id value)
  | toggle _ id ih => exact ih.alike (alike_updatePin _ id not)
  | duplicate _ ids withPins ih => exact ih.duplicate ids withPins
  | extract _ he ih => exact ih.extract he

/-- An input, an output and an `OR` gate that reads the input and itself. -/
def latch : Netlist Gate :=
  let pins := ((∅ : Netlist Gate).addInput "A").2.addOutput "Q" |>.2
  let gates := (pins.place Primitive.or.gate).2
  (((gates.link 2 0 0 0).2.link 2 1 2 0).2.link 1 0 2 0).2

theorem reachable_latch : latch.Reachable :=
  .link (.link (.link (.place (.addOutput (.addInput .empty "A") "Q") Primitive.or.gate)
    2 0 0 0) 2 1 2 0) 1 0 2 0

end Breadboard.Netlist
