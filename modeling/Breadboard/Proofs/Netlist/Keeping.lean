import Breadboard.Proofs.Netlist.Cone
import Breadboard.Proofs.Netlist.Edits

namespace Breadboard

/-- The state that an input pin stores. -/
def NodeKind.state? : NodeKind Gate → Option Bool
  | .input pin => some pin.state
  | _ => none

@[simp] theorem NodeKind.state?_withIndex (kind : NodeKind Gate) (index : Nat) :
    (kind.withIndex index).state? = kind.state? := by cases kind <;> rfl

/-- An edit is not about a node: it neither sets a slot or the state of the node nor removes it or a
node that it reads. -/
def Edit.Avoids (nl : Netlist Gate) (id : NodeId) : Edit → Prop
  | .link dest _ _ _ => dest ≠ id
  | .unlink dest _ => dest ≠ id
  | .remove id' => id' ≠ id ∧ ¬ nl.Reads id id'
  | .drive id' _ => id' ≠ id
  | .toggle id' => id' ≠ id
  | _ => True

namespace Netlist

variable {nl nl' nl'' : Netlist Gate} {id : NodeId}

def state? (nl : Netlist Gate) (id : NodeId) : Option Bool := (nl.kind? id).bind (·.state?)

theorem state?_of_inputPin? {pin : InputPin} (h : nl.inputPin? id = some pin) :
    nl.state? id = some pin.state := by simp [state?, kind?_of_inputPin? h, NodeKind.state?]

theorem state?_modifyNode (nl : Netlist Gate) (id : NodeId) {f : Node Gate → Node Gate}
    (hf : ∀ node, (f node).kind.state? = node.kind.state?) (id' : NodeId) :
    (nl.modifyNode id f).state? id' = nl.state? id' := by
  simp only [state?, kind?, node?_modifyNode]
  split
  · cases nl.node? id' <;> simp [hf]
  · rfl

theorem state?_insert (node : Node Gate) (hid : id < nl.next) :
    (nl.insert node).2.state? id = nl.state? id := by
  simp only [state?, kind?, node?_insert, if_neg (Nat.ne_of_lt hid)]

@[simp] theorem state?_setSlot (nl : Netlist Gate) (dest : NodeId) (slot : Nat)
    (link : Option Link) (id : NodeId) : (nl.setSlot dest slot link).state? id = nl.state? id := by
  rw [setSlot, state?_modifyNode]
  exact fun _ => rfl

theorem state?_detach (nl : Netlist Gate) {id id' : NodeId} (hne : id ≠ id') :
    (nl.detach id).state? id' = nl.state? id' := by
  simp only [state?, kind?, node?_detach, if_neg hne]
  cases nl.node? id' <;> rfl

theorem state?_reindex (nl : Netlist Gate) (id : NodeId) : nl.reindex.state? id = nl.state? id := by
  unfold reindex
  generalize nl.inputs.zipIdx ++ nl.outputs.zipIdx = places
  induction places generalizing nl with
  | nil => rfl
  | cons place places ih => exact (ih _).trans (state?_modifyNode nl place.1 (by simp) id)

theorem state?_remove (nl : Netlist Gate) {id id' : NodeId} (hne : id ≠ id') :
    (nl.remove id).2.state? id' = nl.state? id' := by
  unfold remove
  split
  · rfl
  · dsimp only
    split
    · exact state?_detach nl hne
    · exact (state?_reindex _ id').trans (state?_detach nl hne)
    · exact (state?_reindex _ id').trans (state?_detach nl hne)

@[simp] theorem state?_link (nl : Netlist Gate) (dest : NodeId) (slot : Nat) (source : NodeId)
    (output : Nat) (id : NodeId) :
    (nl.link dest slot source output).2.state? id = nl.state? id := by
  rcases nl.link_cases dest slot source output with h | h <;> simp [h]

@[simp] theorem state?_unlink (nl : Netlist Gate) (dest : NodeId) (slot : Nat) (id : NodeId) :
    (nl.unlink dest slot).2.state? id = nl.state? id := by
  rcases nl.unlink_cases dest slot with h | h <;> simp [h]

theorem state?_linkAll (nl : Netlist Gate) (links : List (NodeId × Nat × Link)) (id : NodeId) :
    (nl.linkAll links).2.state? id = nl.state? id :=
  linkAll_induction (P := fun nl' => nl'.state? id = nl.state? id) rfl fun _ h _ _ _ _ =>
    (state?_link ..).trans h

theorem state?_duplicate (ids : List NodeId) (withPins : Bool) (hid : id < nl.next) :
    (nl.duplicate ids withPins).2.state? id = nl.state? id := by
  unfold duplicate
  split
  · rfl
  · next set hs =>
    refine (state?_linkAll _ _ id).trans ?_
    rw [state?, kind?, (copied_copySet hs nl).kept id hid]
    rfl

theorem state?_updatePin_of_ne (nl : Netlist Gate) {id id' : NodeId} (hne : id ≠ id')
    (f : Bool → Bool) : (nl.updatePin id f).2.state? id' = nl.state? id' := by
  unfold updatePin
  split
  · rfl
  · simp [state?, kind?, node?_modifyNode, hne]
  · rfl

theorem state?_drive_of_ne (nl : Netlist Gate) {id id' : NodeId} (hne : id ≠ id')
    (value : Bool) : (nl.drive id value).2.state? id' = nl.state? id' :=
  nl.state?_updatePin_of_ne hne fun _ => value

theorem state?_updatePin_self (nl : Netlist Gate) (id : NodeId) (f : Bool → Bool) :
    (nl.updatePin id f).2.state? id = (nl.state? id).map f := by
  cases hk : nl.kind? id with
  | none => simp [updatePin, state?, hk]
  | some kind =>
    cases kind with
    | gate g => simp [updatePin, state?, hk, NodeKind.state?]
    | output pin => simp [updatePin, state?, hk, NodeKind.state?]
    | input pin =>
      obtain ⟨node, hn, hnode⟩ := Option.map_eq_some_iff.1 hk
      simp [updatePin, state?, kind?, node?_modifyNode, hn, hnode, NodeKind.state?,
        NodeKind.withState]

/-- A node has the same role, slots and state in another netlist. -/
structure Keeps (nl nl' : Netlist Gate) (id : NodeId) : Prop where
  role : nl'.role? id = nl.role? id
  slots : nl'.slots id = nl.slots id
  state : nl'.state? id = nl.state? id

theorem Keeps.refl (nl : Netlist Gate) (id : NodeId) : Keeps nl nl id := ⟨rfl, rfl, rfl⟩

theorem Keeps.trans (h : Keeps nl nl' id) (h' : Keeps nl' nl'' id) : Keeps nl nl'' id :=
  ⟨h'.role.trans h.role, h'.slots.trans h.slots, h'.state.trans h.state⟩

theorem Keeps.reads (h : Keeps nl nl' id) {source : NodeId} :
    nl'.Reads id source ↔ nl.Reads id source := by
  unfold Reads
  rw [h.slots]

theorem keeps_insert (node : Node Gate) (hid : id < nl.next) :
    Keeps nl (nl.insert node).2 id := by
  have hne := Nat.ne_of_lt hid
  refine ⟨?_, ?_, state?_insert node hid⟩
  · rw [role?_insert, if_neg hne]
  · rw [slots_insert, if_neg hne]

/-- An edit that is not about a node keeps it. -/
theorem keeps_edit {e : Edit} (hid : id < nl.next) (h : e.Avoids nl id) :
    Keeps nl (nl.edit e) id := by
  cases e with
  | place g => exact keeps_insert _ hid
  | addInput name => exact keeps_insert _ hid
  | addOutput name => exact keeps_insert _ hid
  | link dest slot source output =>
    exact ⟨role?_link .., nl.slots_link_of_ne h slot source output, state?_link ..⟩
  | unlink dest slot => exact ⟨role?_unlink .., nl.slots_unlink_of_ne h slot, state?_unlink ..⟩
  | remove removed =>
    obtain ⟨hne, hr⟩ := h
    refine ⟨?_, nl.slots_remove hne ?_, nl.state?_remove hne⟩
    · rw [edit, role?_remove, if_neg hne]
    · exact fun link hl he => hr ⟨link, hl, he⟩
  | drive pin value =>
    have ha := alike_drive nl pin value
    exact ⟨ha.role id, ha.slots id, nl.state?_drive_of_ne h value⟩
  | toggle pin =>
    have ha := alike_updatePin nl pin not
    exact ⟨ha.role id, ha.slots id, nl.state?_updatePin_of_ne h not⟩
  | duplicate ids withPins =>
    exact ⟨nl.role?_duplicate ids withPins hid, nl.slots_duplicate ids withPins hid,
      state?_duplicate ids withPins hid⟩

end Netlist

end Breadboard
