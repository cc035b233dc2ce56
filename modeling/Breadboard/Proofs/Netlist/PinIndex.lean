import Breadboard.Proofs.Netlist.Edits

namespace Breadboard

/-- The index that a pin carries. -/
def NodeKind.index? : NodeKind Gate → Option Nat
  | .gate _ => none
  | .input pin => some pin.index
  | .output pin => some pin.index

@[simp] theorem NodeKind.index?_withState (kind : NodeKind Gate) (state : Bool) :
    (kind.withState state).index? = kind.index? := by cases kind <;> rfl

namespace Netlist

variable {nl nl' : Netlist Gate} {id : NodeId}

def pinIndex? (nl : Netlist Gate) (id : NodeId) : Option Nat := (nl.kind? id).bind (·.index?)

theorem pinIndex?_of_input {pin : InputPin} (h : nl.inputPin? id = some pin) :
    nl.pinIndex? id = some pin.index := by simp [pinIndex?, kind?_of_inputPin? h, NodeKind.index?]

theorem kind?_insert (nl : Netlist Gate) (node : Node Gate) (id : NodeId) :
    (nl.insert node).2.kind? id =
      if id = nl.next then some (node.kind.withIndex (nl.nextIndex node.kind))
      else nl.kind? id := by
  simp only [kind?, node?_insert]
  split <;> rfl

theorem pinIndex?_modifyNode (nl : Netlist Gate) (id : NodeId) {f : Node Gate → Node Gate}
    (hf : ∀ node, (f node).kind.index? = node.kind.index?) (id' : NodeId) :
    (nl.modifyNode id f).pinIndex? id' = nl.pinIndex? id' := by
  simp only [pinIndex?, kind?, node?_modifyNode]
  split
  · cases nl.node? id' <;> simp [hf]
  · rfl

@[simp] theorem pinIndex?_setSlot (nl : Netlist Gate) (dest : NodeId) (slot : Nat)
    (link : Option Link) (id : NodeId) :
    (nl.setSlot dest slot link).pinIndex? id = nl.pinIndex? id := by
  rw [setSlot, pinIndex?_modifyNode]
  exact fun _ => rfl

@[simp] theorem pinIndex?_updatePin (nl : Netlist Gate) (id : NodeId) (f : Bool → Bool)
    (id' : NodeId) : (nl.updatePin id f).2.pinIndex? id' = nl.pinIndex? id' := by
  unfold updatePin
  split
  · rfl
  · exact pinIndex?_modifyNode nl id (by simp) id'
  · rfl

theorem pinIndex?_detach (nl : Netlist Gate) {id id' : NodeId} (hne : id ≠ id') :
    (nl.detach id).pinIndex? id' = nl.pinIndex? id' := by
  simp only [pinIndex?, kind?, node?_detach, if_neg hne]
  cases nl.node? id' <;> rfl

/-- The boundary pins carry their positions. -/
structure Indexed (nl : Netlist Gate) : Prop where
  inputs : ∀ {k id}, nl.inputs[k]? = some id → nl.pinIndex? id = some k
  outputs : ∀ {k id}, nl.outputs[k]? = some id → nl.pinIndex? id = some k

theorem Indexed.of_eq (h : nl.Indexed) (hp : ∀ id, nl'.pinIndex? id = nl.pinIndex? id)
    (hi : nl'.inputs = nl.inputs) (ho : nl'.outputs = nl.outputs) : nl'.Indexed where
  inputs hk := by rw [hp]; exact h.inputs (hi ▸ hk)
  outputs hk := by rw [hp]; exact h.outputs (ho ▸ hk)

/-- A new pin is written its position, which is the length of its list. -/
private theorem position_insert (isPin : Bool) {pins : List NodeId} {next k : Nat}
    {old new : NodeId → Option Nat} (hold : ∀ {k id}, pins[k]? = some id → old id = some k)
    (hlt : ∀ id ∈ pins, id < next) (hrest : ∀ id, id ≠ next → new id = old id)
    (hnew : isPin = true → new next = some pins.length)
    (hk : (if isPin then pins ++ [next] else pins)[k]? = some id) : new id = some k := by
  have hearlier (hk : pins[k]? = some id) : new id = some k := by
    rw [hrest id (Nat.ne_of_lt (hlt id (List.mem_of_getElem? hk)))]
    exact hold hk
  split at hk
  · next hp =>
    rcases Nat.lt_or_ge k pins.length with hlen | hlen
    · rw [List.getElem?_append_left hlen] at hk
      exact hearlier hk
    · rw [List.getElem?_append_right hlen, List.getElem?_singleton] at hk
      split at hk
      · injection hk with hk
        rw [← hk, hnew hp]
        congr 1
        omega
      · cases hk
  · exact hearlier hk

theorem Indexed.insert (h : nl.Indexed) (hw : nl.WellFormed) (node : Node Gate) :
    (nl.insert node).2.Indexed := by
  have hrest (id : NodeId) (hne : id ≠ nl.next) :
      (nl.insert node).2.pinIndex? id = nl.pinIndex? id := by
    simp [pinIndex?, kind?_insert, hne]
  constructor
  case inputs =>
    intro k id hk
    rw [inputs_insert] at hk
    refine position_insert _ h.inputs ?_ hrest ?_ hk
    · intro id hid
      exact lt_next_of_role? ((hw.mem_inputs id).1 hid)
    · intro hp
      obtain ⟨kind, slots⟩ := node
      cases kind <;> simp [NodeKind.inputPin?, pinIndex?, kind?_insert, NodeKind.withIndex,
        NodeKind.index?, nextIndex] at hp ⊢
  case outputs =>
    intro k id hk
    rw [outputs_insert] at hk
    refine position_insert _ h.outputs ?_ hrest ?_ hk
    · intro id hid
      exact lt_next_of_role? ((hw.mem_outputs id).1 hid)
    · intro hp
      obtain ⟨kind, slots⟩ := node
      cases kind <;> simp [NodeKind.outputPin?, pinIndex?, kind?_insert, NodeKind.withIndex,
        NodeKind.index?, nextIndex] at hp ⊢

/-- The netlist with an index written into a pin. -/
def writeIndex (nl : Netlist Gate) (place : NodeId × Nat) : Netlist Gate :=
  nl.modifyNode place.1 fun node => { node with kind := node.kind.withIndex place.2 }

theorem reindex_eq (nl : Netlist Gate) :
    nl.reindex = (nl.inputs.zipIdx ++ nl.outputs.zipIdx).foldl writeIndex nl := rfl

theorem pinIndex?_writeIndex (nl : Netlist Gate) (place : NodeId × Nat) (id : NodeId) :
    (nl.writeIndex place).pinIndex? id =
      if place.1 = id then (nl.pinIndex? id).map fun _ => place.2 else nl.pinIndex? id := by
  simp only [pinIndex?, kind?, writeIndex, node?_modifyNode]
  split
  · cases nl.node? id with
    | none => rfl
    | some node =>
      obtain ⟨kind, slots⟩ := node
      cases kind <;> rfl
  · rfl

theorem pinIndex?_foldl_of_notMem {places : List (NodeId × Nat)}
    (h : id ∉ places.map (·.1)) :
    (places.foldl writeIndex nl).pinIndex? id = nl.pinIndex? id := by
  induction places generalizing nl with
  | nil => rfl
  | cons place places ih =>
    rw [List.map_cons, List.mem_cons, not_or] at h
    rw [List.foldl_cons, ih h.2, pinIndex?_writeIndex, if_neg (Ne.symm h.1)]

/-- Indices that are written into distinct pins are all there at the end. -/
theorem pinIndex?_foldl_of_mem {places : List (NodeId × Nat)} (hn : (places.map (·.1)).Nodup)
    (hp : ∀ place ∈ places, (nl.pinIndex? place.1).isSome) {place : NodeId × Nat}
    (hm : place ∈ places) : (places.foldl writeIndex nl).pinIndex? place.1 = some place.2 := by
  induction places generalizing nl with
  | nil => cases hm
  | cons first places ih =>
    obtain ⟨hfirst, hn⟩ := List.nodup_cons.1 hn
    obtain ⟨hpin, hp⟩ := List.forall_mem_cons.1 hp
    rw [List.foldl_cons]
    cases hm with
    | head =>
      rw [pinIndex?_foldl_of_notMem hfirst, pinIndex?_writeIndex, if_pos rfl]
      obtain ⟨old, hold⟩ := Option.isSome_iff_exists.1 hpin
      simp [hold]
    | tail _ hm =>
      apply ih hn ?_ hm
      intro other ho
      rw [pinIndex?_writeIndex]
      split
      · simpa using hp other ho
      · exact hp other ho

theorem pinIndex?_isSome_of_role? {r : Role} (hr : nl.role? id = some r)
    (hg : ∀ g, r ≠ .gate g) : (nl.pinIndex? id).isSome := by
  obtain ⟨kind, hk, rfl⟩ := Option.map_eq_some_iff.1 hr
  cases kind with
  | gate g => exact absurd rfl (hg g)
  | input pin => simp [pinIndex?, hk, NodeKind.index?]
  | output pin => simp [pinIndex?, hk, NodeKind.index?]

/-- Reindexing leaves every pin with its position, whatever the pins carried before. -/
theorem indexed_reindex (hw : nl.WellFormed) : nl.reindex.Indexed := by
  have hplaces : (nl.inputs.zipIdx ++ nl.outputs.zipIdx).map (·.1) = nl.inputs ++ nl.outputs := by
    rw [List.map_append, List.zipIdx_map_fst, List.zipIdx_map_fst]
  have hn : ((nl.inputs.zipIdx ++ nl.outputs.zipIdx).map (·.1)).Nodup := by
    rw [hplaces, List.nodup_append]
    refine ⟨hw.nodup_inputs, hw.nodup_outputs, ?_⟩
    intro a ha b hb he
    have hra := (hw.mem_inputs a).1 ha
    have hrb := (hw.mem_outputs b).1 hb
    rw [he, hrb] at hra
    cases hra
  have hpin : ∀ place ∈ nl.inputs.zipIdx ++ nl.outputs.zipIdx,
      (nl.pinIndex? place.1).isSome := by
    intro place hm
    have hid : place.1 ∈ nl.inputs ++ nl.outputs := hplaces ▸ List.mem_map_of_mem hm
    rcases List.mem_append.1 hid with hid | hid
    · exact pinIndex?_isSome_of_role? ((hw.mem_inputs _).1 hid) nofun
    · exact pinIndex?_isSome_of_role? ((hw.mem_outputs _).1 hid) nofun
  have hwritten {k : Nat} {id : NodeId} (hm : (id, k) ∈ nl.inputs.zipIdx ++ nl.outputs.zipIdx) :
      nl.reindex.pinIndex? id = some k := by
    rw [reindex_eq]
    exact pinIndex?_foldl_of_mem hn hpin hm
  constructor
  case inputs =>
    intro k id hk
    rw [(alike_reindex nl).inputs] at hk
    exact hwritten (List.mem_append_left _ (List.mem_zipIdx_iff_getElem?.2 hk))
  case outputs =>
    intro k id hk
    rw [(alike_reindex nl).outputs] at hk
    exact hwritten (List.mem_append_right _ (List.mem_zipIdx_iff_getElem?.2 hk))

theorem Indexed.remove (h : nl.Indexed) (hw : nl.WellFormed) (id : NodeId) :
    (nl.remove id).2.Indexed := by
  have hwr := hw.remove id
  unfold Netlist.remove at hwr ⊢
  split at hwr
  · exact h
  · next node hn =>
    have hr : nl.role? id = some node.kind.role := by simp [role?_eq_map, hn]
    dsimp only at hwr ⊢
    split at hwr
    · next hk =>
      rw [hk] at hr
      have hpin {pins : List NodeId} {r : Role} (hm : ∀ id', id' ∈ pins ↔ nl.role? id' = some r)
          (hne : ∀ g, r ≠ .gate g) {k : Nat} {id' : NodeId} (hk : pins[k]? = some id') :
          id ≠ id' := by
        intro he
        have hr' := (hm id').1 (List.mem_of_getElem? hk)
        rw [← he, hr] at hr'
        injection hr' with hr'
        exact hne _ hr'.symm
      constructor
      case inputs =>
        intro k id' hk
        rw [pinIndex?_detach nl (hpin hw.mem_inputs nofun hk)]
        exact h.inputs hk
      case outputs =>
        intro k id' hk
        rw [pinIndex?_detach nl (hpin hw.mem_outputs nofun hk)]
        exact h.outputs hk
    · exact indexed_reindex (hwr.alike (alike_reindex _).symm)
    · exact indexed_reindex (hwr.alike (alike_reindex _).symm)

theorem Indexed.link (h : nl.Indexed) (dest : NodeId) (slot : Nat) (source : NodeId)
    (output : Nat) : (nl.link dest slot source output).2.Indexed := by
  rcases nl.link_cases dest slot source output with he | he
  · rw [he]
    exact h
  · rw [he]
    exact h.of_eq (by simp) rfl rfl

theorem Indexed.unlink (h : nl.Indexed) (dest : NodeId) (slot : Nat) :
    (nl.unlink dest slot).2.Indexed := by
  rcases nl.unlink_cases dest slot with he | he
  · rw [he]
    exact h
  · rw [he]
    exact h.of_eq (by simp) rfl rfl

theorem Indexed.updatePin (h : nl.Indexed) (id : NodeId) (f : Bool → Bool) :
    (nl.updatePin id f).2.Indexed :=
  h.of_eq (pinIndex?_updatePin nl id f) (alike_updatePin nl id f).inputs
    (alike_updatePin nl id f).outputs

theorem Indexed.linkAll (h : nl.Indexed) (links : List (NodeId × Nat × Link)) :
    (nl.linkAll links).2.Indexed :=
  linkAll_induction h fun _ h _ _ _ _ => h.link ..

theorem Indexed.of_linkAll (h : nl.Indexed) {links : List (NodeId × Nat × Link)}
    {answer : Except EditError Unit} (hl : nl.linkAll links = (answer, nl')) : nl'.Indexed := by
  have hi := h.linkAll links
  rwa [hl] at hi

theorem Indexed.copyNodes {source : Netlist Gate} (h : nl.Indexed) (hw : nl.WellFormed)
    (hs : source.WellFormed) (ids : List NodeId) : (source.copyNodes ids nl).2.Indexed := by
  have hboth : (source.copyNodes ids nl).2.Indexed ∧ (source.copyNodes ids nl).2.WellFormed := by
    refine copyNodes_induction (P := fun nl => nl.Indexed ∧ nl.WellFormed) ⟨h, hw⟩ ids ?_
    intro nl hnl id node hn
    exact ⟨hnl.1.insert hnl.2 node.unlinked, hnl.2.insert_unlinked hs hn⟩
  exact hboth.1

theorem indexed_empty : (∅ : Netlist Gate).Indexed := ⟨nofun, nofun⟩

theorem Indexed.duplicate (h : nl.Indexed) (hw : nl.WellFormed) (ids : List NodeId)
    (withPins : Bool) : (nl.duplicate ids withPins).2.Indexed := by
  unfold Netlist.duplicate
  split
  · exact h
  · next set _ => exact (h.copyNodes hw hw set).linkAll _

theorem WellFormed.indexed_extract (hw : nl.WellFormed) {ids : List NodeId} {part : Netlist Gate}
    {copies : Copies} (he : nl.extract ids = .ok (part, copies)) : part.Indexed := by
  unfold Netlist.extract at he
  split at he
  · cases he
  · next set _ =>
    have hc := indexed_empty.copyNodes .empty hw set
    generalize nl.copyNodes set ∅ = copied at he hc
    dsimp only at he
    split at he
    · cases he
    · next hl =>
      injection he with he
      injection he with he _
      exact he ▸ hc.of_linkAll hl

theorem Reachable.indexed {nl : Netlist Gate} (h : nl.Reachable) : nl.Indexed := by
  induction h with
  | empty => exact indexed_empty
  | place h g ih => exact ih.insert h.wellFormed _
  | addInput h name ih => exact ih.insert h.wellFormed _
  | addOutput h name ih => exact ih.insert h.wellFormed _
  | link _ dest slot source output ih => exact ih.link dest slot source output
  | unlink _ dest slot ih => exact ih.unlink dest slot
  | remove h id ih => exact ih.remove h.wellFormed id
  | drive _ id value ih => exact ih.updatePin id fun _ => value
  | toggle _ id ih => exact ih.updatePin id not
  | duplicate h ids withPins ih => exact ih.duplicate h.wellFormed ids withPins
  | extract h he _ => exact h.wellFormed.indexed_extract he

end Netlist

end Breadboard
