import Breadboard.Proofs.Netlist.PinIndex
import Breadboard.Proofs.Netlist.Wiring

namespace Breadboard

theorem NodeKind.withIndex_withIndex {γ : Type} (kind : NodeKind γ) (i j : Nat) :
    (kind.withIndex i).withIndex j = kind.withIndex j := by cases kind <;> rfl

/-- A pin carries some index already. -/
theorem NodeKind.exists_map_withIndex {γ : Type} (kind : Option (NodeKind γ)) :
    ∃ index, kind.map (·.withIndex index) = kind := by
  cases kind with
  | none => exact ⟨0, rfl⟩
  | some kind =>
    cases kind with
    | gate part => exact ⟨0, rfl⟩
    | input pin => exact ⟨pin.index, rfl⟩
    | output pin => exact ⟨pin.index, rfl⟩

namespace Netlist

/-- An edit fails exactly when something is wrong with its arguments, and then it leaves the
netlist as it is. -/
structure RefusedIff {α : Type} (nl : Netlist Gate) (result : Except EditError α × Netlist Gate)
    (wrong : Prop) : Prop where
  refused : (∃ e, result.1 = .error e) ↔ wrong
  unchanged : (∃ e, result.1 = .error e) → result.2 = nl

/-- One slot has been given another content, and nothing else is changed. -/
structure Rewired (nl nl' : Netlist Gate) (dest : NodeId) (slot : Nat) (content : Option Link) :
    Prop where
  written : (nl'.slots dest)[slot]? = some content
  slots : ∀ id k, (id, k) ≠ (dest, slot) → (nl'.slots id)[k]? = (nl.slots id)[k]?
  kind : ∀ id, nl'.kind? id = nl.kind? id
  inputs : nl'.inputs = nl.inputs
  outputs : nl'.outputs = nl.outputs
  next : nl'.next = nl.next

/-- A node is gone, from its boundary list too, and the slots that read it are empty. Nothing else
is changed but the indices of the pins, which are their positions again. -/
structure Removed (nl nl' : Netlist Gate) (id : NodeId) : Prop where
  gone : nl'.node? id = none
  slots : ∀ id', id' ≠ id →
    nl'.slots id' = (nl.slots id').map fun slot => slot.filter (·.node != id)
  kind : ∀ id', id' ≠ id → ∃ index, nl'.kind? id' = (nl.kind? id').map (·.withIndex index)
  indexed : nl'.Indexed
  inputs : nl'.inputs = nl.inputs.filter (· != id)
  outputs : nl'.outputs = nl.outputs.filter (· != id)
  next : nl'.next = nl.next

variable {nl nl' : Netlist Gate}

section refused

variable {α : Type} {wrong : Prop}

theorem RefusedIff.of_wrong (h : wrong) (cause : EditError) :
    RefusedIff nl ((.error cause : Except EditError α), nl) wrong :=
  ⟨⟨fun _ => h, fun _ => ⟨cause, rfl⟩⟩, fun _ => rfl⟩

theorem RefusedIff.of_not_wrong (h : ¬ wrong) (answer : α) :
    RefusedIff nl (.ok answer, nl') wrong := by
  have hok : ¬ ∃ e, (.ok answer : Except EditError α) = .error e := nofun
  exact ⟨⟨fun he => absurd he hok, fun hw => absurd hw h⟩, fun he => absurd he hok⟩

theorem slots_of_node? {id : NodeId} {node : Node Gate} (h : nl.node? id = some node) :
    nl.slots id = node.slots := by rw [slots, h, Option.map_some, Option.getD_some]

theorem slot_missing_iff {dest : NodeId} {slot : Nat} :
    nl.isLive dest = false ∨ (nl.slots dest).length ≤ slot ↔
      ∀ target ∈ nl.node? dest, target.slots.length ≤ slot := by
  cases hn : nl.node? dest with
  | none => simp [isLive, hn]
  | some target => simp [isLive, hn, slots_of_node? hn]

theorem source_missing_iff {source : NodeId} {output : Nat} :
    (nl.isLive source = false ∨ ∃ node, nl.node? source = some node ∧ node.outputCount ≤ output) ↔
      ∀ node ∈ nl.node? source, node.outputCount ≤ output := by
  cases hn : nl.node? source with
  | none => simp [isLive, hn]
  | some node => simp [isLive, hn]

theorem refusedIff_link (dest : NodeId) (slot : Nat) (source : NodeId) (output : Nat) :
    RefusedIff nl (nl.link dest slot source output)
      ((∀ node ∈ nl.node? source, node.outputCount ≤ output) ∨
        ∀ target ∈ nl.node? dest, target.slots.length ≤ slot) := by
  unfold link
  split
  · next hsource => exact .of_wrong (.inl (by simp [hsource])) _
  · next node hsource =>
    split
    · next ho => exact .of_wrong (.inl (by simpa [hsource] using ho)) _
    · next ho =>
      split
      · next hdest => exact .of_wrong (.inr (by simp [hdest])) _
      · next target hdest =>
        split
        · next hslot => exact .of_wrong (.inr (by simpa [hdest] using hslot)) _
        · next old hslot =>
          obtain ⟨hlt, -⟩ := List.getElem?_eq_some_iff.1 hslot
          exact .of_not_wrong (by simp [hsource, hdest, ho, hlt]) old

theorem refusedIff_unlink (dest : NodeId) (slot : Nat) :
    RefusedIff nl (nl.unlink dest slot) (∀ target ∈ nl.node? dest, target.slots.length ≤ slot) := by
  unfold unlink
  split
  · next hdest => exact .of_wrong (by simp [hdest]) _
  · next target hdest =>
    split
    · next hslot => exact .of_wrong (by simpa [hdest] using hslot) _
    · next old hslot =>
      obtain ⟨hlt, -⟩ := List.getElem?_eq_some_iff.1 hslot
      exact .of_not_wrong (by simp [hdest, hlt]) old

theorem refusedIff_remove (id : NodeId) :
    RefusedIff nl (nl.remove id) (nl.isLive id = false) := by
  unfold remove
  split
  · next hn => exact .of_wrong (by simp [isLive, hn]) _
  · next node hn => exact .of_not_wrong (by simp [isLive, hn]) node

theorem refusedIff_updatePin (id : NodeId) (f : Bool → Bool) :
    RefusedIff nl (nl.updatePin id f) (nl.inputPin? id = none) := by
  unfold updatePin inputPin?
  split
  · next hk => exact .of_wrong (by simp [hk]) _
  · next pin hk => exact .of_not_wrong (by simp [hk, NodeKind.inputPin?]) _
  · next kind hkind hk =>
    refine .of_wrong ?_ _
    rw [hk, Option.bind_some]
    cases kind with
    | input pin => exact absurd rfl (hkind pin)
    | gate g => rfl
    | output pin => rfl

theorem RefusedIff.map {β : Type} {result : Except EditError α × Netlist Gate}
    (h : RefusedIff nl result wrong) (f : α → β) :
    RefusedIff nl (result.1.map f, result.2) wrong := by
  obtain ⟨answer, edited⟩ := result
  cases answer with
  | error e =>
    obtain rfl := h.unchanged ⟨e, rfl⟩
    exact .of_wrong (h.refused.1 ⟨e, rfl⟩) e
  | ok a => exact .of_not_wrong (fun hw => by simpa using h.refused.2 hw) (f a)

theorem refusedIff_drive (id : NodeId) (value : Bool) :
    RefusedIff nl (nl.drive id value) (nl.inputPin? id = none) :=
  (refusedIff_updatePin id fun _ => value).map fun _ => ()

end refused

theorem link_eq_ok {dest source : NodeId} {slot output : Nat} {old : Option Link}
    (h : nl.link dest slot source output = (.ok old, nl')) :
    (nl.slots dest)[slot]? = some old ∧ nl' = nl.setSlot dest slot (some ⟨source, output⟩) := by
  unfold link at h
  split at h
  · cases h
  · split at h
    · cases h
    · split at h
      · cases h
      · next target hdest =>
        split at h
        · cases h
        · next old' hslot =>
          obtain ⟨ho, rfl⟩ := Prod.mk.inj h
          rw [slots_of_node? hdest, hslot, Except.ok.inj ho]
          exact ⟨rfl, rfl⟩

theorem unlink_eq_ok {dest : NodeId} {slot : Nat} {old : Option Link}
    (h : nl.unlink dest slot = (.ok old, nl')) :
    (nl.slots dest)[slot]? = some old ∧ nl' = nl.setSlot dest slot none := by
  unfold unlink at h
  split at h
  · cases h
  · next target hdest =>
    split at h
    · cases h
    · next old' hslot =>
      obtain ⟨ho, rfl⟩ := Prod.mk.inj h
      rw [slots_of_node? hdest, hslot, Except.ok.inj ho]
      exact ⟨rfl, rfl⟩

theorem rewired_setSlot {dest : NodeId} {slot : Nat} (hslot : slot < (nl.slots dest).length)
    (content : Option Link) : Rewired nl (nl.setSlot dest slot content) dest slot content where
  written := by rw [slots_setSlot, if_pos rfl, List.getElem?_set_self hslot]
  slots id k hne := by
    rw [slots_setSlot]
    split
    · next hid =>
      have hk : slot ≠ k := fun hk => hne (by rw [hid, hk])
      rw [List.getElem?_set_ne hk]
    · rfl
  kind id := kind?_setSlot ..
  inputs := rfl
  outputs := rfl
  next := next_setSlot ..

theorem kind?_detach (nl : Netlist Gate) {id id' : NodeId} (hne : id' ≠ id) :
    (nl.detach id).kind? id' = nl.kind? id' := by
  rw [kind?, kind?, node?_detach, if_neg hne.symm, Option.map_map]
  rfl

theorem kind?_writeIndex (nl : Netlist Gate) (place : NodeId × Nat) (id : NodeId) :
    (nl.writeIndex place).kind? id =
      if place.1 = id then (nl.kind? id).map (·.withIndex place.2) else nl.kind? id := by
  simp only [kind?, writeIndex, node?_modifyNode]
  split
  · rw [Option.map_map, Option.map_map]
    rfl
  · rfl

/-- Writing indices into pins changes nothing but the indices. -/
theorem exists_kind?_reindex (nl : Netlist Gate) (id : NodeId) :
    ∃ index, nl.reindex.kind? id = (nl.kind? id).map (·.withIndex index) := by
  rw [reindex_eq]
  generalize nl.inputs.zipIdx ++ nl.outputs.zipIdx = places
  induction places generalizing nl with
  | nil =>
    obtain ⟨index, hindex⟩ := NodeKind.exists_map_withIndex (nl.kind? id)
    exact ⟨index, hindex.symm⟩
  | cons place places ih =>
    obtain ⟨index, hindex⟩ := ih (nl.writeIndex place)
    refine ⟨index, hindex.trans ?_⟩
    rw [kind?_writeIndex]
    split
    · rw [Option.map_map]
      exact congrArg (Option.map · _) (funext fun kind => kind.withIndex_withIndex place.2 index)
    · rfl

/-- The netlist without a node, whatever indices are written into its pins. -/
theorem removed_of_alike {id : NodeId} (ha : Alike (nl.without id) nl')
    (hk : ∀ id', ∃ index, nl'.kind? id' = ((nl.without id).kind? id').map (·.withIndex index))
    (hn : nl'.next = nl.next) (hi : nl'.Indexed) : Removed nl nl' id where
  gone := by
    have hrole : nl'.role? id = none := by
      rw [ha.role]
      exact (role?_detach nl id id).trans (if_pos rfl)
    rwa [role?_eq_map, Option.map_eq_none_iff] at hrole
  slots id' hne := by
    rw [ha.slots]
    exact (slots_detach nl id id').trans (if_neg hne.symm)
  kind id' hne := by
    obtain ⟨index, hindex⟩ := hk id'
    exact ⟨index, hindex.trans (congrArg (Option.map _) (kind?_detach nl hne))⟩
  indexed := hi
  inputs := ha.inputs
  outputs := ha.outputs
  next := hn

theorem remove_eq_ok (h : nl.WellFormed) (hi : nl.Indexed) {id : NodeId} {node : Node Gate}
    (hr : nl.remove id = (.ok node, nl')) : nl.node? id = some node ∧ Removed nl nl' id := by
  have hindexed := hi.remove h id
  have hnext := nl.next_remove id
  rw [hr] at hindexed hnext
  cases hn : nl.node? id with
  | none =>
    rw [remove, hn] at hr
    cases hr
  | some found =>
    rcases h.remove_eq hn with he | he
    · obtain ⟨ho, rfl⟩ := Prod.mk.inj (hr.symm.trans he)
      refine ⟨congrArg some (Except.ok.inj ho).symm, removed_of_alike (.refl _) ?_ hnext hindexed⟩
      intro id'
      obtain ⟨index, hindex⟩ := NodeKind.exists_map_withIndex ((nl.without id).kind? id')
      exact ⟨index, hindex.symm⟩
    · obtain ⟨ho, rfl⟩ := Prod.mk.inj (hr.symm.trans he)
      exact ⟨congrArg some (Except.ok.inj ho).symm,
        removed_of_alike (alike_reindex _) (exists_kind?_reindex _) hnext hindexed⟩

/-- A link is refused exactly when an end of it does not exist, a slot is emptied unless it does not
exist, a node is removed unless it is not live, and only input pins are driven and toggled. A
refused edit changes nothing. A link that is set or taken out changes its own slot only, and the
removal of a node only the slots that read it, its boundary list and the indices of pins. -/
theorem Reachable.edits_exact (h : nl.Reachable) :
    (∀ dest slot source output,
      RefusedIff nl (nl.link dest slot source output)
        (nl.isLive source = false ∨
          (∃ node, nl.node? source = some node ∧ node.outputCount ≤ output) ∨
          nl.isLive dest = false ∨ (nl.slots dest).length ≤ slot) ∧
      ∀ old nl', nl.link dest slot source output = (.ok old, nl') →
        (nl.slots dest)[slot]? = some old ∧ Rewired nl nl' dest slot (some ⟨source, output⟩)) ∧
    (∀ dest slot,
      RefusedIff nl (nl.unlink dest slot)
        (nl.isLive dest = false ∨ (nl.slots dest).length ≤ slot) ∧
      ∀ old nl', nl.unlink dest slot = (.ok old, nl') →
        (nl.slots dest)[slot]? = some old ∧ Rewired nl nl' dest slot none) ∧
    (∀ id,
      RefusedIff nl (nl.remove id) (nl.isLive id = false) ∧
      ∀ node nl', nl.remove id = (.ok node, nl') →
        nl.node? id = some node ∧ Removed nl nl' id) ∧
    (∀ id value, RefusedIff nl (nl.drive id value) (nl.inputPin? id = none)) ∧
    ∀ id, RefusedIff nl (nl.toggle id) (nl.inputPin? id = none) := by
  refine ⟨?_, ?_, ?_, refusedIff_drive, fun id => refusedIff_updatePin id not⟩
  · intro dest slot source output
    refine ⟨?_, ?_⟩
    · have hrefused : RefusedIff nl _ _ := refusedIff_link dest slot source output
      rwa [← slot_missing_iff, ← source_missing_iff, or_assoc] at hrefused
    · intro old nl' hl
      obtain ⟨hold, rfl⟩ := link_eq_ok hl
      obtain ⟨hlt, -⟩ := List.getElem?_eq_some_iff.1 hold
      exact ⟨hold, rewired_setSlot hlt _⟩
  · intro dest slot
    refine ⟨?_, ?_⟩
    · have hrefused : RefusedIff nl _ _ := refusedIff_unlink dest slot
      rwa [← slot_missing_iff] at hrefused
    · intro old nl' hl
      obtain ⟨hold, rfl⟩ := unlink_eq_ok hl
      obtain ⟨hlt, -⟩ := List.getElem?_eq_some_iff.1 hold
      exact ⟨hold, rewired_setSlot hlt _⟩
  · intro id
    exact ⟨refusedIff_remove id, fun node nl' hr => remove_eq_ok h.wellFormed h.indexed hr⟩

/-- The `OR` gate is answered with the link to itself, and it has no third slot. -/
theorem edits_exact_latch :
    (∃ e, (latch.link 2 2 0 0).1 = .error e) ∧ (latch.link 2 2 0 0).2 = latch ∧
      ∃ node nl', latch.remove 2 = (.ok node, nl') ∧
        node.slots = [some ⟨0, 0⟩, some ⟨2, 0⟩] ∧ Removed latch nl' 2 := by
  obtain ⟨hlink, -, hremove, -⟩ := reachable_latch.edits_exact
  have hslots : latch.slots 2 = [some ⟨0, 0⟩, some ⟨2, 0⟩] := rfl
  have hlive : latch.isLive 2 = true := rfl
  have hrefused : ∃ e, (latch.link 2 2 0 0).1 = .error e :=
    (hlink 2 2 0 0).1.refused.2 (.inr (.inr (.inr (by simp [hslots]))))
  refine ⟨hrefused, (hlink 2 2 0 0).1.unchanged hrefused, ?_⟩
  cases hr : (latch.remove 2).1 with
  | error e =>
    have hdead := (hremove 2).1.refused.1 ⟨e, hr⟩
    rw [hlive] at hdead
    cases hdead
  | ok node =>
    obtain ⟨hnode, hremoved⟩ := (hremove 2).2 node _ (Prod.ext hr rfl)
    exact ⟨node, _, Prod.ext hr rfl, (slots_of_node? hnode).symm.trans hslots, hremoved⟩

end Netlist

end Breadboard
