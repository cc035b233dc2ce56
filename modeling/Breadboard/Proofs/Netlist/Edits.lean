import Breadboard.Proofs.Netlist.Copying

namespace Breadboard

/-- An editing operation with its arguments. -/
inductive Edit where
  | place (g : Gate)
  | addInput (name : String)
  | addOutput (name : String)
  | link (dest : NodeId) (slot : Nat) (source : NodeId) (output : Nat)
  | unlink (dest : NodeId) (slot : Nat)
  | remove (id : NodeId)
  | drive (id : NodeId) (value : Bool)
  | toggle (id : NodeId)
  | duplicate (ids : List NodeId) (withPins : Bool)

namespace Netlist

/-- The netlist that an edit leaves behind, also when it is refused. -/
def edit (nl : Netlist Gate) : Edit → Netlist Gate
  | .place g => (nl.place g).2
  | .addInput name => (nl.addInput name).2
  | .addOutput name => (nl.addOutput name).2
  | .link dest slot source output => (nl.link dest slot source output).2
  | .unlink dest slot => (nl.unlink dest slot).2
  | .remove id => (nl.remove id).2
  | .drive id value => (nl.drive id value).2
  | .toggle id => (nl.toggle id).2
  | .duplicate ids withPins => (nl.duplicate ids withPins).2

def edits (nl : Netlist Gate) (es : List Edit) : Netlist Gate := es.foldl edit nl

/-- The handles that an edit answers for the nodes it made. -/
def created (nl : Netlist Gate) : Edit → List NodeId
  | .place g => [(nl.place g).1]
  | .addInput name => [(nl.addInput name).1]
  | .addOutput name => [(nl.addOutput name).1]
  | .duplicate ids withPins =>
    match (nl.duplicate ids withPins).1 with
    | .ok copies => copies.entries.map (·.2)
    | .error _ => []
  | _ => []

theorem edits_append (nl : Netlist Gate) (es es' : List Edit) :
    nl.edits (es ++ es') = (nl.edits es).edits es' := List.foldl_append

variable {nl nl' nl'' : Netlist Gate} {ids : List NodeId} {copies : Copies}

theorem Reachable.edit (h : nl.Reachable) (e : Edit) : (nl.edit e).Reachable := by
  cases e with
  | place g => exact h.place g
  | addInput name => exact h.addInput name
  | addOutput name => exact h.addOutput name
  | link dest slot source output => exact h.link dest slot source output
  | unlink dest slot => exact h.unlink dest slot
  | remove id => exact h.remove id
  | drive id value => exact h.drive id value
  | toggle id => exact h.toggle id
  | duplicate ids withPins => exact h.duplicate ids withPins

theorem WellFormed.edit (h : nl.WellFormed) (e : Edit) : (nl.edit e).WellFormed := by
  cases e with
  | place g => exact h.insert List.length_replicate fun _ hm => List.eq_of_mem_replicate hm
  | addInput name => exact h.insert rfl (List.forall_mem_nil _)
  | addOutput name => exact h.insert rfl (List.forall_mem_singleton.2 rfl)
  | link dest slot source output => exact h.link dest slot source output
  | unlink dest slot => exact h.unlink dest slot
  | remove id => exact h.remove id
  | drive id value => exact h.alike (alike_drive nl id value)
  | toggle id => exact h.alike (alike_updatePin nl id not)
  | duplicate ids withPins => exact h.duplicate ids withPins

theorem Reachable.edits (h : nl.Reachable) (es : List Edit) : (nl.edits es).Reachable := by
  induction es generalizing nl with
  | nil => exact h
  | cons e es ih => exact ih (h.edit e)

@[simp] theorem next_setSlot (nl : Netlist Gate) (dest : NodeId) (slot : Nat)
    (link : Option Link) : (nl.setSlot dest slot link).next = nl.next := next_modifyNode ..

@[simp] theorem next_reindex (nl : Netlist Gate) : nl.reindex.next = nl.next := by
  unfold reindex
  generalize nl.inputs.zipIdx ++ nl.outputs.zipIdx = places
  induction places generalizing nl with
  | nil => rfl
  | cons place places ih => exact (ih _).trans (next_modifyNode ..)

/-- A link is refused, or set in its slot. -/
theorem link_cases (nl : Netlist Gate) (dest : NodeId) (slot : Nat) (source : NodeId)
    (output : Nat) :
    (nl.link dest slot source output).2 = nl ∨
      (nl.link dest slot source output).2 = nl.setSlot dest slot (some ⟨source, output⟩) := by
  unfold link
  repeat' split
  all_goals simp

theorem unlink_cases (nl : Netlist Gate) (dest : NodeId) (slot : Nat) :
    (nl.unlink dest slot).2 = nl ∨ (nl.unlink dest slot).2 = nl.setSlot dest slot none := by
  unfold unlink
  repeat' split
  all_goals simp

@[simp] theorem role?_link (nl : Netlist Gate) (dest : NodeId) (slot : Nat) (source : NodeId)
    (output : Nat) (id : NodeId) :
    (nl.link dest slot source output).2.role? id = nl.role? id := by
  rcases nl.link_cases dest slot source output with h | h <;> simp [h]

@[simp] theorem next_link (nl : Netlist Gate) (dest : NodeId) (slot : Nat) (source : NodeId)
    (output : Nat) : (nl.link dest slot source output).2.next = nl.next := by
  rcases nl.link_cases dest slot source output with h | h <;> simp [h]

theorem slots_link_of_ne (nl : Netlist Gate) {dest id : NodeId} (hne : dest ≠ id) (slot : Nat)
    (source : NodeId) (output : Nat) :
    (nl.link dest slot source output).2.slots id = nl.slots id := by
  rcases nl.link_cases dest slot source output with h | h <;> simp [h, slots_setSlot, hne]

@[simp] theorem role?_unlink (nl : Netlist Gate) (dest : NodeId) (slot : Nat) (id : NodeId) :
    (nl.unlink dest slot).2.role? id = nl.role? id := by
  rcases nl.unlink_cases dest slot with h | h <;> simp [h]

@[simp] theorem next_unlink (nl : Netlist Gate) (dest : NodeId) (slot : Nat) :
    (nl.unlink dest slot).2.next = nl.next := by
  rcases nl.unlink_cases dest slot with h | h <;> simp [h]

theorem slots_unlink_of_ne (nl : Netlist Gate) {dest id : NodeId} (hne : dest ≠ id) (slot : Nat) :
    (nl.unlink dest slot).2.slots id = nl.slots id := by
  rcases nl.unlink_cases dest slot with h | h <;> simp [h, slots_setSlot, hne]

@[simp] theorem next_updatePin (nl : Netlist Gate) (id : NodeId) (f : Bool → Bool) :
    (nl.updatePin id f).2.next = nl.next := by
  unfold updatePin
  split <;> simp

@[simp] theorem next_drive (nl : Netlist Gate) (id : NodeId) (value : Bool) :
    (nl.drive id value).2.next = nl.next := next_updatePin nl id fun _ => value

/-- Removal is refused, or the netlist without the node, up to the data of pins and the boundary
lists. -/
theorem remove_cases (nl : Netlist Gate) (id : NodeId) :
    (nl.role? id = none ∧ (nl.remove id).2 = nl) ∨
      ∃ inputs outputs, Alike { nl.detach id with inputs, outputs } (nl.remove id).2 ∧
        (nl.remove id).2.next = nl.next := by
  unfold remove
  split
  · next hn => exact .inl ⟨by simp [role?_eq_map, hn], rfl⟩
  · right
    split
    · exact ⟨nl.inputs, nl.outputs, .refl _, next_detach nl id⟩
    · exact ⟨_, nl.outputs, alike_reindex _, (next_reindex _).trans (next_detach nl id)⟩
    · exact ⟨nl.inputs, _, alike_reindex _, (next_reindex _).trans (next_detach nl id)⟩

theorem role?_remove (nl : Netlist Gate) (id id' : NodeId) :
    (nl.remove id).2.role? id' = if id = id' then none else nl.role? id' := by
  rcases nl.remove_cases id with ⟨hr, he⟩ | ⟨inputs, outputs, ha, _⟩
  · rw [he]
    split
    · next hid => rw [← hid, hr]
    · rfl
  · rw [ha.role]
    exact role?_detach nl id id'

theorem slots_remove (nl : Netlist Gate) {id id' : NodeId} (hne : id ≠ id')
    (hr : ∀ link, some link ∈ nl.slots id' → link.node ≠ id) :
    (nl.remove id).2.slots id' = nl.slots id' := by
  rcases nl.remove_cases id with ⟨_, he⟩ | ⟨inputs, outputs, ha, _⟩
  · rw [he]
  · rw [ha.slots]
    refine (slots_detach nl id id').trans ?_
    rw [if_neg hne]
    refine (List.map_congr_left ?_).trans (List.map_id _)
    intro slot hs
    cases slot with
    | none => rfl
    | some link => simpa using hr link hs

@[simp] theorem next_remove (nl : Netlist Gate) (id : NodeId) :
    (nl.remove id).2.next = nl.next := by
  rcases nl.remove_cases id with ⟨_, he⟩ | ⟨_, _, _, hn⟩
  · rw [he]
  · exact hn

@[simp] theorem role?_linkAll (nl : Netlist Gate) (links : List (NodeId × Nat × Link))
    (id : NodeId) : (nl.linkAll links).2.role? id = nl.role? id :=
  linkAll_induction (P := fun nl' => nl'.role? id = nl.role? id) rfl fun _ h _ _ _ _ =>
    (role?_link ..).trans h

@[simp] theorem next_linkAll (nl : Netlist Gate) (links : List (NodeId × Nat × Link)) :
    (nl.linkAll links).2.next = nl.next :=
  linkAll_induction (P := fun nl' => nl'.next = nl.next) rfl fun _ h _ _ _ _ =>
    (next_link ..).trans h

theorem slots_linkAll (nl : Netlist Gate) {links : List (NodeId × Nat × Link)} {id : NodeId}
    (h : ∀ place ∈ links, place.1 ≠ id) : (nl.linkAll links).2.slots id = nl.slots id :=
  linkAll_induction (P := fun nl' => nl'.slots id = nl.slots id) rfl
    fun _ hs _ slot link hm => (slots_link_of_ne _ (h _ hm) slot link.node link.output).trans hs

/-- A duplication is refused at once, or it adds copies and links these. -/
theorem duplicate_cases (nl : Netlist Gate) (ids : List NodeId) (withPins : Bool) :
    ((∃ e, (nl.duplicate ids withPins).1 = .error e) ∧ (nl.duplicate ids withPins).2 = nl) ∨
      ∃ set copies grown links, set.Nodup ∧ nl.Copied nl set copies grown ∧
        (∀ place ∈ links, nl.next ≤ place.1) ∧
        nl.duplicate ids withPins =
          ((grown.linkAll links).1.map fun _ => copies, (grown.linkAll links).2) := by
  unfold duplicate
  split
  · next e _ => exact .inl ⟨⟨e, rfl⟩, rfl⟩
  · next set hs =>
    right
    have hc := copied_copySet hs nl
    refine ⟨set, _, _, _, nodup_copySet hs, hc, ?_, rfl⟩
    intro place hm
    obtain ⟨⟨id, slot, link⟩, _, hm⟩ := List.mem_filterMap.1 hm
    dsimp only at hm
    split at hm
    · obtain ⟨copy, hcopy, rfl⟩ := Option.map_eq_some_iff.1 hm
      obtain ⟨_, rfl⟩ := hc.get?_eq_some.1 hcopy
      exact next_le_copyPlace ..
    · cases hm

theorem role?_duplicate (nl : Netlist Gate) (ids : List NodeId) (withPins : Bool) {id : NodeId}
    (hid : id < nl.next) : (nl.duplicate ids withPins).2.role? id = nl.role? id := by
  rcases nl.duplicate_cases ids withPins with ⟨_, he⟩ | ⟨_, _, _, _, _, hc, _, he⟩
  · rw [he]
  · rw [he, role?_linkAll, hc.role?_of_lt hid]

theorem slots_duplicate (nl : Netlist Gate) (ids : List NodeId) (withPins : Bool) {id : NodeId}
    (hid : id < nl.next) : (nl.duplicate ids withPins).2.slots id = nl.slots id := by
  rcases nl.duplicate_cases ids withPins with ⟨_, he⟩ | ⟨_, _, _, _, _, hc, hl, he⟩
  · rw [he]
  · rw [he, slots_linkAll, hc.slots_of_lt hid]
    intro place hm hp
    exact absurd (hp ▸ hl place hm) (Nat.not_le.2 hid)

theorem next_le_duplicate (nl : Netlist Gate) (ids : List NodeId) (withPins : Bool) :
    nl.next ≤ (nl.duplicate ids withPins).2.next := by
  rcases nl.duplicate_cases ids withPins with ⟨_, he⟩ | ⟨_, _, _, _, _, hc, _, he⟩
  · exact Nat.le_of_eq (congrArg next he).symm
  · rw [he, next_linkAll, hc.next]
    exact Nat.le_add_right ..

/-- A later netlist: no handle is taken back, and an earlier node has its role still or is gone. -/
structure Later (nl nl' : Netlist Gate) : Prop where
  next_le : nl.next ≤ nl'.next
  role : ∀ id < nl.next, nl'.role? id = nl.role? id ∨ nl'.role? id = none

theorem Later.refl (nl : Netlist Gate) : Later nl nl := ⟨Nat.le_refl _, fun _ _ => .inl rfl⟩

theorem Later.trans (h : Later nl nl') (h' : Later nl' nl'') : Later nl nl'' where
  next_le := Nat.le_trans h.next_le h'.next_le
  role id hid := by
    rcases h'.role id (Nat.lt_of_lt_of_le hid h.next_le) with he | he
    · rw [he]
      exact h.role id hid
    · exact .inr he

/-- A handle that has been used and is not live stays so. -/
theorem Later.role?_eq_none (h : Later nl nl') {id : NodeId} (hid : id < nl.next)
    (hr : nl.role? id = none) : nl'.role? id = none := by
  rcases h.role id hid with he | he
  · rw [he, hr]
  · exact he

theorem later_insert (nl : Netlist Gate) (node : Node Gate) : Later nl (nl.insert node).2 where
  next_le := by simp
  role id hid := by rw [role?_insert, if_neg (Nat.ne_of_lt hid)]; exact .inl rfl

theorem Alike.later (h : Alike nl nl') (hn : nl'.next = nl.next) : Later nl nl' :=
  ⟨Nat.le_of_eq hn.symm, fun id _ => .inl (h.role id)⟩

theorem later_edit (nl : Netlist Gate) (e : Edit) : Later nl (nl.edit e) := by
  cases e with
  | place g => exact later_insert nl _
  | addInput name => exact later_insert nl _
  | addOutput name => exact later_insert nl _
  | link dest slot source output =>
    exact ⟨Nat.le_of_eq (next_link ..).symm, fun id _ => .inl (role?_link ..)⟩
  | unlink dest slot =>
    exact ⟨Nat.le_of_eq (next_unlink ..).symm, fun id _ => .inl (role?_unlink ..)⟩
  | remove id =>
    refine ⟨Nat.le_of_eq (next_remove ..).symm, fun id' _ => ?_⟩
    rw [edit, role?_remove]
    split <;> simp
  | drive id value => exact (alike_drive nl id value).later (next_drive ..)
  | toggle id => exact (alike_updatePin nl id not).later (next_updatePin ..)
  | duplicate ids withPins =>
    exact ⟨next_le_duplicate .., fun id hid => .inl (role?_duplicate nl ids withPins hid)⟩

theorem later_edits (nl : Netlist Gate) (es : List Edit) : Later nl (nl.edits es) := by
  induction es generalizing nl with
  | nil => exact .refl nl
  | cons e es ih => exact (later_edit nl e).trans (ih _)

/-- What an edit answers are distinct handles of live nodes, none of them used before. -/
theorem created_fresh (nl : Netlist Gate) (e : Edit) :
    (nl.created e).Nodup ∧
      ∀ id ∈ nl.created e, nl.next ≤ id ∧ (nl.edit e).isLive id = true := by
  have hinsert (node : Node Gate) : [(nl.insert node).1].Nodup ∧
      ∀ id ∈ [(nl.insert node).1], nl.next ≤ id ∧ (nl.insert node).2.isLive id = true := by
    simp [isLive_eq_isSome_role?, role?_insert]
  cases e with
  | place g => exact hinsert _
  | addInput name => exact hinsert _
  | addOutput name => exact hinsert _
  | duplicate ids withPins =>
    simp only [created, edit]
    rcases nl.duplicate_cases ids withPins with
      ⟨⟨e, hans⟩, _⟩ | ⟨set, copies, grown, links, hn, hc, _, he⟩
    · simp [hans]
    · rw [he]
      cases (grown.linkAll links).1 with
      | error e => exact ⟨List.nodup_nil, nofun⟩
      | ok _ =>
        change (copies.entries.map (·.2)).Nodup ∧ ∀ id ∈ copies.entries.map (·.2), _
        rw [hc.places_eq]
        constructor
        · refine (List.nodup_reverse.2 hn).map_on fun a ha b hb hab => ?_
          exact eq_of_copyPlace_eq (List.mem_reverse.1 ha) (List.mem_reverse.1 hb) hab
        · intro id hm
          obtain ⟨original, ho, rfl⟩ := List.mem_map.1 hm
          obtain ⟨node, index, _, hcopy⟩ := hc.copy original (List.mem_reverse.1 ho)
          refine ⟨next_le_copyPlace .., ?_⟩
          rw [isLive_eq_isSome_role?, role?_linkAll, ← isLive_eq_isSome_role?]
          exact isLive_iff.2 ⟨_, hcopy⟩
  | _ => exact ⟨List.nodup_nil, nofun⟩

/-- Every placed gate has a property. -/
def MadeOf (P : Gate → Prop) (nl : Netlist Gate) : Prop :=
  ∀ id g, nl.role? id = some (.gate g) → P g

theorem MadeOf.edit {P : Gate → Prop} (h : nl.MadeOf P) {e : Edit}
    (hp : ∀ g, e = .place g → P g) : (nl.edit e).MadeOf P := by
  intro id g hr
  have hinsert {node : Node Gate} (hn : ∀ g, node.kind.role = .gate g → P g)
      (hr : (nl.insert node).2.role? id = some (.gate g)) : P g := by
    rw [role?_insert] at hr
    split at hr
    · exact hn g (Option.some.inj hr)
    · exact h _ _ hr
  cases e with
  | place g' =>
    refine hinsert ?_ hr
    intro g'' hg
    injection hg with hg
    exact hg ▸ hp g' rfl
  | addInput name => exact hinsert (by simp [NodeKind.role]) hr
  | addOutput name => exact hinsert (by simp [NodeKind.role]) hr
  | link dest slot source output => exact h _ _ ((role?_link ..).symm.trans hr)
  | unlink dest slot => exact h _ _ ((role?_unlink ..).symm.trans hr)
  | remove id' =>
    rw [Netlist.edit, role?_remove] at hr
    split at hr
    · cases hr
    · exact h _ _ hr
  | drive id' value => exact h _ _ (((alike_drive nl id' value).role id).symm.trans hr)
  | toggle id' => exact h _ _ (((alike_updatePin nl id' not).role id).symm.trans hr)
  | duplicate ids withPins =>
    rw [Netlist.edit] at hr
    rcases nl.duplicate_cases ids withPins with ⟨_, he⟩ | ⟨_, _, _, _, hn, hc, _, he⟩
    · rw [he] at hr
      exact h _ _ hr
    · rw [he, role?_linkAll] at hr
      rcases Nat.lt_or_ge id nl.next with hid | hid
      · exact h _ _ ((hc.role?_of_lt hid).symm.trans hr)
      · obtain ⟨original, ho, rfl⟩ := hc.exists_original hn hid (lt_next_of_role? hr)
        exact h _ _ ((hc.role ho).symm.trans hr)

theorem MadeOf.extract {P : Gate → Prop} (h : nl.MadeOf P) {part : Netlist Gate}
    (he : nl.extract ids = .ok (part, copies)) : part.MadeOf P := by
  intro id g hr
  unfold Netlist.extract at he
  split at he
  · cases he
  · next set hs =>
    dsimp only at he
    split at he
    · cases he
    · next hl =>
      obtain ⟨rfl, _⟩ := Prod.mk.inj (Except.ok.inj he)
      have hrole := congrArg (·.2.role? id) hl
      simp only [role?_linkAll] at hrole
      rw [← hrole] at hr
      have hc := copied_copySet hs ∅
      obtain ⟨original, ho, rfl⟩ :=
        hc.exists_original (nodup_copySet hs) (Nat.zero_le id) (lt_next_of_role? hr)
      exact h original g ((hc.role ho).symm.trans hr)

theorem madeOf_empty (P : Gate → Prop) : (∅ : Netlist Gate).MadeOf P := by
  intro id g hr
  simp at hr

theorem MadeOf.edits {P : Gate → Prop} (h : nl.MadeOf P) {es : List Edit}
    (hp : ∀ g, .place g ∈ es → P g) : (nl.edits es).MadeOf P := by
  induction es generalizing nl with
  | nil => exact h
  | cons e es ih =>
    refine ih (h.edit ?_) fun g hg => hp g (List.mem_cons_of_mem _ hg)
    intro g he
    exact hp g (List.mem_cons.2 (.inl he.symm))

end Netlist

end Breadboard
