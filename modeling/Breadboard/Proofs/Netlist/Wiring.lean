import Breadboard.Proofs.Netlist.WellFormed

namespace Breadboard.Netlist

/-- The links of a list set in their slots, one after another. -/
def setSlots (nl : Netlist Gate) (links : List (NodeId × Nat × Link)) : Netlist Gate :=
  links.foldl (fun nl (dest, slot, link) => nl.setSlot dest slot (some link)) nl

/-- The output and the slot that a link connects exist. -/
def Linkable (nl : Netlist Gate) (place : NodeId × Nat × Link) : Prop :=
  (∃ r, nl.role? place.2.2.node = some r ∧ place.2.2.output < r.outputCount) ∧
    place.2.1 < (nl.slots place.1).length

variable {nl : Netlist Gate} {links : List (NodeId × Nat × Link)}

@[simp] theorem length_slots_setSlot (nl : Netlist Gate) (dest : NodeId) (slot : Nat)
    (link : Option Link) (id : NodeId) :
    ((nl.setSlot dest slot link).slots id).length = (nl.slots id).length := by
  rw [slots_setSlot]
  split <;> simp

@[simp] theorem kind?_setSlot (nl : Netlist Gate) (dest : NodeId) (slot : Nat)
    (link : Option Link) (id : NodeId) : (nl.setSlot dest slot link).kind? id = nl.kind? id := by
  rw [kind?, setSlot, node?_modifyNode, kind?]
  split
  · rw [Option.map_map]
    rfl
  · rfl

@[simp] theorem kind?_setSlots (nl : Netlist Gate) (links : List (NodeId × Nat × Link))
    (id : NodeId) : (nl.setSlots links).kind? id = nl.kind? id := by
  induction links generalizing nl with
  | nil => rfl
  | cons place links ih => exact (ih _).trans (kind?_setSlot ..)

@[simp] theorem role?_setSlots (nl : Netlist Gate) (links : List (NodeId × Nat × Link))
    (id : NodeId) : (nl.setSlots links).role? id = nl.role? id := by
  rw [role?, kind?_setSlots]
  rfl

/-- A node that no link of a list goes to stays as it is. -/
theorem node?_setSlots (nl : Netlist Gate) {id : NodeId} (h : ∀ place ∈ links, place.1 ≠ id) :
    (nl.setSlots links).node? id = nl.node? id := by
  induction links generalizing nl with
  | nil => rfl
  | cons place links ih =>
    obtain ⟨hne, h⟩ := List.forall_mem_cons.1 h
    exact (ih _ h).trans ((node?_modifyNode ..).trans (if_neg hne))

@[simp] theorem length_slots_setSlots (nl : Netlist Gate) (links : List (NodeId × Nat × Link))
    (id : NodeId) : ((nl.setSlots links).slots id).length = (nl.slots id).length := by
  induction links generalizing nl with
  | nil => rfl
  | cons place links ih => exact (ih _).trans (length_slots_setSlot ..)

@[simp] theorem inputs_setSlots (nl : Netlist Gate) (links : List (NodeId × Nat × Link)) :
    (nl.setSlots links).inputs = nl.inputs := by
  induction links generalizing nl with
  | nil => rfl
  | cons place links ih => exact ih _

@[simp] theorem outputs_setSlots (nl : Netlist Gate) (links : List (NodeId × Nat × Link)) :
    (nl.setSlots links).outputs = nl.outputs := by
  induction links generalizing nl with
  | nil => rfl
  | cons place links ih => exact ih _

@[simp] theorem next_setSlots (nl : Netlist Gate) (links : List (NodeId × Nat × Link)) :
    (nl.setSlots links).next = nl.next := by
  induction links generalizing nl with
  | nil => rfl
  | cons place links ih => exact (ih _).trans (next_modifyNode ..)

@[simp] theorem gates_setSlots (nl : Netlist Gate) (links : List (NodeId × Nat × Link)) :
    (nl.setSlots links).gates = nl.gates := by
  simp only [gates, next_setSlots, gate?, kind?_setSlots]

theorem link_of_linkable {dest : NodeId} {slot : Nat} {link : Link}
    (h : nl.Linkable (dest, slot, link)) :
    ∃ old, nl.link dest slot link.node link.output =
      (.ok old, nl.setSlot dest slot (some link)) := by
  obtain ⟨⟨r, hr, ho⟩, hs⟩ := h
  dsimp only at hr ho hs
  rw [role?_eq_map] at hr
  obtain ⟨node, hn, rfl⟩ := Option.map_eq_some_iff.1 hr
  rw [← node.outputCount_eq] at ho
  have htarget : ∃ target, nl.node? dest = some target := by
    cases hd : nl.node? dest with
    | none => simp [slots, hd] at hs
    | some target => exact ⟨target, rfl⟩
  obtain ⟨target, ht⟩ := htarget
  simp only [slots, ht, Option.map_some, Option.getD_some] at hs
  refine ⟨target.slots[slot], ?_⟩
  simp only [Netlist.link, hn, if_neg (Nat.not_le.2 ho), ht, List.getElem?_eq_getElem hs]

/-- Only links that fit are not refused. -/
theorem linkable_of_link {dest : NodeId} {slot : Nat} {link : Link} {old : Option Link}
    {nl' : Netlist Gate} (h : nl.link dest slot link.node link.output = (.ok old, nl')) :
    nl.Linkable (dest, slot, link) := by
  unfold Netlist.link at h
  cases hn : nl.node? link.node with
  | none => simp [hn] at h
  | some node =>
    by_cases ho : node.outputCount ≤ link.output
    · simp [hn, ho] at h
    · cases ht : nl.node? dest with
      | none => simp [hn, ho, ht] at h
      | some target =>
        cases hs : target.slots[slot]? with
        | none => simp [hn, ho, ht, hs] at h
        | some old =>
          refine ⟨⟨node.kind.role, ?_, node.outputCount_eq ▸ Nat.not_le.1 ho⟩, ?_⟩
          · rw [role?_eq_map, hn, Option.map_some]
          · simpa only [slots, ht, Option.map_some, Option.getD_some] using
              (List.getElem?_eq_some_iff.1 hs).1

/-- Whether a link fits does not depend on the others that are made. -/
@[simp] theorem linkable_setSlot_iff {place : NodeId × Nat × Link} (dest : NodeId) (slot : Nat)
    (link : Option Link) : (nl.setSlot dest slot link).Linkable place ↔ nl.Linkable place := by
  simp only [Linkable, role?_setSlot, length_slots_setSlot]

theorem linkAll_of_linkable (h : ∀ place ∈ links, nl.Linkable place) :
    nl.linkAll links = (.ok (), nl.setSlots links) := by
  induction links generalizing nl with
  | nil => rfl
  | cons place links ih =>
    obtain ⟨dest, slot, link⟩ := place
    obtain ⟨old, hl⟩ := link_of_linkable (h _ List.mem_cons_self)
    rw [linkAll, hl]
    exact ih fun place hp => (linkable_setSlot_iff ..).2 (h place (List.mem_cons_of_mem _ hp))

/-- A slot that no link of a list goes to holds what it held before. -/
theorem getElem?_slots_setSlots_of_notMem {dest : NodeId} {slot : Nat}
    (h : ∀ link, (dest, slot, link) ∉ links) :
    ((nl.setSlots links).slots dest)[slot]? = (nl.slots dest)[slot]? := by
  induction links generalizing nl with
  | nil => rfl
  | cons place links ih =>
    obtain ⟨dest', slot', link'⟩ := place
    refine (ih fun link hl => h link (List.mem_cons_of_mem _ hl)).trans ?_
    rw [slots_setSlot]
    split
    · next he =>
      have hne : slot' ≠ slot := fun hslot => h link' (List.mem_cons.2 (.inl (by rw [he, hslot])))
      exact List.getElem?_set_ne hne
    · rfl

/-- A link that no later one replaces stays in its slot. -/
theorem getElem?_slots_setSlots_cons {dest : NodeId} {slot : Nat} {link : Link}
    (hs : slot < (nl.slots dest).length) (h : ∀ link', (dest, slot, link') ∉ links) :
    ((nl.setSlots ((dest, slot, link) :: links)).slots dest)[slot]? = some (some link) := by
  refine (getElem?_slots_setSlots_of_notMem h).trans ?_
  rw [slots_setSlot, if_pos rfl, List.getElem?_set_self hs]

/-- When a list has one link at most for a slot, the slot holds the link that the list has. -/
theorem getElem?_slots_setSlots {dest : NodeId} {slot : Nat} {link : Link}
    (hu : ∀ link link', (dest, slot, link) ∈ links → (dest, slot, link') ∈ links → link = link')
    (hs : slot < (nl.slots dest).length) (hl : (dest, slot, link) ∈ links) :
    ((nl.setSlots links).slots dest)[slot]? = some (some link) := by
  induction links generalizing nl with
  | nil => cases hl
  | cons place links ih =>
    by_cases hlater : ∃ link', (dest, slot, link') ∈ links
    · obtain ⟨link', hl'⟩ := hlater
      obtain rfl := hu _ _ hl (List.mem_cons_of_mem _ hl')
      refine ih (fun l l' h h' => ?_) (by rwa [length_slots_setSlot]) hl'
      exact hu l l' (List.mem_cons_of_mem _ h) (List.mem_cons_of_mem _ h')
    · have hlater := not_exists.1 hlater
      obtain rfl := (List.mem_cons.1 hl).resolve_right (hlater link)
      exact getElem?_slots_setSlots_cons hs hlater

/-- Empty slots hold the links of a list when this has the same links for them. -/
theorem slots_setSlots {dest : NodeId} {slots : List (Option Link)}
    (hl : (nl.slots dest).length = slots.length) (hempty : ∀ slot ∈ nl.slots dest, slot = none)
    (hm : ∀ (slot : Nat) link, (dest, slot, link) ∈ links ↔ slots[slot]? = some (some link)) :
    (nl.setSlots links).slots dest = slots := by
  apply List.ext_getElem?
  intro slot
  by_cases hs : slot < (nl.slots dest).length
  · have hu (link link' : Link) (h : (dest, slot, link) ∈ links)
        (h' : (dest, slot, link') ∈ links) : link = link' := by
      rw [hm] at h h'
      exact Option.some.inj (Option.some.inj (h.symm.trans h'))
    have hget := List.getElem?_eq_getElem (hl ▸ hs)
    cases hheld : slots[slot] with
    | some link =>
      rw [hheld] at hget
      rw [getElem?_slots_setSlots hu hs ((hm slot link).2 hget), hget]
    | none =>
      rw [hheld] at hget
      rw [getElem?_slots_setSlots_of_notMem, hget, List.getElem?_eq_getElem hs,
        hempty _ (List.getElem_mem hs)]
      intro link h
      rw [hm, hget] at h
      cases h
  · rw [List.getElem?_eq_none (by simpa using hs), List.getElem?_eq_none (by omega)]

end Breadboard.Netlist
