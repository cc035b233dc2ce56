import Breadboard.Proofs.Netlist.Wiring

namespace Breadboard.Netlist

variable {nl : Netlist Gate} {entries : List (Role × String)}

/-- What a node is, without its links and the data of a pin other than its name. -/
def traits? (nl : Netlist Gate) (id : NodeId) : Option (Role × String) :=
  (nl.node? id).map fun node => (node.kind.role, node.name)

theorem role?_eq_traits? (nl : Netlist Gate) (id : NodeId) :
    nl.role? id = (nl.traits? id).map (·.1) := by
  rw [role?_eq_map, traits?, Option.map_map]
  rfl

theorem name_eq_traits? (nl : Netlist Gate) (id : NodeId) :
    (nl.node? id).map (·.name) = (nl.traits? id).map (·.2) := by
  rw [traits?, Option.map_map]
  rfl

theorem traits?_insert (nl : Netlist Gate) (node : Node Gate) (id : NodeId) :
    (nl.insert node).2.traits? id =
      if id = nl.next then some (node.kind.role, node.name) else nl.traits? id := by
  obtain ⟨kind, slots⟩ := node
  unfold traits?
  rw [node?_insert]
  split
  · cases kind <;> rfl
  · rfl

@[simp] theorem traits?_setSlots (nl : Netlist Gate) (links : List (NodeId × Nat × Link))
    (id : NodeId) : (nl.setSlots links).traits? id = nl.traits? id := by
  induction links generalizing nl with
  | nil => rfl
  | cons place links ih =>
    refine (ih _).trans ?_
    unfold traits? setSlot
    rw [node?_modifyNode]
    split
    · cases nl.node? id <;> rfl
    · rfl

/-- The nodes of a list, not linked to each other, and nothing else. -/
structure Laid (nl : Netlist Gate) (entries : List (Role × String)) : Prop where
  wellFormed : nl.WellFormed
  next : nl.next = entries.length
  traits : ∀ id, nl.traits? id = entries[id]?
  unlinked : ∀ id, ∀ slot ∈ nl.slots id, slot = none

namespace Laid

/-- A part of the list is what its nodes are, in order. -/
theorem map_traits? {before part after : List (Role × String)}
    (h : nl.Laid (before ++ part ++ after)) :
    (List.range' before.length part.length).map nl.traits? = part.map some := by
  apply List.ext_getElem
  · rw [List.length_map, List.length_map, List.length_range']
  · intro i hi _
    rw [List.length_map, List.length_range'] at hi
    rw [List.getElem_map, List.getElem_map, List.getElem_range', Nat.one_mul, h.traits,
      List.append_assoc, List.getElem?_append_right (Nat.le_add_right ..), Nat.add_sub_cancel_left,
      List.getElem?_append_left hi, List.getElem?_eq_getElem hi]

/-- When inputs are listed first, then outputs and then gates, a handle tells which it is. -/
theorem role?_eq {ins outs : List String} {gates : List Gate}
    (h : nl.Laid (ins.map (.input, ·) ++ outs.map (.output, ·) ++
      gates.map fun g => (.gate g, g.name))) (id : Nat) :
    nl.role? id =
      if id < ins.length then some .input
      else if id < ins.length + outs.length then some .output
      else gates[id - (ins.length + outs.length)]?.map .gate := by
  rw [role?_eq_traits?, h.traits]
  split
  · next hin =>
    rw [List.append_assoc, List.getElem?_append_left (by simpa using hin), List.getElem?_map,
      List.getElem?_eq_getElem hin]
    rfl
  · next hin =>
    split
    · next hout =>
      rw [List.getElem?_append_left (by simpa using hout),
        List.getElem?_append_right (by simpa using hin), List.getElem?_map, List.length_map,
        List.getElem?_eq_getElem (by omega)]
      rfl
    · next hout =>
      rw [List.getElem?_append_right (by simpa using hout), List.length_append, List.length_map,
        List.length_map, List.getElem?_map, Option.map_map]
      rfl

theorem empty : Laid ∅ [] := ⟨.empty, rfl, fun _ => rfl, fun _ => by simp⟩

theorem insert (h : nl.Laid entries) {node : Node Gate}
    (hc : node.slots.length = node.kind.role.slotCount) (hs : ∀ slot ∈ node.slots, slot = none) :
    (nl.insert node).2.Laid (entries ++ [(node.kind.role, node.name)]) where
  wellFormed := h.wellFormed.insert hc hs
  next := by rw [next_insert, h.next, List.length_append, List.length_singleton]
  traits id := by
    rw [traits?_insert, h.next, h.traits]
    split
    · next hid => rw [hid, List.getElem?_concat_length]
    · next hid =>
      rw [List.getElem?_append]
      split
      · rfl
      · next hlt =>
        have hbeyond : entries.length < id :=
          Nat.lt_of_le_of_ne (Nat.le_of_not_lt hlt) fun he => hid he.symm
        rw [List.getElem?_eq_none (Nat.le_of_lt hbeyond), List.getElem?_eq_none]
        exact Nat.sub_pos_of_lt hbeyond
  unlinked id slot hm := by
    rw [slots_insert] at hm
    split at hm
    · exact hs slot hm
    · exact h.unlinked id slot hm

/-- Nodes that are added one after another get the next handles. -/
theorem addEach {α : Type} {add : Netlist Gate → α → NodeId × Netlist Gate}
    {entry : α → Role × String}
    (hadd : ∀ {nl entries} a, nl.Laid entries →
      (add nl a).1 = nl.next ∧ (add nl a).2.Laid (entries ++ [entry a]))
    (h : nl.Laid entries) (as : List α) :
    (Netlist.addEach add nl as).1 = List.range' entries.length as.length ∧
      (Netlist.addEach add nl as).2.Laid (entries ++ as.map entry) := by
  induction as generalizing nl entries with
  | nil =>
    rw [List.map_nil, List.append_nil]
    exact ⟨rfl, h⟩
  | cons a as ih =>
    obtain ⟨hid, ha⟩ := hadd a h
    obtain ⟨hids, has⟩ := ih ha
    constructor
    · change (add nl a).1 :: (Netlist.addEach add (add nl a).2 as).1 = _
      rw [hid, h.next, hids, List.length_append, List.length_singleton, List.length_cons,
        List.range'_succ]
    · rw [List.append_assoc] at has
      exact has

theorem place (h : nl.Laid entries) (g : Gate) :
    (nl.place g).1 = nl.next ∧ (nl.place g).2.Laid (entries ++ [(.gate g, g.name)]) :=
  ⟨insert_fst .., h.insert List.length_replicate fun _ hm => List.eq_of_mem_replicate hm⟩

theorem addInput (h : nl.Laid entries) (name : String) :
    (nl.addInput name).1 = nl.next ∧ (nl.addInput name).2.Laid (entries ++ [(.input, name)]) :=
  ⟨insert_fst .., h.insert rfl nofun⟩

theorem addOutput (h : nl.Laid entries) (name : String) :
    (nl.addOutput name).1 = nl.next ∧ (nl.addOutput name).2.Laid (entries ++ [(.output, name)]) :=
  ⟨insert_fst .., h.insert rfl fun _ hm => List.mem_singleton.1 hm⟩

end Laid

end Breadboard.Netlist
