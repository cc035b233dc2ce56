import Breadboard.Project.Definition
import Breadboard.Proofs.Netlist.Embedding
import Breadboard.Proofs.Netlist.Wiring
import Mathlib.Data.List.Forall2

namespace Breadboard

open Netlist

namespace GateDef

variable {nl : Netlist Gate} {nodes inputs outputs : List NodeId}

/-- What the two fields say that a kept link has for one of its ends: with a position, the place
with the index at the node there, and without one, the only place of the pin with the index. -/
def Names (nodes pins : List NodeId) (position : Option Nat) (index : Nat)
    (place : NodeId × Nat) : Prop :=
  match position with
  | some position => nodes[position]? = some place.1 ∧ index = place.2
  | none => pins[index]? = some place.1 ∧ place.2 = 0

theorem map_locate_eq_ok {kind : LinkEnd} {ids : List NodeId} {position index : Nat}
    {place : NodeId × Nat} : (locate kind ids position).map (·, index) = .ok place ↔
      ids[position]? = some place.1 ∧ index = place.2 := by
  unfold locate
  obtain ⟨id, slot⟩ := place
  cases ids[position]? <;> simp [Except.map]

theorem linkSource_eq_ok {kept : LinkDef} {source : NodeId × Nat} :
    linkSource nodes inputs kept = .ok source ↔
      Names nodes inputs kept.node kept.index source := by
  unfold linkSource Names
  cases kept.node <;> simp [map_locate_eq_ok, @eq_comm _ 0]

theorem linkDestination_eq_ok {kept : LinkDef} {dest : NodeId × Nat} :
    linkDestination nodes outputs kept = .ok dest ↔
      Names nodes outputs kept.dest kept.inIndex dest := by
  unfold linkDestination Names
  cases kept.dest <;> simp [map_locate_eq_ok, @eq_comm _ 0]

/-- Names of one place are the same. -/
theorem Names.unique {pins : List NodeId} (hn : nodes.Nodup) (hp : pins.Nodup)
    (hd : nodes.Disjoint pins) {position position' : Option Nat} {index index' : Nat}
    {place : NodeId × Nat} (h : Names nodes pins position index place)
    (h' : Names nodes pins position' index' place) : position = position' ∧ index = index' := by
  have hsame {ids : List NodeId} (hn : ids.Nodup) {i j : Nat} (hi : ids[i]? = some place.1)
      (hj : ids[j]? = some place.1) : i = j :=
    (List.getElem?_inj (List.getElem?_eq_some_iff.1 hi).1 hn).1 (hi.trans hj.symm)
  cases position <;> cases position'
  case none.none => exact ⟨rfl, hsame hp h.1 h'.1⟩
  case some.some => exact ⟨congrArg some (hsame hn h.1 h'.1), h.2.trans h'.2.symm⟩
  case none.some => exact (hd (List.mem_of_getElem? h'.1) (List.mem_of_getElem? h.1)).elim
  case some.none => exact (hd (List.mem_of_getElem? h.1) (List.mem_of_getElem? h'.1)).elim

/-- The two ends of a kept link, as a slot and the link in it. -/
def Ends (nodes inputs outputs : List NodeId) (kept : LinkDef) (place : NodeId × Nat × Link) :
    Prop :=
  linkSource nodes inputs kept = .ok (place.2.2.node, place.2.2.output) ∧
    linkDestination nodes outputs kept = .ok (place.1, place.2.1)

theorem Ends.unique {kept : LinkDef} {place place' : NodeId × Nat × Link}
    (h : Ends nodes inputs outputs kept place) (h' : Ends nodes inputs outputs kept place') :
    place = place' := by
  obtain ⟨hnode, houtput⟩ := Prod.mk.inj (Except.ok.inj (h.1.symm.trans h'.1))
  obtain ⟨hdest, hslot⟩ := Prod.mk.inj (Except.ok.inj (h.2.symm.trans h'.2))
  obtain ⟨dest, slot, source, output⟩ := place
  obtain ⟨dest', slot', source', output'⟩ := place'
  dsimp only at hnode houtput hdest hslot
  rw [hnode, houtput, hdest, hslot]

/-- Both ends of a kept link exist, and the netlist has the place between them. -/
def Accepts (nl : Netlist Gate) (nodes inputs outputs : List NodeId) (kept : LinkDef)
    (place : NodeId × Nat × Link) : Prop :=
  Ends nodes inputs outputs kept place ∧ nl.Linkable place

theorem accepts_setSlot (dest : NodeId) (slot : Nat) (link : Option Link) :
    Accepts (nl.setSlot dest slot link) nodes inputs outputs = Accepts nl nodes inputs outputs := by
  funext kept place
  rw [Accepts, linkable_setSlot_iff, Accepts]

variable {links : List LinkDef} {places : List (NodeId × Nat × Link)}

/-- Kept links are made in the order in which they are listed, unless one of them is refused. -/
theorem connect_eq_ok_iff {nl' : Netlist Gate} :
    connect nodes inputs outputs nl links = .ok nl' ↔
      ∃ places, List.Forall₂ (Accepts nl nodes inputs outputs) links places ∧
        nl' = nl.setSlots places := by
  induction links generalizing nl with
  | nil =>
    simp only [connect, Except.ok.injEq, List.forall₂_nil_left_iff, exists_eq_left]
    exact eq_comm
  | cons kept links ih =>
    constructor
    · intro h
      rw [connect] at h
      split at h
      · cases h
      · next source output hsource =>
        split at h
        · cases h
        · next dest slot hdest =>
          split at h
          · cases h
          · next hlink =>
            have hfits : nl.Linkable (dest, slot, ⟨source, output⟩) := linkable_of_link hlink
            obtain ⟨_, hmade⟩ := link_of_linkable hfits
            obtain rfl := (Prod.mk.inj (hlink.symm.trans hmade)).2
            obtain ⟨places, hplaces, rfl⟩ := ih.1 h
            rw [accepts_setSlot] at hplaces
            exact ⟨_, .cons ⟨⟨hsource, hdest⟩, hfits⟩ hplaces, rfl⟩
    · intro h
      obtain ⟨_, hall, rfl⟩ := h
      obtain ⟨place, places, ⟨hends, hfits⟩, hplaces, rfl⟩ := List.forall₂_cons_left_iff.1 hall
      obtain ⟨_, hlink⟩ := link_of_linkable hfits
      rw [connect, hends.1, hends.2]
      dsimp only
      rw [hlink]
      exact ih.2 ⟨places, (accepts_setSlot ..).symm ▸ hplaces, rfl⟩

/-- Whether one kept link is refused does not depend on the others. -/
theorem exists_connect_iff :
    (∃ nl', connect nodes inputs outputs nl links = .ok nl') ↔
      ∀ kept ∈ links, ∃ place, Accepts nl nodes inputs outputs kept place := by
  have hplaces : (∃ places, List.Forall₂ (Accepts nl nodes inputs outputs) links places) ↔
      ∀ kept ∈ links, ∃ place, Accepts nl nodes inputs outputs kept place := by
    induction links with
    | nil => simp
    | cons kept links ih =>
      rw [List.forall_mem_cons, ← ih]
      simp only [List.forall₂_cons_left_iff]
      constructor
      · intro h
        obtain ⟨_, place, places, hkept, hlater, rfl⟩ := h
        exact ⟨⟨place, hkept⟩, places, hlater⟩
      · intro h
        obtain ⟨⟨place, hkept⟩, places, hlater⟩ := h
        exact ⟨_, place, places, hkept, hlater, rfl⟩
  simp only [← hplaces, connect_eq_ok_iff]
  exact ⟨fun ⟨_, places, h, _⟩ => ⟨places, h⟩, fun ⟨places, h⟩ => ⟨_, places, h, rfl⟩⟩

theorem mem_places_iff (h : List.Forall₂ (Accepts nl nodes inputs outputs) links places)
    {place : NodeId × Nat × Link} :
    place ∈ places ↔ ∃ kept ∈ links, Ends nodes inputs outputs kept place := by
  induction h with
  | nil => simp
  | @cons kept first links places hkept _ ih =>
    have hfirst : place = first ↔ Ends nodes inputs outputs kept place :=
      ⟨fun he => he ▸ hkept.1, fun hends => hends.unique hkept.1⟩
    rw [List.mem_cons, ih, hfirst, List.exists_mem_cons_iff]

/-- Kept links whose ends exist are all made. -/
theorem connect_eq_ok (h : ∀ kept ∈ links, ∃ place, Accepts nl nodes inputs outputs kept place) :
    ∃ places, connect nodes inputs outputs nl links = .ok (nl.setSlots places) ∧
      ∀ place, place ∈ places ↔ ∃ kept ∈ links, Ends nodes inputs outputs kept place := by
  obtain ⟨nl', hmade⟩ := exists_connect_iff.2 h
  obtain ⟨places, hplaces, rfl⟩ := connect_eq_ok_iff.1 hmade
  exact ⟨places, hmade, fun _ => mem_places_iff hplaces⟩

/-- A kept link stands for the link in a slot of a gate or of a boundary output. -/
structure Keeps (nl : Netlist Gate) (kept : LinkDef) (id : NodeId) (slot : Nat) (link : Link) :
    Prop where
  source : keptSource (nl.gates.map (·.1)) nl.inputs link = some (kept.node, kept.index)
  dest : (∃ position, (nl.gates.map (·.1))[position]? = some id ∧ kept.dest = some position ∧
      kept.inIndex = slot) ∨
    nl.outputs[kept.inIndex]? = some id ∧ kept.dest = none
  straight : kept.routingPoints = []

theorem mem_links_ofNetlist {name : String} {metadata : Metadata} {kept : LinkDef} :
    kept ∈ (ofNetlist name nl metadata).links ↔
      ∃ id slot link, (nl.slots id)[slot]? = some (some link) ∧ Keeps nl kept id slot link := by
  simp only [ofNetlist, List.mem_append, List.mem_flatMap, List.mem_filterMap, Prod.exists,
    List.mem_zipIdx_iff_getElem?, keptLink, Option.bind_eq_some_iff, Option.map_eq_some_iff]
  constructor
  · intro hm
    rcases hm with ⟨id, position, hid, slot, k, hs, link, rfl, node, index, hk, rfl⟩ |
      ⟨id, position, hid, slot, hs, link, rfl, node, index, hk, rfl⟩
    · exact ⟨id, k, link, hs, hk, .inl ⟨position, hid, rfl, rfl⟩, rfl⟩
    · obtain ⟨k, hs⟩ := List.mem_iff_getElem?.1 hs
      exact ⟨id, k, link, hs, hk, .inr ⟨hid, rfl⟩, rfl⟩
  · intro hm
    obtain ⟨id, k, link, hs, hk⟩ := hm
    obtain ⟨node, index, dest, inIndex, points⟩ := kept
    obtain ⟨hsource, ⟨position, hid, rfl, rfl⟩ | ⟨hid, rfl⟩, rfl⟩ := hk
    · exact .inl ⟨id, position, hid, some link, inIndex, hs, link, rfl, node, index, hsource, rfl⟩
    · exact .inr ⟨id, inIndex, hid, some link, List.mem_of_getElem? hs, link, rfl, node, index,
        hsource, rfl⟩

theorem getElem?_of_idxOf? {ids : List NodeId} {id : NodeId} {position : Nat}
    (h : ids.idxOf? id = some position) : ids[position]? = some id := by
  obtain ⟨hlt, hid, _⟩ := List.idxOf?_eq_some_iff.1 h
  exact List.getElem?_eq_some_iff.2 ⟨hlt, hid⟩

variable {kept : LinkDef} {id : NodeId} {slot : Nat} {link : Link}

theorem keptSource_cases {node : Option Nat} {index : Nat}
    (h : keptSource nodes inputs link = some (node, index)) :
    (∃ position, nodes[position]? = some link.node ∧ node = some position ∧
      index = link.output) ∨
    link.node ∉ nodes ∧ inputs[index]? = some link.node ∧ node = none := by
  unfold keptSource at h
  split at h
  · next position hp =>
    obtain ⟨rfl, rfl⟩ := Prod.mk.inj (Option.some.inj h)
    exact .inl ⟨position, getElem?_of_idxOf? hp, rfl, rfl⟩
  · next hp =>
    obtain ⟨pin, hpin, he⟩ := Option.map_eq_some_iff.1 h
    obtain ⟨rfl, rfl⟩ := Prod.mk.inj he
    exact .inr ⟨List.idxOf?_eq_none_iff.1 hp, getElem?_of_idxOf? hpin, rfl⟩

theorem exists_keptSource (h : link.node ∈ nodes ∨ link.node ∈ inputs) :
    ∃ source, keptSource nodes inputs link = some source := by
  unfold keptSource
  split
  · next position _ => exact ⟨_, rfl⟩
  · next hp =>
    have hin := h.resolve_left (List.idxOf?_eq_none_iff.1 hp)
    obtain ⟨pin, hpin⟩ := Option.isSome_iff_exists.1 (List.isSome_idxOf?.2 hin)
    rw [hpin]
    exact ⟨_, rfl⟩

theorem linkSource_of_keeps (h : Keeps nl kept id slot link) (hw : nl.WellFormed)
    (hl : some link ∈ nl.slots id) (f : NodeId → NodeId) :
    linkSource ((nl.gates.map (·.1)).map f) (nl.inputs.map f) kept =
      .ok (f link.node, link.output) := by
  rw [linkSource_eq_ok]
  rcases keptSource_cases h.source with ⟨position, hid, hnode, hindex⟩ | ⟨hgate, hid, hnode⟩
  · rw [hnode, hindex]
    exact ⟨by rw [List.getElem?_map, hid, Option.map_some], rfl⟩
  · -- a pin has no other output than 0, so the index is free to name the pin
    have houtput : link.output = 0 := by
      rcases hw.source_cases hl with ⟨g, hg, _⟩ | ⟨_, ho⟩
      · exact absurd (mem_map_gates.2 ⟨g, hg⟩) hgate
      · exact ho
    rw [hnode]
    exact ⟨by rw [List.getElem?_map, hid, Option.map_some], houtput⟩

theorem linkDestination_of_keeps (h : Keeps nl kept id slot link) (hw : nl.WellFormed)
    (hs : slot < (nl.slots id).length) (f : NodeId → NodeId) :
    linkDestination ((nl.gates.map (·.1)).map f) (nl.outputs.map f) kept = .ok (f id, slot) := by
  rw [linkDestination_eq_ok]
  rcases h.dest with ⟨position, hid, hdest, hslot⟩ | ⟨hid, hdest⟩
  · rw [hdest]
    exact ⟨by rw [List.getElem?_map, hid, Option.map_some], hslot⟩
  · -- and no other slot
    rw [hw.slotCount ((hw.mem_outputs id).1 (List.mem_of_getElem? hid))] at hs
    rw [hdest]
    exact ⟨by rw [List.getElem?_map, hid, Option.map_some], Nat.lt_one_iff.1 hs⟩

/-- Under other handles, a kept link has the ends of the link that it stands for. -/
theorem Keeps.ends (h : Keeps nl kept id slot link) (hw : nl.WellFormed)
    (hs : (nl.slots id)[slot]? = some (some link)) (f : NodeId → NodeId) :
    Ends ((nl.gates.map (·.1)).map f) (nl.inputs.map f) (nl.outputs.map f) kept
      (f id, slot, link.rename f) :=
  ⟨linkSource_of_keeps h hw (List.mem_of_getElem? hs) f,
    linkDestination_of_keeps h hw (List.getElem?_eq_some_iff.1 hs).1 f⟩

/-- Every link is kept. -/
theorem exists_keeps (hw : nl.WellFormed) (hs : (nl.slots id)[slot]? = some (some link)) :
    ∃ kept, Keeps nl kept id slot link := by
  have hl := List.mem_of_getElem? hs
  have hsource : link.node ∈ nl.gates.map (·.1) ∨ link.node ∈ nl.inputs := by
    rcases hw.source_cases hl with ⟨g, hg, _⟩ | ⟨hr, _⟩
    · exact .inl (mem_map_gates.2 ⟨g, hg⟩)
    · exact .inr ((hw.mem_inputs _).2 hr)
  obtain ⟨⟨node, index⟩, hk⟩ := exists_keptSource hsource
  cases hr : nl.role? id with
  | none =>
    rw [slots_eq_nil_of_role? hr] at hl
    cases hl
  | some r =>
    cases r with
    | gate g =>
      obtain ⟨position, hid⟩ := List.mem_iff_getElem?.1 (mem_map_gates.2 ⟨g, hr⟩)
      exact ⟨⟨node, index, some position, slot, []⟩, hk, .inl ⟨position, hid, rfl, rfl⟩, rfl⟩
    | input =>
      rw [hw.slots_of_input hr] at hl
      cases hl
    | output =>
      obtain ⟨position, hid⟩ := List.mem_iff_getElem?.1 ((hw.mem_outputs id).2 hr)
      exact ⟨⟨node, index, none, position, []⟩, hk, .inr ⟨hid, rfl⟩, rfl⟩

end GateDef

end Breadboard
