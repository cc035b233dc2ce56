import Breadboard.Proofs.Netlist.Extraction
import Breadboard.Proofs.Netlist.Isomorphism
import Breadboard.Proofs.Netlist.Laying
import Mathlib.Data.List.Sort

namespace Breadboard.Netlist

variable {nl target : Netlist Gate} {entries : List (Role × String)} {id : NodeId}

/-- The live nodes in the order in which a definition lists them. -/
def listing (nl : Netlist Gate) : List NodeId := nl.inputs ++ nl.outputs ++ nl.gates.map (·.1)

/-- The handle that a node has after rehydration. Handles without a node go to handles without
one. -/
def renumber (nl : Netlist Gate) (id : NodeId) : NodeId :=
  if id ∈ nl.listing then nl.listing.idxOf id else nl.listing.length + id

theorem renumber_of_mem (h : id ∈ nl.listing) : nl.renumber id = nl.listing.idxOf id := if_pos h

theorem renumber_of_notMem (h : id ∉ nl.listing) : nl.renumber id = nl.listing.length + id :=
  if_neg h

theorem renumber_injective (nl : Netlist Gate) : Function.Injective nl.renumber := by
  intro a b he
  by_cases ha : a ∈ nl.listing <;> by_cases hb : b ∈ nl.listing
  · rw [renumber_of_mem ha, renumber_of_mem hb] at he
    exact eq_of_idxOf_eq ha hb he
  · rw [renumber_of_mem ha, renumber_of_notMem hb] at he
    exact absurd (he ▸ List.idxOf_lt_length_of_mem ha) (Nat.not_lt.2 (Nat.le_add_right ..))
  · rw [renumber_of_notMem ha, renumber_of_mem hb] at he
    exact absurd (he ▸ List.idxOf_lt_length_of_mem hb) (Nat.not_lt.2 (Nat.le_add_right ..))
  · rw [renumber_of_notMem ha, renumber_of_notMem hb] at he
    exact Nat.add_left_cancel he

namespace WellFormed

theorem mem_listing (hw : nl.WellFormed) : id ∈ nl.listing ↔ ∃ r, nl.role? id = some r := by
  simp only [listing, List.mem_append, hw.mem_inputs, hw.mem_outputs, mem_map_gates, IsGate]
  constructor
  · intro h
    rcases h with (h | h) | ⟨g, h⟩ <;> exact ⟨_, h⟩
  · intro h
    obtain ⟨r, h⟩ := h
    cases r with
    | gate g => exact .inr ⟨g, h⟩
    | input => exact .inl (.inl h)
    | output => exact .inl (.inr h)

theorem gates_disjoint_inputs (hw : nl.WellFormed) : (nl.gates.map (·.1)).Disjoint nl.inputs :=
  fun _ hgate hin => (mem_map_gates.1 hgate).role?_ne_input ((hw.mem_inputs _).1 hin)

theorem gates_disjoint_outputs (hw : nl.WellFormed) : (nl.gates.map (·.1)).Disjoint nl.outputs :=
  fun _ hgate hout => (mem_map_gates.1 hgate).role?_ne_output ((hw.mem_outputs _).1 hout)

theorem nodup_listing (hw : nl.WellFormed) : nl.listing.Nodup := by
  have hpins : nl.inputs.Disjoint nl.outputs := by
    intro id hin hout
    rw [hw.mem_inputs] at hin
    rw [hw.mem_outputs, hin] at hout
    cases hout
  have hgates : (nl.inputs ++ nl.outputs).Disjoint (nl.gates.map (·.1)) :=
    List.disjoint_append_left.2 ⟨List.disjoint_symm hw.gates_disjoint_inputs,
      List.disjoint_symm hw.gates_disjoint_outputs⟩
  exact (hw.nodup_inputs.append hw.nodup_outputs hpins).append nl.nodup_gates hgates

end WellFormed

/-- The listing, split at each of its three parts. -/
theorem listing_parts (nl : Netlist Gate) :
    nl.listing = [] ++ nl.inputs ++ (nl.outputs ++ nl.gates.map (·.1)) ∧
      nl.listing = nl.inputs ++ nl.outputs ++ nl.gates.map (·.1) ∧
      nl.listing = nl.inputs ++ nl.outputs ++ nl.gates.map (·.1) ++ [] :=
  ⟨List.append_assoc .., rfl, (List.append_nil _).symm⟩

/-- A part of the listing has its places one after another. -/
theorem WellFormed.map_renumber (hw : nl.WellFormed) {before part after : List NodeId}
    (hl : nl.listing = before ++ part ++ after) :
    part.map nl.renumber = List.range' before.length part.length := by
  have hn := hw.nodup_listing
  apply List.ext_getElem
  · rw [List.length_map, List.length_range']
  · intro i hi _
    rw [List.length_map] at hi
    have hget : nl.listing[before.length + i]? = some part[i] := by
      rw [hl, List.append_assoc, List.getElem?_append_right (Nat.le_add_right ..),
        Nat.add_sub_cancel_left, List.getElem?_append_left hi, List.getElem?_eq_getElem hi]
    obtain ⟨hlt, hget⟩ := List.getElem?_eq_some_iff.1 hget
    rw [List.getElem_map, List.getElem_range', Nat.one_mul, ← hget,
      renumber_of_mem (List.getElem_mem hlt), hn.idxOf_getElem _ hlt]

/-- A netlist into which the nodes of another one were put, without their links. -/
structure Transferred (nl target : Netlist Gate) : Prop where
  wellFormed : target.WellFormed
  traits : ∀ id, target.traits? (nl.renumber id) = nl.traits? id
  onto : ∀ {id r}, target.role? id = some r → ∃ original, nl.renumber original = id
  unlinked : ∀ id, ∀ slot ∈ target.slots id, slot = none

theorem Laid.transferred {target : Netlist Gate} (hw : nl.WellFormed) (h : target.Laid entries)
    (he : entries.map some = nl.listing.map nl.traits?) :
    nl.Transferred target := by
  have hlength : entries.length = nl.listing.length := by
    simpa only [List.length_map] using congrArg List.length he
  constructor
  case wellFormed => exact h.wellFormed
  case unlinked => exact h.unlinked
  case traits =>
    intro id
    by_cases hid : id ∈ nl.listing
    · have hget := congrArg (·[nl.listing.idxOf id]?) he
      rw [List.getElem?_map, List.getElem?_map, List.getElem?_idxOf hid, Option.map_some] at hget
      obtain ⟨entry, hentry, hsome⟩ := Option.map_eq_some_iff.1 hget
      rw [renumber_of_mem hid, h.traits, hentry, hsome]
    · have hnone : nl.traits? id = none := by
        rw [hw.mem_listing, role?_eq_traits?] at hid
        cases hn : nl.traits? id with
        | none => rfl
        | some entry => exact absurd ⟨entry.1, by rw [hn, Option.map_some]⟩ hid
      rw [renumber_of_notMem hid, h.traits, hnone, List.getElem?_eq_none]
      rw [hlength]
      exact Nat.le_add_right ..
  case onto =>
    intro id r hr
    have hlt : id < nl.listing.length := hlength ▸ h.next ▸ lt_next_of_role? hr
    refine ⟨nl.listing[id], ?_⟩
    rw [renumber_of_mem (List.getElem_mem hlt), hw.nodup_listing.idxOf_getElem]

namespace Transferred

theorem role (h : nl.Transferred target) (id : NodeId) :
    target.role? (nl.renumber id) = nl.role? id := by
  rw [role?_eq_traits?, role?_eq_traits?, h.traits]

theorem length_slots (h : nl.Transferred target) (hw : nl.WellFormed) (id : NodeId) :
    (target.slots (nl.renumber id)).length = (nl.slots id).length := by
  cases hr : nl.role? id with
  | none => rw [slots_eq_nil_of_role? hr, slots_eq_nil_of_role? ((h.role id).trans hr)]
  | some r => rw [hw.slotCount hr, h.wellFormed.slotCount ((h.role id).trans hr)]

theorem linkable (h : nl.Transferred target) (hw : nl.WellFormed) {slot : Nat} {link : Link}
    (hs : (nl.slots id)[slot]? = some (some link)) :
    target.Linkable (nl.renumber id, slot, link.rename nl.renumber) := by
  obtain ⟨r, hr, ho⟩ := hw.links (List.mem_of_getElem? hs)
  refine ⟨⟨r, (h.role link.node).trans hr, ho⟩, ?_⟩
  rw [h.length_slots hw]
  exact (List.getElem?_eq_some_iff.1 hs).1

end Transferred

/-- The links of a netlist under the handles after rehydration. -/
def IsMoved (nl : Netlist Gate) (place : NodeId × Nat × Link) : Prop :=
  ∃ id slot link, (nl.slots id)[slot]? = some (some link) ∧
    place = (nl.renumber id, slot, link.rename nl.renumber)

/-- The nodes with some property of roles are the same ones after the transfer, in the same order
when they are a part of the listing. -/
theorem Transferred.eq_map_renumber (h : nl.Transferred target) (hw : nl.WellFormed)
    {before part after part' : List NodeId} (hl : nl.listing = before ++ part ++ after)
    (ha : part'.Pairwise (· < ·)) (P : Option Role → Prop) (hn : ¬ P none)
    (hm : ∀ id, id ∈ part ↔ P (nl.role? id)) (hm' : ∀ id, id ∈ part' ↔ P (target.role? id)) :
    part' = part.map nl.renumber := by
  have hplaces : (part.map nl.renumber).Pairwise (· < ·) := by
    rw [hw.map_renumber hl]
    exact List.pairwise_lt_range' ..
  refine ha.eq_of_mem_iff hplaces fun id => ?_
  rw [hm', List.mem_map]
  constructor
  · intro hp
    cases hr : target.role? id with
    | none => exact absurd (hr ▸ hp) hn
    | some r =>
      obtain ⟨original, rfl⟩ := h.onto hr
      exact ⟨original, (hm original).2 (h.role original ▸ hp), rfl⟩
  · intro hid
    obtain ⟨original, hid, rfl⟩ := hid
    rw [h.role]
    exact (hm original).1 hid

variable {places : List (NodeId × Nat × Link)}

theorem Transferred.slots_setSlots (h : nl.Transferred target) (hw : nl.WellFormed)
    (hp : ∀ place, place ∈ places ↔ nl.IsMoved place) (id : NodeId) :
    (target.setSlots places).slots (nl.renumber id) =
      (nl.slots id).map (Option.map (Link.rename nl.renumber)) := by
  apply Netlist.slots_setSlots
  · rw [h.length_slots hw, List.length_map]
  · exact h.unlinked _
  · intro slot link
    simp only [hp, List.getElem?_map, Option.map_eq_some_iff]
    constructor
    · intro hm
      obtain ⟨id', slot', l, hs, he⟩ := hm
      obtain ⟨hid, hslot, rfl⟩ := by simpa only [Prod.mk.injEq] using he
      rw [← nl.renumber_injective hid, ← hslot] at hs
      exact ⟨some l, hs, l, rfl, rfl⟩
    · intro hm
      obtain ⟨_, hs, l, rfl, rfl⟩ := hm
      exact ⟨id, slot, l, hs, rfl⟩

/-- With the links of the kept netlist, the nodes are as they were, in the same order. -/
theorem Transferred.isomorphic (h : nl.Transferred target) (hw : nl.WellFormed)
    (hw' : (target.setSlots places).WellFormed)
    (hp : ∀ place, place ∈ places ↔ nl.IsMoved place) :
    nl.Isomorphic (target.setSlots places) nl.renumber := by
  have hrole (id : NodeId) : (target.setSlots places).role? (nl.renumber id) = nl.role? id :=
    (role?_setSlots ..).trans (h.role id)
  obtain ⟨hinputs, houtputs, hgates⟩ := nl.listing_parts
  constructor
  case injective => exact nl.renumber_injective
  case role => exact hrole
  case slots => exact h.slots_setSlots hw hp
  case name =>
    intro id
    rw [name_eq_traits?, name_eq_traits?, traits?_setSlots, h.traits]
  case inputs =>
    apply h.eq_map_renumber hw hinputs hw'.inputs_ascend (· = some .input) nofun hw.mem_inputs
    intro id
    rw [hw'.mem_inputs, role?_setSlots]
  case outputs =>
    apply h.eq_map_renumber hw houtputs hw'.outputs_ascend (· = some .output) nofun hw.mem_outputs
    intro id
    rw [hw'.mem_outputs, role?_setSlots]
  case gates =>
    -- the handles of the gates first, and from these the gates
    have hids : (target.setSlots places).gates.map (·.1) =
        (nl.gates.map (·.1)).map nl.renumber := by
      apply h.eq_map_renumber hw hgates (gates_ascend _) (fun r => ∃ g, r = some (.gate g)) nofun
        fun _ => mem_map_gates
      intro id
      rw [mem_map_gates, IsGate, role?_setSlots]
    rw [gates_eq_filterMap, hids, List.filterMap_map]
    conv_rhs => rw [gates_eq_filterMap, List.map_filterMap]
    apply List.filterMap_congr
    intro id _
    rw [Function.comp_apply, gate?_congr (hrole id), Option.map_map]
    rfl

end Breadboard.Netlist
