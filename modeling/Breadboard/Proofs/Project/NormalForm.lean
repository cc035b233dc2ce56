import Breadboard.Proofs.Project.Registering
import Breadboard.Proofs.Project.Rehydration
import Mathlib.Data.Prod.Lex
import Mathlib.Order.WithBot

namespace Breadboard

open Netlist

namespace GateDef

/-- The gate that is placed for the node at a position. -/
def gateAt? (d : GateDef) (registry : Registry) (position : Nat) : Option Gate :=
  d.nodes[position]?.bind fun node => registry.gate? node.gateType

/-- One end of a kept link exists: the index is one of those that the gate at the position has, and
without a position one of a boundary pin. -/
def HasEnd (d : GateDef) (registry : Registry) (width : Gate → Nat) (pins : List String)
    (position : Option Nat) (index : Nat) : Prop :=
  match position with
  | some position => ∃ g, d.gateAt? registry position = some g ∧ index < width g
  | none => index < pins.length

/-- Every placed gate type is registered, and every link has both ends. -/
structure Valid (d : GateDef) (registry : Registry) : Prop where
  registered : ∀ node ∈ d.nodes, (registry.gate? node.gateType).isSome
  source : ∀ link ∈ d.links,
    d.HasEnd registry (·.outputs.length) d.inputs link.node link.index
  destination : ∀ link ∈ d.links,
    d.HasEnd registry (·.inputs.length) d.outputs link.dest link.inIndex

instance (d : GateDef) (registry : Registry) (width : Gate → Nat) (pins : List String)
    (position : Option Nat) (index : Nat) :
    Decidable (d.HasEnd registry width pins position index) :=
  match position with
  | some position =>
    decidable_of_iff ((d.gateAt? registry position).any fun g => index < width g)
      (by simp [HasEnd, Option.any_eq_true])
  | none => inferInstanceAs (Decidable (index < pins.length))

instance (d : GateDef) (registry : Registry) : Decidable (d.Valid registry) :=
  decidable_of_iff
    ((∀ node ∈ d.nodes, (registry.gate? node.gateType).isSome) ∧ ∀ link ∈ d.links,
      d.HasEnd registry (·.outputs.length) d.inputs link.node link.index ∧
      d.HasEnd registry (·.inputs.length) d.outputs link.dest link.inIndex)
    ⟨fun h => ⟨h.1, fun link hm => (h.2 link hm).1, fun link hm => (h.2 link hm).2⟩,
      fun h => ⟨h.registered, fun link hm => ⟨h.source link hm, h.destination link hm⟩⟩⟩

end GateDef

/-- Where a kept link ends. Slots are ordered by node position and then by input index; the boundary
outputs, which have no node, come after all nodes. -/
def LinkDef.slot (link : LinkDef) : WithTop Nat ×ₗ Nat := toLex (link.dest, link.inIndex)

theorem LinkDef.slot_lt_iff {a b : LinkDef} : a.slot < b.slot ↔
    match a.dest, b.dest with
    | some p, some q => p < q ∨ p = q ∧ a.inIndex < b.inIndex
    | some _, none => True
    | none, some _ => False
    | none, none => a.inIndex < b.inIndex := by
  unfold slot
  rw [Prod.Lex.toLex_lt_toLex]
  cases a.dest <;> cases b.dest
  case none.none => exact (or_iff_right (lt_irrefl (⊤ : WithTop Nat))).trans (and_iff_right rfl)
  case none.some =>
    exact iff_of_false (fun h => h.elim (fun hlt => not_top_lt hlt) fun h => nomatch h.1) id
  case some.none p => exact iff_of_true (.inl (WithTop.coe_lt_top p)) trivial
  case some.some p q => exact or_congr WithTop.coe_lt_coe (and_congr_left' WithTop.coe_inj)

def LinkDef.straight (link : LinkDef) : LinkDef := { link with routingPoints := [] }

namespace GateDef

/-- The last link of a list to each slot. -/
def lastLinks (links : List LinkDef) : List LinkDef :=
  links.pwFilter fun a b => a.slot ≠ b.slot

/-- The definition without what a netlist does not keep. -/
def normalForm (d : GateDef) : GateDef :=
  { d with
    nodes := d.nodes.map fun node => { node with extra := [] }
    links := ((lastLinks d.links).map LinkDef.straight).insertionSort fun a b => a.slot ≤ b.slot }

/-- Links that are listed by their slots are determined by what they are. -/
theorem eq_of_ascending {links links' : List LinkDef}
    (h : links.Pairwise fun a b => a.slot < b.slot)
    (h' : links'.Pairwise fun a b => a.slot < b.slot) (hm : ∀ link, link ∈ links ↔ link ∈ links') :
    links = links' := by
  have : Std.Irrefl fun a b : LinkDef => a.slot < b.slot := ⟨fun a => lt_irrefl a.slot⟩
  have : Std.Antisymm fun a b : LinkDef => a.slot < b.slot :=
    ⟨fun _ _ hab hba => (hab.asymm hba).elim⟩
  exact h.eq_of_mem_iff h' hm

theorem ascending_normalForm (d : GateDef) :
    d.normalForm.links.Pairwise fun a b => a.slot < b.slot := by
  have : Std.Total fun a b : LinkDef => a.slot ≤ b.slot := ⟨fun a b => le_total a.slot b.slot⟩
  have : IsTrans LinkDef fun a b => a.slot ≤ b.slot := ⟨fun _ _ _ => le_trans⟩
  have hsorted : d.normalForm.links.Pairwise fun a b => a.slot ≤ b.slot :=
    List.pairwise_insertionSort ..
  have hdistinct : d.normalForm.links.Pairwise fun a b => a.slot ≠ b.slot := by
    refine ((List.perm_insertionSort ..).pairwise_iff Ne.symm).2 ?_
    exact List.pairwise_map.2 (List.pairwise_pwFilter _)
  exact hsorted.imp₂ (fun _ _ hle hne => lt_of_le_of_ne hle hne) hdistinct

theorem mem_links_normalForm {d : GateDef} {kept : LinkDef} :
    kept ∈ d.normalForm.links ↔ ∃ link ∈ lastLinks d.links, link.straight = kept := by
  rw [normalForm, List.mem_insertionSort, List.mem_map]

/-- What is in normal form already stays as it is. -/
theorem normalForm_normalForm (d : GateDef) : d.normalForm.normalForm = d.normalForm := by
  have hascending := d.ascending_normalForm
  have hlast : lastLinks d.normalForm.links = d.normalForm.links :=
    List.pwFilter_eq_self.2 (hascending.imp ne_of_lt)
  have hstraight : d.normalForm.links.map LinkDef.straight = d.normalForm.links := by
    refine (List.map_congr_left fun kept hm => ?_).trans (List.map_id _)
    obtain ⟨link, _, rfl⟩ := mem_links_normalForm.1 hm
    rfl
  have hnodes : (d.normalForm.nodes.map fun node => { node with extra := [] }) =
      d.normalForm.nodes := List.map_map ..
  rw [normalForm, hlast, hstraight, hnodes, (hascending.imp le_of_lt).insertionSort_eq]

section keeping

variable {nl : Netlist Gate} {nodes inputs : List NodeId} {name : String} {metadata : Metadata}

theorem ends_keptLink {dest : Option Nat} {inIndex : Nat} {slot : Option Link} {kept : LinkDef}
    (h : keptLink nodes inputs dest inIndex slot = some kept) :
    kept.dest = dest ∧ kept.inIndex = inIndex := by
  obtain ⟨link, rfl, h⟩ := Option.bind_eq_some_iff.1 h
  obtain ⟨source, _, rfl⟩ := Option.map_eq_some_iff.1 h
  exact ⟨rfl, rfl⟩

theorem dest_of_toGate {position : Nat} {slots : List (Option Link)} {kept : LinkDef}
    (h : kept ∈ slots.zipIdx.filterMap fun (slot, index) =>
      keptLink nodes inputs (some position) index slot) : kept.dest = some position := by
  obtain ⟨_, _, hk⟩ := List.mem_filterMap.1 h
  exact (ends_keptLink hk).1

theorem ends_of_toOutput {position : Nat} {slots : List (Option Link)} {kept : LinkDef}
    (h : kept ∈ slots.filterMap fun slot => keptLink nodes inputs none position slot) :
    kept.dest = none ∧ kept.inIndex = position := by
  obtain ⟨_, _, hk⟩ := List.mem_filterMap.1 h
  exact ends_keptLink hk

/-- A netlist is kept with its links listed by their slots. -/
theorem ascending_ofNetlist (hw : nl.WellFormed) :
    (ofNetlist name nl metadata).links.Pairwise fun a b => a.slot < b.slot := by
  simp only [ofNetlist, LinkDef.slot_lt_iff]
  refine List.pairwise_append.2 ⟨?gates, ?outputs, ?between⟩
  case gates =>
    refine List.pairwise_flatMap.2 ⟨fun entry _ => ?_, (pairwise_zipIdx _).imp ?_⟩
    · refine List.pairwise_filterMap.2 ((pairwise_zipIdx _).imp ?_)
      intro a b hab kept hk kept' hk'
      obtain ⟨hdest, hindex⟩ := ends_keptLink hk
      obtain ⟨hdest', hindex'⟩ := ends_keptLink hk'
      rw [hdest, hdest', hindex, hindex']
      exact .inr ⟨rfl, hab⟩
    · intro a b hab kept hm kept' hm'
      rw [dest_of_toGate hm, dest_of_toGate hm']
      exact .inl hab
  case outputs =>
    refine List.pairwise_flatMap.2 ⟨fun entry hm => ?_, (pairwise_zipIdx _).imp ?_⟩
    · -- a boundary output has one slot
      have hrole := (hw.mem_outputs _).1 (List.mem_of_getElem? (List.mem_zipIdx_iff_getElem?.1 hm))
      obtain ⟨slot, hslot⟩ := List.length_eq_one_iff.1 (hw.slotCount hrole)
      rw [hslot]
      exact List.pairwise_filterMap.2 (List.pairwise_singleton ..)
    · intro a b hab kept hm kept' hm'
      obtain ⟨hdest, hindex⟩ := ends_of_toOutput hm
      obtain ⟨hdest', hindex'⟩ := ends_of_toOutput hm'
      rw [hdest, hdest', hindex, hindex']
      exact hab
  case between =>
    intro kept hm kept' hm'
    obtain ⟨_, _, hm⟩ := List.mem_flatMap.1 hm
    obtain ⟨_, _, hm'⟩ := List.mem_flatMap.1 hm'
    rw [dest_of_toGate hm, (ends_of_toOutput hm').1]
    trivial

end keeping

section rehydration

variable {d : GateDef} {registry : Registry} {gates : List Gate} {target : Netlist Gate}

/-- The nodes of a definition as they are before its first link is made. -/
structure Unlinked (d : GateDef) (gates : List Gate) (target : Netlist Gate) : Prop where
  wellFormed : target.WellFormed
  unlinked : ∀ id, ∀ slot ∈ target.slots id, slot = none
  inputs : target.inputs.map target.traits? = (d.inputs.map (Role.input, ·)).map some
  outputs : target.outputs.map target.traits? = (d.outputs.map (Role.output, ·)).map some
  gates : target.gates.map (·.2) = gates

/-- Links are made between the handles that the netlist lists. -/
theorem exists_unlinked (hg : resolveAll registry d.nodes = .ok gates) :
    ∃ target, d.Unlinked gates target ∧
      d.toNetlist registry =
        connect (target.gates.map (·.1)) target.inputs target.outputs target d.links := by
  obtain ⟨target, hlaid, hconnect⟩ := d.exists_laid hg
  have hw := hlaid.wellFormed
  have hrole := hlaid.role?_eq
  have hinputs : target.inputs = List.range' 0 d.inputs.length := by
    refine hw.inputs_ascend.eq_of_mem_iff List.pairwise_lt_range' fun (id : Nat) => ?_
    rw [hw.mem_inputs, hrole, List.mem_range'_1]
    split_ifs <;> simp <;> omega
  have houtputs : target.outputs = List.range' d.inputs.length d.outputs.length := by
    refine hw.outputs_ascend.eq_of_mem_iff List.pairwise_lt_range' fun (id : Nat) => ?_
    rw [hw.mem_outputs, hrole, List.mem_range'_1]
    split_ifs <;> simp <;> omega
  have hgates : target.gates.map (·.1) =
      List.range' (d.inputs.length + d.outputs.length) gates.length := by
    refine target.gates_ascend.eq_of_mem_iff List.pairwise_lt_range' fun (id : Nat) => ?_
    rw [mem_map_gates, IsGate, hrole, List.mem_range'_1]
    split_ifs <;> simp [List.getElem?_eq_some_iff] <;> omega
  refine ⟨target, ⟨hw, hlaid.unlinked, ?_, ?_, ?_⟩, ?_⟩
  · rw [hinputs]
    rw [List.append_assoc, ← List.nil_append (d.inputs.map _)] at hlaid
    simpa using hlaid.map_traits?
  · rw [houtputs]
    simpa using hlaid.map_traits?
  · have hsame : (target.gates.map (·.2)).map (fun g => (Role.gate g, g.name)) =
        gates.map fun g => (Role.gate g, g.name) := by
      apply List.map_injective_iff.2 (Option.some_injective _)
      rw [traits_gates, hgates]
      rw [← List.append_nil (_ ++ _)] at hlaid
      simpa using hlaid.map_traits?
    exact List.map_injective_iff.2 (fun a b he => by simpa using congrArg Prod.fst he) hsame
  · rw [hconnect, hinputs, houtputs, hgates]

theorem exists_resolved {nl : Netlist Gate} (h : d.toNetlist registry = .ok nl) :
    ∃ gates, resolveAll registry d.nodes = .ok gates := by
  unfold toNetlist at h
  dsimp only at h
  split at h
  · cases h
  · next gates hg => exact ⟨gates, hg⟩

theorem gateAt?_eq (hg : resolveAll registry d.nodes = .ok gates) (position : Nat) :
    d.gateAt? registry position = gates[position]? := by
  have hat := congrArg (·[position]?) (resolveAll_eq_ok_iff.1 hg)
  rw [List.getElem?_map, List.getElem?_map] at hat
  unfold gateAt?
  cases hn : d.nodes[position]? <;> cases hp : gates[position]? <;> simp_all

/-- The gates of a definition are placed in its order. -/
theorem Unlinked.gateAt?_iff (h : d.Unlinked gates target)
    (hg : resolveAll registry d.nodes = .ok gates) {position : Nat} {g : Gate} :
    d.gateAt? registry position = some g ↔
      ∃ id, (target.gates.map (·.1))[position]? = some id ∧ target.role? id = some (.gate g) := by
  rw [gateAt?_eq hg, ← h.gates, List.getElem?_map, List.getElem?_map]
  have hrole (entry : NodeId × Gate) (hentry : target.gates[position]? = some entry) :
      target.role? entry.1 = some (.gate entry.2) :=
    gate?_eq_some_iff.1 (mem_gates.1 (List.mem_of_getElem? hentry))
  constructor
  · intro hm
    obtain ⟨entry, hentry, rfl⟩ := Option.map_eq_some_iff.1 hm
    exact ⟨entry.1, by rw [hentry, Option.map_some], hrole entry hentry⟩
  · intro hm
    obtain ⟨id, hid, hgate⟩ := hm
    obtain ⟨entry, hentry, rfl⟩ := Option.map_eq_some_iff.1 hid
    rw [hrole entry hentry] at hgate
    rw [hentry, Option.map_some, Role.gate.inj (Option.some.inj hgate)]

/-- An end of a kept link exists in the definition exactly if it exists in the netlist. -/
theorem Unlinked.hasEnd_iff (h : d.Unlinked gates target)
    (hg : resolveAll registry d.nodes = .ok gates) (count : Role → Nat) (width : Gate → Nat)
    (hwidth : ∀ g, count (.gate g) = width g) {pins : List NodeId} {names : List String} {r : Role}
    (hr : ∀ id ∈ pins, target.role? id = some r) (hcount : count r = 1)
    (hlength : pins.length = names.length) (position : Option Nat) (index : Nat) :
    d.HasEnd registry width names position index ↔
      ∃ place, Names (target.gates.map (·.1)) pins position index place ∧
        ∃ r, target.role? place.1 = some r ∧ place.2 < count r := by
  cases position with
  | none =>
    constructor
    · intro hlt
      have hlt : index < pins.length := hlength ▸ hlt
      exact ⟨(pins[index], 0), ⟨List.getElem?_eq_getElem hlt, rfl⟩, r,
        hr _ (List.getElem_mem hlt), hcount ▸ Nat.one_pos⟩
    · intro hm
      obtain ⟨place, ⟨hid, _⟩, _⟩ := hm
      have hlt := (List.getElem?_eq_some_iff.1 hid).1
      rwa [hlength] at hlt
  | some position =>
    constructor
    · intro hm
      obtain ⟨g, hat, hlt⟩ := hm
      obtain ⟨id, hid, hrole⟩ := (h.gateAt?_iff hg).1 hat
      exact ⟨(id, index), ⟨hid, rfl⟩, .gate g, hrole, (hwidth g).symm ▸ hlt⟩
    · intro hm
      obtain ⟨⟨id, index⟩, ⟨hid, rfl⟩, r, hrole, hlt⟩ := hm
      obtain ⟨g, hgate⟩ := mem_map_gates.1 (List.mem_of_getElem? hid)
      obtain rfl := Option.some.inj (hrole.symm.trans hgate)
      exact ⟨g, (h.gateAt?_iff hg).2 ⟨id, hid, hgate⟩, hwidth g ▸ hlt⟩

/-- A link is made exactly if both its ends exist. -/
theorem Unlinked.exists_accepts_iff (h : d.Unlinked gates target)
    (hg : resolveAll registry d.nodes = .ok gates) (link : LinkDef) :
    (∃ place, Accepts target (target.gates.map (·.1)) target.inputs target.outputs link place) ↔
      d.HasEnd registry (·.outputs.length) d.inputs link.node link.index ∧
      d.HasEnd registry (·.inputs.length) d.outputs link.dest link.inIndex := by
  have hw := h.wellFormed
  have hsource := h.hasEnd_iff hg Role.outputCount (·.outputs.length) (fun _ => rfl)
    (fun id => (hw.mem_inputs id).1) rfl
    (by simpa using congrArg List.length h.inputs) link.node link.index
  have hdest := h.hasEnd_iff hg Role.slotCount (·.inputs.length) (fun _ => rfl)
    (fun id => (hw.mem_outputs id).1) rfl
    (by simpa using congrArg List.length h.outputs) link.dest link.inIndex
  simp only [hsource, hdest, ← hw.lt_length_slots_iff, ← linkSource_eq_ok, ← linkDestination_eq_ok]
  constructor
  · intro hm
    obtain ⟨⟨dest, slot, link⟩, ⟨hs, hd⟩, hr, hlt⟩ := hm
    exact ⟨⟨_, hs, hr⟩, _, hd, hlt⟩
  · intro hm
    obtain ⟨⟨⟨node, output⟩, hs, hr⟩, ⟨dest, slot⟩, hd, hlt⟩ := hm
    exact ⟨(dest, slot, ⟨node, output⟩), ⟨hs, hd⟩, hr, hlt⟩

/-- A definition is rehydrated exactly if it is valid. -/
theorem exists_toNetlist_iff :
    (∃ nl, d.toNetlist registry = .ok nl) ↔ d.Valid registry := by
  constructor
  · intro hm
    obtain ⟨nl, hmade⟩ := hm
    obtain ⟨gates, hg⟩ := exists_resolved hmade
    obtain ⟨target, htarget, hconnect⟩ := exists_unlinked hg
    have hlinks := exists_connect_iff.1 ⟨nl, hconnect ▸ hmade⟩
    exact ⟨exists_resolveAll_iff.1 ⟨gates, hg⟩,
      fun link hm => ((htarget.exists_accepts_iff hg link).1 (hlinks link hm)).1,
      fun link hm => ((htarget.exists_accepts_iff hg link).1 (hlinks link hm)).2⟩
  · intro h
    obtain ⟨gates, hg⟩ := exists_resolveAll_iff.2 h.registered
    obtain ⟨target, htarget, hconnect⟩ := exists_unlinked hg
    rw [hconnect, exists_connect_iff]
    intro link hm
    exact (htarget.exists_accepts_iff hg link).2 ⟨h.source link hm, h.destination link hm⟩

end rehydration

section last

variable {nl : Netlist Gate} {nodes inputs outputs : List NodeId} {links : List LinkDef}
  {places : List (NodeId × Nat × Link)} {kept : LinkDef} {place : NodeId × Nat × Link}

theorem slot_eq_of_ends (hn : nodes.Nodup) (ho : outputs.Nodup) (hd : nodes.Disjoint outputs)
    {kept' : LinkDef} {place' : NodeId × Nat × Link} (h : Ends nodes inputs outputs kept place)
    (h' : Ends nodes inputs outputs kept' place')
    (he : (place.1, place.2.1) = (place'.1, place'.2.1)) : kept.slot = kept'.slot := by
  obtain ⟨hdest, hindex⟩ := (linkDestination_eq_ok.1 h.2).unique hn ho hd
    (linkDestination_eq_ok.1 (he ▸ h'.2))
  unfold LinkDef.slot
  rw [hdest, hindex]

theorem forall_mem_lastLinks :
    (∀ link ∈ lastLinks links, kept.slot ≠ link.slot) ↔ ∀ link ∈ links, kept.slot ≠ link.slot := by
  refine List.forall_mem_pwFilter (fun {a b c} hac => ?_) kept links
  by_cases hab : a.slot = b.slot
  · exact .inr (hab ▸ hac)
  · exact .inl hab

/-- The last link of a list to a slot is in the slot once all links are made. -/
theorem held_of_last (hn : nodes.Nodup) (ho : outputs.Nodup) (hd : nodes.Disjoint outputs)
    (h : List.Forall₂ (Accepts nl nodes inputs outputs) links places) (hm : kept ∈ lastLinks links)
    (hends : Ends nodes inputs outputs kept place) :
    ((nl.setSlots places).slots place.1)[place.2.1]? = some (some place.2.2) := by
  induction links generalizing nl places with
  | nil => cases hm
  | cons first links ih =>
    obtain ⟨place', places, hfirst, hlater, rfl⟩ := List.forall₂_cons_left_iff.1 h
    have hrest : List.Forall₂ (Accepts (nl.setSlot place'.1 place'.2.1 (some place'.2.2)) nodes
        inputs outputs) links places := by
      rw [accepts_setSlot]
      exact hlater
    have hheld (hm : kept ∈ lastLinks links) := ih hrest hm
    by_cases hlast : ∀ link ∈ lastLinks links, first.slot ≠ link.slot
    · rw [lastLinks, List.pwFilter_cons_of_pos hlast] at hm
      rcases List.mem_cons.1 hm with rfl | hm
      · obtain rfl := hends.unique hfirst.1
        refine getElem?_slots_setSlots_cons hfirst.2.2 fun link hm => ?_
        obtain ⟨kept', hm', hends'⟩ := (mem_places_iff hlater).1 hm
        exact forall_mem_lastLinks.1 hlast kept' hm' (slot_eq_of_ends hn ho hd hends hends' rfl)
      · exact hheld hm
    · rw [lastLinks, List.pwFilter_cons_of_neg hlast] at hm
      exact hheld hm

theorem linkDestination_congr {kept' : LinkDef} (h : kept.slot = kept'.slot) :
    linkDestination nodes outputs kept = linkDestination nodes outputs kept' := by
  obtain ⟨hdest, hindex⟩ := Prod.mk.inj (toLex_inj.1 h)
  unfold linkDestination
  rw [hdest, hindex]

/-- What slots hold that were empty are the last links to them. -/
theorem held_iff (hn : nodes.Nodup) (ho : outputs.Nodup) (hd : nodes.Disjoint outputs)
    (h : List.Forall₂ (Accepts nl nodes inputs outputs) links places)
    (hempty : ∀ id, ∀ slot ∈ nl.slots id, slot = none) (id : NodeId) (slot : Nat) (link : Link) :
    ((nl.setSlots places).slots id)[slot]? = some (some link) ↔
      ∃ kept ∈ lastLinks links, Ends nodes inputs outputs kept (id, slot, link) := by
  constructor
  · intro hs
    have hplace : ∃ link', (id, slot, link') ∈ places := by
      by_contra hnone
      rw [getElem?_slots_setSlots_of_notMem (not_exists.1 hnone)] at hs
      cases hempty id _ (List.mem_of_getElem? hs)
    obtain ⟨link', hm⟩ := hplace
    obtain ⟨kept, hkept, hends⟩ := (mem_places_iff h).1 hm
    have hlast : ¬ ∀ last ∈ lastLinks links, kept.slot ≠ last.slot :=
      fun hnone => forall_mem_lastLinks.1 hnone kept hkept rfl
    simp only [not_forall, ne_eq, not_not, exists_prop] at hlast
    obtain ⟨last, hlast, hslot⟩ := hlast
    have hmade := exists_connect_iff.1 ⟨_, connect_eq_ok_iff.2 ⟨places, h, rfl⟩⟩
    obtain ⟨place, hends', _⟩ := hmade last (List.pwFilter_subset _ hlast)
    have hdest := hends'.2.symm.trans ((linkDestination_congr hslot).symm.trans hends.2)
    obtain ⟨rfl, rfl⟩ := Prod.mk.inj (Except.ok.inj hdest)
    rw [held_of_last hn ho hd h hlast hends'] at hs
    exact ⟨last, hlast, Option.some.inj (Option.some.inj hs) ▸ hends'⟩
  · intro hm
    obtain ⟨kept, hlast, hends⟩ := hm
    exact held_of_last hn ho hd h hlast hends

end last

section normal

variable {nl : Netlist Gate} {d : GateDef} {registry : Registry}

/-- Only the routing points of a kept link are not in the netlist. -/
theorem Keeps.straight_eq (hw : nl.WellFormed) {kept link : LinkDef} {id : NodeId} {slot : Nat}
    {held : Link} (hk : Keeps nl kept id slot held)
    (hs : (nl.slots id)[slot]? = some (some held))
    (hends : Ends (nl.gates.map (·.1)) nl.inputs nl.outputs link (id, slot, held)) :
    link.straight = kept := by
  have hkept := hk.ends hw hs (fun id => id)
  simp only [List.map_id', Link.rename] at hkept
  obtain ⟨hnode, hindex⟩ := (linkSource_eq_ok.1 hends.1).unique nl.nodup_gates hw.nodup_inputs
    hw.gates_disjoint_inputs (linkSource_eq_ok.1 hkept.1)
  obtain ⟨hdest, hslot⟩ := (linkDestination_eq_ok.1 hends.2).unique nl.nodup_gates
    hw.nodup_outputs hw.gates_disjoint_outputs (linkDestination_eq_ok.1 hkept.2)
  obtain ⟨node, index, dest, inIndex, points⟩ := kept
  obtain rfl := hk.straight
  dsimp only at hnode hindex hdest hslot
  rw [LinkDef.straight, hnode, hindex, hdest, hslot]

/-- Gates that are registered under their own names are kept under the types of their nodes. -/
theorem nodes_normalForm (hk : registry.Keyed) {gates : List Gate}
    (hg : resolveAll registry d.nodes = .ok gates) :
    d.normalForm.nodes = gates.map fun g => { gateType := g.name } := by
  have hfound : d.nodes.map (fun node => some ({ node with extra := [] } : NodeDef)) =
      d.nodes.map fun node =>
        (registry.gate? node.gateType).map fun g => { gateType := g.name } := by
    refine List.map_congr_left fun node hm => ?_
    obtain ⟨g, hfound⟩ := Option.isSome_iff_exists.1 (exists_resolveAll_iff.1 ⟨gates, hg⟩ node hm)
    obtain ⟨entry, hentry, rfl⟩ := Option.map_eq_some_iff.1 hfound
    rw [hfound, Option.map_some, hk _ _ hentry]
  apply List.map_injective_iff.2 (Option.some_injective _)
  calc d.normalForm.nodes.map some
      = d.nodes.map fun node => some ({ node with extra := [] } : NodeDef) := List.map_map
    _ = (d.nodes.map fun node => registry.gate? node.gateType).map
          (Option.map fun g => { gateType := g.name }) := by rw [hfound, List.map_map]; rfl
    _ = (gates.map fun g => { gateType := g.name }).map some := by
      rw [resolveAll_eq_ok_iff.1 hg, List.map_map, List.map_map]
      rfl

/-- The links that are kept of a rehydrated netlist. -/
theorem Unlinked.links_eq {gates : List Gate} {target : Netlist Gate}
    {places : List (NodeId × Nat × Link)} (h : d.Unlinked gates target)
    (hplaces : List.Forall₂ (Accepts target (target.gates.map (·.1)) target.inputs target.outputs)
      d.links places) (hw : (target.setSlots places).WellFormed) (name : String)
    (metadata : Metadata) :
    (ofNetlist name (target.setSlots places) metadata).links = d.normalForm.links := by
  refine eq_of_ascending (ascending_ofNetlist hw) d.ascending_normalForm fun kept => ?_
  have hheld := held_iff target.nodup_gates h.wellFormed.nodup_outputs
    h.wellFormed.gates_disjoint_outputs hplaces h.unlinked
  rw [mem_links_ofNetlist, mem_links_normalForm]
  constructor
  · intro hm
    obtain ⟨id, slot, link, hs, hk⟩ := hm
    obtain ⟨last, hlast, hends⟩ := (hheld id slot link).1 hs
    exact ⟨last, hlast, hk.straight_eq hw hs (by simpa using hends)⟩
  · intro hm
    obtain ⟨last, hlast, rfl⟩ := hm
    have hmade := exists_connect_iff.1 ⟨_, connect_eq_ok_iff.2 ⟨places, hplaces, rfl⟩⟩
    obtain ⟨⟨id, slot, link⟩, hends, _⟩ := hmade last (List.pwFilter_subset _ hlast)
    have hs := (hheld id slot link).2 ⟨last, hlast, hends⟩
    obtain ⟨kept, hk⟩ := exists_keeps hw hs
    obtain rfl := hk.straight_eq hw hs (by simpa using hends)
    exact ⟨id, slot, link, hs, hk⟩

/-- What is kept of a rehydrated netlist is the normal form of the definition. -/
theorem ofNetlist_toNetlist (hk : registry.Keyed) (h : d.toNetlist registry = .ok nl) :
    ofNetlist d.name nl d.metadata = d.normalForm := by
  have hw := (reachable_toNetlist h).wellFormed
  obtain ⟨gates, hg⟩ := exists_resolved h
  obtain ⟨target, htarget, hconnect⟩ := exists_unlinked hg
  obtain ⟨places, hplaces, rfl⟩ := connect_eq_ok_iff.1 (hconnect ▸ h)
  have htraits : (target.setSlots places).traits? = target.traits? :=
    funext (traits?_setSlots target places)
  have hnodes : (target.setSlots places).gates.map (fun entry => { gateType := entry.2.name }) =
      d.normalForm.nodes := by
    rw [gates_setSlots, nodes_normalForm hk hg, ← htarget.gates, List.map_map]
    rfl
  have hinputs := names_of_traits (fun id => (hw.mem_inputs id).1)
    (by rw [htraits, inputs_setSlots, htarget.inputs])
  have houtputs := names_of_traits (fun id => (hw.mem_outputs id).1)
    (by rw [htraits, outputs_setSlots, htarget.outputs])
  rw [normalForm, ofNetlist, GateDef.mk.injEq]
  exact ⟨rfl, hnodes, htarget.links_eq hplaces hw d.name d.metadata, hinputs, houtputs, rfl⟩

/-- Exactly the valid definitions are rehydrated, and what is kept of the netlist is the normal form
of the definition. -/
theorem keep_rehydrated (d : GateDef) {registry : Registry} (hk : registry.Keyed) :
    ((∃ nl, d.toNetlist registry = .ok nl) ↔ d.Valid registry) ∧
      ∀ nl, d.toNetlist registry = .ok nl → ofNetlist d.name nl d.metadata = d.normalForm :=
  ⟨exists_toNetlist_iff, fun _ h => ofNetlist_toNetlist hk h⟩

/-- A latch that was edited by hand: its links are in no order, and the last one replaces the link
from the input pin to the second input of the first gate. -/
def handEdited : GateDef where
  name := "HOLD"
  nodes := [{ gateType := "OR", extra := [("x", .null)] }, { gateType := "NOT" }]
  links := [⟨some 1, 0, none, 0, []⟩, ⟨some 0, 0, some 1, 0, [(0, 1)]⟩, ⟨none, 0, some 0, 1, []⟩,
    ⟨none, 0, some 0, 0, []⟩, ⟨some 0, 0, some 0, 1, []⟩]
  inputs := ["S"]
  outputs := ["NQ"]
  metadata := ∅

/-- Of its links, the replaced one is not kept. -/
theorem keep_rehydrated_handEdited :
    (Registry.standard .reject).Keyed ∧ handEdited.Valid (.standard .reject) ∧
      ∃ nl, handEdited.toNetlist (.standard .reject) = .ok nl ∧
        ofNetlist "HOLD" nl ∅ = handEdited.normalForm ∧
        handEdited.normalForm.links = [⟨none, 0, some 0, 0, []⟩, ⟨some 0, 0, some 0, 1, []⟩,
          ⟨some 0, 0, some 1, 0, []⟩, ⟨some 1, 0, none, 0, []⟩] := by
  have hk := (Registry.Reachable.standard .reject).keyed
  have hvalid : handEdited.Valid (.standard .reject) := by decide +kernel
  obtain ⟨hmakes, hnormal⟩ := keep_rehydrated handEdited hk
  obtain ⟨nl, hmade⟩ := hmakes.2 hvalid
  exact ⟨hk, hvalid, nl, hmade, hnormal nl hmade, rfl⟩

end normal

end GateDef

end Breadboard
