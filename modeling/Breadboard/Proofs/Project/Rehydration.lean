import Breadboard.Proofs.Netlist.Representation
import Breadboard.Proofs.Netlist.Transfer
import Breadboard.Proofs.Project.KeptLinks

namespace Breadboard

open Netlist

/-- Rehydration makes nodes without links first, and then the kept links. -/
theorem GateDef.exists_laid (d : GateDef) {registry : Registry} {gates : List Gate}
    (hg : resolveAll registry d.nodes = .ok gates) :
    ∃ target : Netlist Gate,
      target.Laid (d.inputs.map (.input, ·) ++ d.outputs.map (.output, ·) ++
        gates.map fun g => (.gate g, g.name)) ∧
      d.toNetlist registry =
        connect (List.range' (d.inputs.length + d.outputs.length) gates.length)
          (List.range' 0 d.inputs.length) (List.range' d.inputs.length d.outputs.length) target
          d.links := by
  obtain ⟨hin, hlaid⟩ := Laid.empty.addEach (fun name h => h.addInput name) d.inputs
  obtain ⟨hout, hlaid⟩ := hlaid.addEach (fun name h => h.addOutput name) d.outputs
  obtain ⟨hnodes, hlaid⟩ := hlaid.addEach (fun g h => h.place g) gates
  simp only [List.nil_append, List.length_append, List.length_map, List.length_nil]
    at hin hout hnodes
  refine ⟨_, hlaid, ?_⟩
  simp only [toNetlist, hg, hin, hout, hnodes]

namespace Netlist

variable {nl target : Netlist Gate}

/-- The name of every placed gate stands for that gate. -/
def ResolvedBy (nl : Netlist Gate) (registry : Registry) : Prop :=
  ∀ id g, nl.gate? id = some g → ∃ entry, registry.resolve g.name = .ok entry ∧ entry.gate = g

theorem ResolvedBy.resolveAll_gates {registry : Registry} (h : nl.ResolvedBy registry) :
    GateDef.resolveAll registry (nl.gates.map fun entry => { gateType := entry.2.name }) =
      .ok (nl.gates.map (·.2)) := by
  have hgates : ∀ entry ∈ nl.gates, nl.gate? entry.1 = some entry.2 := fun _ => mem_gates.1
  generalize nl.gates = gates at hgates ⊢
  induction gates with
  | nil => rfl
  | cons entry gates ih =>
    obtain ⟨hgate, hgates⟩ := List.forall_mem_cons.1 hgates
    obtain ⟨registered, hresolved, hg⟩ := h entry.1 entry.2 hgate
    rw [List.map_cons, GateDef.resolveAll]
    simp only [hresolved, hg, ih hgates, Except.map, List.map_cons]

/-- What a definition keeps of its pins. -/
theorem traits_pins {pins : List NodeId} {r : Role}
    (h : ∀ id ∈ pins, nl.role? id = some r) :
    ((pins.filterMap fun id => (nl.node? id).map (·.name)).map ((r, ·))).map some =
      pins.map nl.traits? := by
  induction pins with
  | nil => rfl
  | cons id pins ih =>
    obtain ⟨hr, h⟩ := List.forall_mem_cons.1 h
    rw [role?_eq_map] at hr
    obtain ⟨node, hn, rfl⟩ := Option.map_eq_some_iff.1 hr
    rw [List.filterMap_cons_some (by rw [hn, Option.map_some]), List.map_cons, List.map_cons, ih h,
      List.map_cons, traits?, hn, Option.map_some]

theorem names_of_traits {pins : List NodeId} {names : List String} {r : Role}
    (h : ∀ id ∈ pins, nl.role? id = some r)
    (ht : pins.map nl.traits? = (names.map ((r, ·))).map some) :
    (pins.filterMap fun id => (nl.node? id).map (·.name)) = names := by
  rw [← traits_pins h] at ht
  have hpairs := List.map_injective_iff.2 (Option.some_injective _) ht
  exact List.map_injective_iff.2 (Prod.mk_right_injective r) hpairs

theorem traits_gates (nl : Netlist Gate) :
    ((nl.gates.map (·.2)).map fun g => (Role.gate g, g.name)).map some =
      (nl.gates.map (·.1)).map nl.traits? := by
  rw [List.map_map, List.map_map, List.map_map]
  apply List.map_congr_left
  intro entry hm
  obtain ⟨node, hn, hk⟩ := gate?_eq_some.1 (mem_gates.1 hm)
  simp only [Function.comp_apply, traits?, hn, Option.map_some, hk, NodeKind.role, Node.name]

/-- The nodes of a kept netlist are all there before the first kept link is made. -/
theorem WellFormed.exists_transferred (hw : nl.WellFormed) {registry : Registry}
    (hr : nl.ResolvedBy registry) (name : String) (metadata : Metadata) :
    ∃ target, nl.Transferred target ∧
      (GateDef.ofNetlist name nl metadata).toNetlist registry =
        GateDef.connect ((nl.gates.map (·.1)).map nl.renumber) (nl.inputs.map nl.renumber)
          (nl.outputs.map nl.renumber) target (GateDef.ofNetlist name nl metadata).links := by
  have hin := traits_pins fun id => (hw.mem_inputs id).1
  have hout := traits_pins fun id => (hw.mem_outputs id).1
  obtain ⟨target, hlaid, hconnect⟩ :=
    GateDef.exists_laid (GateDef.ofNetlist name nl metadata) hr.resolveAll_gates
  refine ⟨target, hlaid.transferred hw ?_, ?_⟩
  · rw [List.map_append, List.map_append, listing, List.map_append, List.map_append]
    exact congrArg₂ _ (congrArg₂ _ hin hout) nl.traits_gates
  · have hinLength : (GateDef.ofNetlist name nl metadata).inputs.length = nl.inputs.length := by
      have hlength := congrArg List.length hin
      simp only [List.length_map] at hlength
      exact hlength
    have houtLength : (GateDef.ofNetlist name nl metadata).outputs.length = nl.outputs.length := by
      have hlength := congrArg List.length hout
      simp only [List.length_map] at hlength
      exact hlength
    obtain ⟨hinputs, houtputs, hgates⟩ := nl.listing_parts
    rw [hconnect, hinLength, houtLength, hw.map_renumber hinputs, hw.map_renumber houtputs,
      hw.map_renumber hgates, List.length_append, List.length_map, List.length_map]
    rfl

theorem Transferred.connect (h : nl.Transferred target) (hw : nl.WellFormed) (name : String)
    (metadata : Metadata) :
    ∃ places, (∀ place, place ∈ places ↔ nl.IsMoved place) ∧
      GateDef.connect ((nl.gates.map (·.1)).map nl.renumber) (nl.inputs.map nl.renumber)
        (nl.outputs.map nl.renumber) target (GateDef.ofNetlist name nl metadata).links =
          .ok (target.setSlots places) := by
  obtain ⟨places, hconnect, hplaces⟩ := GateDef.connect_eq_ok fun kept hm => by
    obtain ⟨id, slot, link, hs, hk⟩ := GateDef.mem_links_ofNetlist.1 hm
    exact ⟨_, hk.ends hw hs nl.renumber, h.linkable hw hs⟩
  refine ⟨places, ?_, hconnect⟩
  intro place
  rw [hplaces]
  constructor
  · intro hm
    obtain ⟨kept, hm, hends⟩ := hm
    obtain ⟨id, slot, link, hs, hk⟩ := GateDef.mem_links_ofNetlist.1 hm
    exact ⟨id, slot, link, hs, hends.unique (hk.ends hw hs nl.renumber)⟩
  · intro hm
    obtain ⟨id, slot, link, hs, rfl⟩ := hm
    obtain ⟨kept, hk⟩ := GateDef.exists_keeps hw hs
    exact ⟨kept, GateDef.mem_links_ofNetlist.2 ⟨id, slot, link, hs, hk⟩, hk.ends hw hs _⟩

/-- A netlist is kept whole: rehydrated with its own gates, it is the same under other handles. -/
theorem WellFormed.rehydrates (hw : nl.WellFormed) {registry : Registry}
    (hr : nl.ResolvedBy registry) (name : String) (metadata : Metadata) :
    ∃ nl', (GateDef.ofNetlist name nl metadata).toNetlist registry = .ok nl' ∧
      nl.Isomorphic nl' nl.renumber := by
  obtain ⟨target, htransferred, hconnect⟩ := hw.exists_transferred hr name metadata
  obtain ⟨places, hplaces, hconnected⟩ := htransferred.connect hw name metadata
  have hmade := hconnect.trans hconnected
  exact ⟨_, hmade,
    htransferred.isomorphic hw (reachable_toNetlist hmade).wellFormed hplaces⟩

end Netlist

end Breadboard
