import Breadboard.Proofs.Guarded.Compilation
import Breadboard.Proofs.Netlist.Representation
import Breadboard.Proofs.Project.Registering

namespace Breadboard

open Netlist

namespace Guarded

def position (keys : List NodeId) (id : NodeId) : Except Fault Nat :=
  match keys.idxOf? id with
  | some position => .ok position
  | none => .error (.unmapped id)

/-- The kept links to a gate node. -/
def linksTo (nl : Netlist Gate) (id : NodeId) : Except Fault (List LinkDef) := do
  let nodes := nl.gates.map (·.1)
  let dest ← position nodes id
  .ok ((nl.slots id).zipIdx.filterMap fun (slot, index) =>
    GateDef.keptLink nodes nl.inputs (some dest) index slot)

/-- The kept form of a netlist. -/
def ofNetlist (name : String) (nl : Netlist Gate) (metadata : Metadata) : Except Fault GateDef := do
  let nodes := nl.gates.map (·.1)
  let toGates ← nodes.mapM (linksTo nl)
  let toOutputs := nl.outputs.zipIdx.flatMap fun (id, position) =>
    (nl.slots id).filterMap fun slot => GateDef.keptLink nodes nl.inputs none position slot
  .ok
    { name
      nodes := nl.gates.map fun (_, gate) => { gateType := gate.name }
      links := toGates.flatten ++ toOutputs
      inputs := nl.inputs.filterMap fun id => (nl.node? id).map (·.name)
      outputs := nl.outputs.filterMap fun id => (nl.node? id).map (·.name)
      metadata }

def compileDef (d : GateDef) (registry : Registry) :
    Except Fault (Metered (Except DefinitionError Gate)) :=
  match d.toNetlist registry with
  | .error cause => .ok ⟨.error (.rehydration d.name cause), []⟩
  | .ok nl => do
    let answer ← compileBetween nl d.name nl.inputs nl.outputs d.metadata
    .ok ⟨answer.value.mapError .compilation, answer.calls⟩

/-- The definitions in load order; the name of each is looked up when its edges are drawn. -/
def loadOrder (p : Project) : Except Fault (Except LoadError (List GateDef)) :=
  match Project.repeated? [] p.gates with
  | some name => .ok (.error (.definedTwice name))
  | none => do
    let _ ← p.gates.mapM fun d => require ((p.gate? d.name).isSome) (.unnamed d.name)
    .ok p.loadOrder

def loadAll : List GateDef → Registry →
    Except Fault (Metered (Except LoadError (List Registered) × Registry))
  | [], registry => .ok ⟨(.ok [], registry), []⟩
  | d :: ds, registry => do
    let compiled ← compileDef d registry
    match compiled.value with
    | .error cause => .ok ⟨(.error (.definition cause), registry), compiled.calls⟩
    | .ok gate =>
      match registry.register gate with
      | .error cause => .ok ⟨(.error (.registration cause), registry), compiled.calls⟩
      | .ok (entry, registry) =>
        let rest ← loadAll ds registry
        .ok ⟨(rest.value.1.map (entry :: ·), rest.value.2), rest.calls ++ compiled.calls⟩

def load (p : Project) (registry : Registry) :
    Except Fault (Metered (Except LoadError (List Registered) × Registry)) := do
  match ← loadOrder p with
  | .error cause => .ok ⟨(.error cause, registry), []⟩
  | .ok definitions => loadAll definitions registry

end Guarded

/-- What is found after some names were bound was there before, or was bound to the name. -/
theorem Named.of_get?_insertAll {α : Type} {m : Named α} {bindings : List (String × α)}
    {name : String} {value : α} (h : (m.insertAll bindings).get? name = some value) :
    m.get? name = some value ∨ (name, value) ∈ bindings := by
  induction bindings generalizing m with
  | nil => exact .inl h
  | cons binding bindings ih =>
    rcases ih (m := m.insert binding.1 binding.2) h with hf | hf
    · rw [get?_insert] at hf
      split at hf
      · next hn =>
        obtain rfl := Option.some.inj hf
        exact .inr (List.mem_cons.2 (.inl (hn ▸ rfl)))
      · exact .inl hf
    · exact .inr (List.mem_cons_of_mem _ hf)

/-- A registry of sound gates. -/
def Registry.Sound (r : Registry) : Prop :=
  ∀ name entry, r.get? name = some entry → entry.gate.Sound

namespace Registry

variable {r r' : Registry} {entry : Registered} {g : Gate}

theorem sound_empty (policy : ConflictPolicy) : (Registry.empty policy).Sound :=
  fun _ _ h => nomatch h

theorem sound_standard (policy : ConflictPolicy) : (Registry.standard policy).Sound := by
  intro name entry hf
  rcases Named.of_get?_insertAll hf with he | he
  · cases he
  · obtain ⟨p, _, hp⟩ := List.mem_map.1 he
    obtain ⟨_, rfl⟩ := Prod.mk.inj hp
    exact p.sound

theorem Sound.registerAgain (h : r.Sound) (hg : entry.gate.Sound)
    (hr : r.registerAgain entry = .ok r') : r'.Sound := by
  intro name found hf
  rw [registerAgain_eq_ok hr, get?_insert] at hf
  split at hf
  · exact Option.some.inj hf ▸ hg
  · exact h name found hf

theorem Sound.register (h : r.Sound) (hg : g.Sound) (hr : r.register g = .ok (entry, r')) :
    entry.gate = g ∧ r'.Sound := by
  unfold Registry.register at hr
  cases ha : Registry.registerAgain { r with count := r.count + 1 } ⟨g, r.count⟩ with
  | error cause => simp [ha, Except.map] at hr
  | ok added =>
    simp only [ha, Except.map, Except.ok.injEq, Prod.mk.injEq] at hr
    obtain ⟨rfl, rfl⟩ := hr
    have hnext : Sound { r with count := r.count + 1 } := h
    exact ⟨rfl, hnext.registerAgain hg ha⟩

end Registry

namespace Guarded

variable {nl : Netlist Gate} {registry : Registry} {d : GateDef} {p : Project}

theorem position_eq {keys : List NodeId} {id : NodeId} (h : id ∈ keys) :
    position keys id = .ok (keys.idxOf id) := by
  obtain ⟨k, hk⟩ := Option.isSome_iff_exists.1 (List.isSome_idxOf?.2 h)
  rw [position, hk, List.idxOf_eq_getD_idxOf?, hk, Option.getD_some]

theorem zipIdx_eq_map_idxOf {ids : List NodeId} (h : ids.Nodup) :
    ids.zipIdx = ids.map fun id => (id, ids.idxOf id) := by
  refine List.ext_getElem (by simp) fun i hi _ => ?_
  simp only [List.getElem_zipIdx, List.getElem_map, Nat.zero_add]
  rw [h.idxOf_getElem]

theorem linksTo_eq {id : NodeId} (hid : id ∈ nl.gates.map (·.1)) :
    linksTo nl id = .ok ((nl.slots id).zipIdx.filterMap fun (slot, index) =>
      GateDef.keptLink (nl.gates.map (·.1)) nl.inputs (some ((nl.gates.map (·.1)).idxOf id))
        index slot) := by
  rw [linksTo, position_eq hid, ok_bind]

theorem ofNetlist_eq (name : String) (nl : Netlist Gate) (metadata : Metadata) :
    ofNetlist name nl metadata = .ok (GateDef.ofNetlist name nl metadata) := by
  rw [ofNetlist, mapM_eq_ok fun id hid => linksTo_eq hid, ok_bind, GateDef.ofNetlist,
    zipIdx_eq_map_idxOf nl.nodup_gates, List.flatMap_map, ← List.flatMap_def]

theorem sound_toNetlist (hr : registry.Sound) (h : d.toNetlist registry = .ok nl) : nl.Sound :=
  of_toNetlist sound_empty (fun nl e hp h => h.edit fun g he => by
    obtain ⟨name, entry, hf, rfl⟩ := hp g he
    exact hr name entry hf) h

theorem compileDef_eq (hr : registry.Sound) (d : GateDef) :
    compileDef d registry = .ok (d.compile registry) ∧
      ∀ g, (d.compile registry).value = .ok g → g.Sound := by
  unfold compileDef GateDef.compile
  cases ht : d.toNetlist registry with
  | error cause => exact ⟨rfl, nofun⟩
  | ok nl =>
    have hs := sound_toNetlist hr ht
    constructor
    · dsimp only
      rw [compileBetween_eq hs, ok_bind]
      rfl
    · intro g hg
      exact sound_compileBetween hs (ok_of_mapError hg)

theorem loadOrder_eq (p : Project) : loadOrder p = .ok p.loadOrder := by
  unfold loadOrder
  split
  · next name hr => rw [Project.loadOrder, hr]
  · have hnames : ∀ d ∈ p.gates, require ((p.gate? d.name).isSome) (.unnamed d.name) = .ok () := by
      intro d hd
      refine require_eq ?_ _
      rw [Project.gate?, List.find?_isSome]
      exact ⟨d, hd, beq_self_eq_true _⟩
    rw [mapM_eq_ok hnames, ok_bind]

theorem loadAll_eq (hr : registry.Sound) (ds : List GateDef) :
    loadAll ds registry = .ok (Project.loadAll ds registry) ∧
      (Project.loadAll ds registry).value.2.Sound ∧
      ∀ entries, (Project.loadAll ds registry).value.1 = .ok entries →
        ∀ entry ∈ entries, entry.gate.Sound := by
  induction ds generalizing registry with
  | nil =>
    refine ⟨rfl, hr, fun entries he => ?_⟩
    obtain rfl := Except.ok.inj he
    exact List.forall_mem_nil _
  | cons d ds ih =>
    obtain ⟨hcompile, hsound⟩ := compileDef_eq hr d
    rw [loadAll, hcompile, ok_bind, Project.loadAll]
    cases hc : (d.compile registry).value with
    | error cause => exact ⟨rfl, hr, nofun⟩
    | ok g =>
      dsimp only
      cases hg : registry.register g with
      | error cause => exact ⟨rfl, hr, nofun⟩
      | ok added =>
        obtain ⟨entry, next⟩ := added
        obtain ⟨hentry, hnext⟩ := hr.register (hsound g hc) hg
        obtain ⟨hrest, hlast, hentries⟩ := ih hnext
        dsimp only
        rw [hrest, ok_bind]
        refine ⟨rfl, hlast, fun entries he => ?_⟩
        cases ho : (Project.loadAll ds next).value.1 with
        | error cause => simp [ho, Except.map] at he
        | ok others =>
          simp only [ho, Except.map, Except.ok.injEq] at he
          subst he
          exact List.forall_mem_cons.2 ⟨hentry ▸ hsound g hc, hentries others ho⟩

theorem load_eq (hr : registry.Sound) (p : Project) :
    load p registry = .ok (p.load registry) ∧ (p.load registry).value.2.Sound ∧
      ∀ entries, (p.load registry).value.1 = .ok entries →
        ∀ entry ∈ entries, entry.gate.Sound := by
  unfold load Project.load
  rw [loadOrder_eq, ok_bind]
  cases p.loadOrder with
  | error cause => exact ⟨rfl, hr, nofun⟩
  | ok definitions => exact loadAll_eq hr definitions

end Guarded

end Breadboard
