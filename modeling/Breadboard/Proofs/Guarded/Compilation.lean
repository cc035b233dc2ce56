import Breadboard.Proofs.Compilation.Internals
import Breadboard.Proofs.Guarded.Copies
import Breadboard.Proofs.Guarded.Gates

namespace Breadboard

open Netlist

namespace Guarded

/-- Every listed node is one of the keys of a map. -/
def findAll (keys ids : List NodeId) : Except Fault Unit :=
  require (∀ id ∈ ids, id ∈ keys) (.unmapped ((ids.find? (· ∉ keys)).getD 0))

/-- The islands after one more output. -/
def addIsland (nl : Netlist Gate) (inputs outputs : List NodeId) (islands : List Island)
    (output : NodeId) : Except Fault (Except Obstacle (List Island)) :=
  match nl.explore inputs (islands.flatMap (·.nodes)) [(output, nl.slots output)] {} with
  | .error obstacle => .ok (.error obstacle)
  | .ok cone => do
    findAll (islands.flatMap (·.nodes)) cone.touched
    let meets (island : Island) := cone.touched.any (· ∈ island.nodes)
    let merged := islands.filter meets
    let reads := cone.inputs ++ merged.flatMap (·.inputs)
    let produces := output :: merged.flatMap (·.outputs)
    findAll inputs reads
    findAll outputs produces
    .ok (.ok (islands.filter (!meets ·) ++
      [{ inputs := inputs.filter (· ∈ reads)
         outputs := outputs.filter (· ∈ produces)
         nodes := cone.nodes ++ merged.flatMap (·.nodes) }]))

def addIslands (nl : Netlist Gate) (inputs outputs : List NodeId) :
    List NodeId → List Island → Except Fault (Except Obstacle (List Island))
  | [], islands => .ok (.ok islands)
  | output :: rest, islands => do
    match ← addIsland nl inputs outputs islands output with
    | .error obstacle => .ok (.error obstacle)
    | .ok islands => addIslands nl inputs outputs rest islands

def decompose (nl : Netlist Gate) (inputs outputs : List NodeId) :
    Except Fault (Except BoundaryError Decomposition) :=
  match nl.checkBoundary inputs outputs with
  | .error cause => .ok (.error cause)
  | .ok () => do
    match ← addIslands nl inputs outputs outputs [] with
    | .error (.rejected cause) => .ok (.error cause)
    | .error (.fallback reason) => .ok (.ok (.fallback reason))
    | .ok islands =>
      match islands.find? (maxTableInputs < ·.inputs.length) with
      | some island => .ok (.ok (.fallback (.tableTooLarge island.inputs.length)))
      | none => .ok (.ok (.islands islands))

/-- The outputs of an island for one row of its inputs. -/
def islandRow (nl : Netlist Gate) (island : Island) (row : Bits) : Except Fault (Metered Bits) := do
  let answer ← readPins (within nl none) (Context.withPins (island.inputs.zip row)) island.outputs
  .ok ⟨answer.value, answer.calls⟩

def islandTable (nl : Netlist Gate) (inputs outputs : List NodeId) (island : Island) :
    Except Fault (Metered GateTable) :=
  tabulate (positions inputs island.inputs) (positions outputs island.outputs) fun key => do
    islandRow nl island (← unpack key island.inputs.length)

/-- The gate made of the tables of islands. -/
def tabledGate (nl : Netlist Gate) (name : String) (inputs outputs : List NodeId)
    (metadata : Metadata) (islands : List Island) :
    Except Fault (Metered (Except BoundaryError Gate)) := do
  let tables ← islands.mapM (islandTable nl inputs outputs)
  let names := nl.gateNames (islands.flatMap (·.nodes))
  let logic ← route (tables.map (·.value)) outputs.length
  .ok
    { value := .ok
        { name
          inputs := nl.pinNames inputs
          outputs := nl.pinNames outputs
          logic := .tables logic
          metadata := (metadata.insert Metadata.hierarchical (.bool false)).insert
            Metadata.dependencies (.strings names) }
      calls := tables.reverse.flatMap (·.calls) }

/-- The gate made of a copy of the nodes behind the boundary. -/
def hierarchicalGate (nl : Netlist Gate) (name : String) (inputs outputs : List NodeId)
    (metadata : Metadata) : Except Fault (Except BoundaryError Gate) :=
  match nl.closure inputs outputs with
  | .error cause => .ok (.error cause)
  | .ok nodes => do
    match ← extract nl nodes with
    | .error cause => .ok (.error (.refused cause))
    | .ok (internals, _) => .ok (.ok
      { name
        inputs := nl.pinNames inputs
        outputs := nl.pinNames outputs
        logic := .hierarchical internals
        metadata := ((metadata.insert Metadata.hierarchical (.bool true)).insert
          Metadata.dependencies (.strings (nl.gateNames nodes))).insert
          Metadata.internalNodes (.ofNat internals.size) })

def compileBetween (nl : Netlist Gate) (name : String) (inputs outputs : List NodeId)
    (metadata : Metadata) : Except Fault (Metered (Except CompileError Gate)) := do
  let answer : Metered (Except BoundaryError Gate) ←
    match ← decompose nl inputs outputs with
    | .error cause => .ok ⟨.error cause, []⟩
    | .ok (.islands islands) => tabledGate nl name inputs outputs metadata islands
    | .ok (.fallback _) => do .ok ⟨← hierarchicalGate nl name inputs outputs metadata, []⟩
  .ok ⟨answer.value.mapError (⟨name, ·⟩), answer.calls⟩

variable {nl : Netlist Gate} {inputs outputs added : List NodeId} {islands : List Island}
  {output : NodeId} {island : Island}

theorem findAll_eq {keys ids : List NodeId} (h : ids ⊆ keys) : findAll keys ids = .ok () :=
  require_eq (fun _ hid => h hid) _

/-- The pins that an island takes over are pins of the boundary. -/
theorem addIsland_eq (hw : nl.WellFormed) (hi : nl.IslandsOf inputs outputs added islands)
    (ho : output ∈ outputs) :
    addIsland nl inputs outputs islands output =
      .ok (nl.addIsland inputs outputs islands output) := by
  unfold addIsland Netlist.addIsland
  cases he : nl.explore inputs (islands.flatMap (·.nodes)) [(output, nl.slots output)] {} with
  | error obstacle => rfl
  | ok cone =>
    have hx := hi.exploring hw he
    have hmerged {pins : List NodeId} {f : Island → List NodeId}
        (hf : ∀ m ∈ islands, f m ⊆ pins) (p : Island → Bool) :
        (islands.filter p).flatMap f ⊆ pins := by
      intro id hid
      obtain ⟨m, hm, hid⟩ := List.mem_flatMap.1 hid
      exact hf m (List.mem_of_mem_filter hm) hid
    have hreads := hmerged fun m hm => (hi.exact m hm).inputs_listed.subset
    have hproduces := hmerged fun m hm => (hi.exact m hm).outputs_listed.subset
    dsimp only
    rw [findAll_eq fun id hid => (hx.touched id hid).1, ok_bind,
      findAll_eq (List.append_subset.2 ⟨fun id hid => (hx.inputs id hid).1, hreads _⟩), ok_bind,
      findAll_eq (List.cons_subset.2 ⟨ho, hproduces _⟩), ok_bind]

theorem addIslands_eq (hw : nl.WellFormed) {rest : List NodeId}
    (hi : nl.IslandsOf inputs outputs added islands) (hs : rest ⊆ outputs)
    (hn : (added ++ rest).Nodup) :
    addIslands nl inputs outputs rest islands =
      .ok (nl.addIslands inputs outputs rest islands) := by
  induction rest generalizing added islands with
  | nil => rfl
  | cons output rest ih =>
    obtain ⟨ho, hrest⟩ := List.cons_subset.1 hs
    rw [addIslands, addIsland_eq hw hi ho, ok_bind, Netlist.addIslands]
    cases ha : nl.addIsland inputs outputs islands output with
    | error obstacle => rfl
    | ok next =>
      rw [← List.singleton_append, ← List.append_assoc] at hn
      have hnew : output ∉ added := fun hm =>
        List.disjoint_of_nodup_append (List.nodup_append'.1 hn).1 hm (List.mem_singleton_self _)
      exact ih (addIsland_islandsOf hw hi ho hnew ha) hrest hn

theorem decompose_eq (hw : nl.WellFormed) (inputs outputs : List NodeId) :
    decompose nl inputs outputs = .ok (nl.decompose inputs outputs) := by
  unfold decompose Netlist.decompose
  cases hb : nl.checkBoundary inputs outputs with
  | error cause => rfl
  | ok _ =>
    obtain ⟨_, _, hn⟩ := checkBoundary_eq_ok hb
    dsimp only
    rw [addIslands_eq hw (islandsOf_nil nl inputs outputs) (fun _ h => h) (by simpa using hn),
      ok_bind]
    cases nl.addIslands inputs outputs outputs [] with
    | error obstacle => cases obstacle <;> rfl
    | ok islands =>
      dsimp only
      cases islands.find? (maxTableInputs < ·.inputs.length) <;> rfl

theorem islandRow_eq (hs : nl.Sound) (island : Island) (row : Bits) :
    islandRow nl island row = .ok (nl.islandRow island row) := by
  have hu : (Context.withPins (island.inputs.zip row)).Usable nl := Context.usable_fresh nl _
  rw [islandRow, (runs_readPins (hs.safe none) hu island.outputs).eq]
  rfl

theorem islandTable_eq (hs : nl.Sound) (he : nl.ExactIsland inputs outputs island)
    (hn : island.inputs.length ≤ maxTableInputs) :
    islandTable nl inputs outputs island = .ok (nl.islandTable inputs outputs island) ∧
      (nl.islandTable inputs outputs island).value.Sound inputs.length := by
  have hwidth : island.inputs.length < wordSize := Nat.lt_of_le_of_lt hn (by decide)
  have hin : positions inputs island.inputs = island.inputs.map (inputs.idxOf ·) :=
    positions_eq he.inputs_listed.subset
  have hout : positions outputs island.outputs = island.outputs.map (outputs.idxOf ·) :=
    positions_eq he.outputs_listed.subset
  have hcount : (positions inputs island.inputs).length = island.inputs.length := by
    rw [hin, List.length_map]
  have hrow (row : Bits) :
      (nl.islandRow island row).value.length = (positions outputs island.outputs).length := by
    rw [hout, List.length_map]
    exact Surroundings.length_readPins ..
  have hentry : ∀ key < Nat.pow 2 (positions inputs island.inputs).length,
      (do islandRow nl island (← unpack key island.inputs.length)) =
        Except.ok (nl.islandRow island (Bits.unpack key island.inputs.length)) := by
    intro key _
    rw [unpack_eq (Nat.le_of_lt hwidth), ok_bind, islandRow_eq hs]
  constructor
  · rw [islandTable, tabulate_eq (hcount ▸ hwidth) hentry fun _ _ => hrow _]
    simp only [Netlist.islandTable, Bits.all, hcount, List.map_map]
    rfl
  · refine ⟨?_, ?_, ?_, ?_⟩
    · exact hcount ▸ Nat.le_of_lt hwidth
    · change ∀ i ∈ positions inputs island.inputs, i < inputs.length
      rw [hin]
      intro i hi
      obtain ⟨id, hid, rfl⟩ := List.mem_map.1 hi
      exact List.idxOf_lt_length_of_mem (he.inputs_listed.subset hid)
    · simp [Netlist.islandTable, Bits.all, hcount]
    · intro row hm
      simp only [Netlist.islandTable, List.mem_map, List.map_map] at hm
      obtain ⟨key, _, rfl⟩ := hm
      exact hrow key

variable {name : String} {metadata : Metadata} {g : Gate}

/-- The tables of the islands produce every output of the gate. -/
theorem mem_outputs_islandTable (hn : outputs.Nodup)
    (hi : nl.IslandsOf inputs outputs outputs islands) {o : Nat} :
    (∃ t ∈ (islands.map (nl.islandTable inputs outputs)).map (·.value), o ∈ t.outputs) ↔
      o < outputs.length := by
  have hout (island : Island) (hm : island ∈ islands) :
      (nl.islandTable inputs outputs island).value.outputs =
        island.outputs.map (outputs.idxOf ·) :=
    positions_eq (hi.exact island hm).outputs_listed.subset
  simp only [List.mem_map, exists_exists_and_eq_and]
  constructor
  · intro hmem
    obtain ⟨island, hm, ho⟩ := hmem
    rw [hout island hm] at ho
    obtain ⟨id, hid, rfl⟩ := List.mem_map.1 ho
    exact List.idxOf_lt_length_of_mem ((hi.exact island hm).outputs_listed.subset hid)
  · intro hlt
    obtain ⟨island, hm, hid⟩ := (hi.produced outputs[o]).1 (List.getElem_mem hlt)
    refine ⟨island, hm, ?_⟩
    rw [hout island hm]
    exact List.mem_map.2 ⟨_, hid, hn.idxOf_getElem o hlt⟩

theorem tabledGate_eq (hs : nl.Sound) (hn : outputs.Nodup)
    (hi : nl.IslandsOf inputs outputs outputs islands)
    (hl : ∀ island ∈ islands, island.inputs.length ≤ maxTableInputs) :
    tabledGate nl name inputs outputs metadata islands =
        .ok (nl.tabledGate name inputs outputs metadata islands) ∧
      ∀ g, (nl.tabledGate name inputs outputs metadata islands).value = .ok g → g.Sound := by
  have htable (island : Island) (hm : island ∈ islands) :=
    islandTable_eq hs (hi.exact island hm) (hl island hm)
  have hmem {o : Nat} := mem_outputs_islandTable (o := o) hn hi
  obtain ⟨logic, hof, hroute, htables, hcount, hroutes⟩ :=
    route_eq (fun t ht o ho => hmem.1 ⟨t, ht, ho⟩) fun o ho => hmem.2 ho
  constructor
  · rw [tabledGate, mapM_eq_ok fun island hm => (htable island hm).1, ok_bind, hroute, ok_bind]
    simp only [Netlist.tabledGate, hof]
  · intro g hg
    simp only [Netlist.tabledGate, hof] at hg
    obtain rfl := Except.ok.inj hg
    refine .tables rfl ⟨?_, htables ▸ hroutes, ?_⟩
    · rw [htables]
      intro t ht
      rw [List.map_map] at ht
      obtain ⟨island, hm, rfl⟩ := List.mem_map.1 ht
      simpa [pinNames] using (htable island hm).2
    · simpa [pinNames] using hcount

theorem hierarchicalGate_eq (nl : Netlist Gate) (name : String) (inputs outputs : List NodeId)
    (metadata : Metadata) :
    hierarchicalGate nl name inputs outputs metadata =
      .ok (nl.hierarchicalGate name inputs outputs metadata) := by
  unfold hierarchicalGate Netlist.hierarchicalGate
  cases nl.closure inputs outputs with
  | error cause => rfl
  | ok nodes =>
    dsimp only
    rw [extract_eq, ok_bind]
    cases nl.extract nodes <;> rfl

theorem compileBetween_eq (hs : nl.Sound) (name : String) (inputs outputs : List NodeId)
    (metadata : Metadata) :
    compileBetween nl name inputs outputs metadata =
      .ok (nl.compileBetween name inputs outputs metadata) := by
  unfold compileBetween Netlist.compileBetween
  rw [decompose_eq hs.wellFormed, ok_bind]
  cases hd : nl.decompose inputs outputs with
  | error cause => rfl
  | ok decomposition =>
    cases decomposition with
    | islands islands =>
      obtain ⟨hb, _, hl⟩ := decompose_eq_islands hd
      obtain ⟨_, _, hn⟩ := checkBoundary_eq_ok hb
      dsimp only
      rw [(tabledGate_eq hs hn (hs.wellFormed.islandsOf_decompose hd) hl).1, ok_bind]
    | fallback reason =>
      dsimp only
      rw [hierarchicalGate_eq, ok_bind, ok_bind]

/-- Sound gates compile to sound gates. -/
theorem sound_compileBetween (hs : nl.Sound)
    (hg : (nl.compileBetween name inputs outputs metadata).value = .ok g) : g.Sound := by
  obtain ⟨hb, hform⟩ := compileBetween_cases hg
  obtain ⟨_, _, hn⟩ := checkBoundary_eq_ok hb
  rcases hform with ⟨islands, hd, ht⟩ | hh
  · exact (tabledGate_eq hs hn (hs.wellFormed.islandsOf_decompose hd)
      (decompose_eq_islands hd).2.2).2 g ht
  · obtain ⟨_, _, part, _, _, _, hlogic⟩ := hierarchicalGate_cases hh
    obtain ⟨hw, hcount, hplaced⟩ := gate_internal hs.wellFormed hg hlogic
    refine .hierarchical hlogic hw hcount fun hr => ?_
    obtain ⟨_, original, ho⟩ := hplaced hr
    exact hs.made original _ ho

end Guarded

end Breadboard
