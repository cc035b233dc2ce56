import Breadboard.Compilation.Compile
import Breadboard.Proofs.Compilation.Islands
import Breadboard.Proofs.Evaluation.Agreement

namespace Breadboard

open Relation Netlist Surroundings

theorem pairwise_zipIdx {α : Type} (as : List α) : as.zipIdx.Pairwise (·.2 < ·.2) := by
  rw [← List.pairwise_map, List.zipIdx_map_snd]
  exact List.pairwise_lt_range'

namespace TableLogic

variable {tables : List GateTable} {logic : TableLogic}

theorem lastPlace?_eq_some {output i j : Nat} (h : lastPlace? tables output = some (i, j)) :
    ∃ table, tables[i]? = some table ∧ table.outputs[j]? = some output := by
  obtain ⟨place, hf, hp⟩ := Option.map_eq_some_iff.1 h
  have hm := List.mem_reverse.1 (List.mem_of_find?_eq_some hf)
  have ho := List.find?_some hf
  obtain ⟨⟨table, id⟩, ht, hm⟩ := List.mem_flatMap.1 hm
  obtain ⟨⟨o, position⟩, hout, rfl⟩ := List.mem_map.1 hm
  obtain ⟨rfl, rfl⟩ := Prod.mk.inj hp
  rw [beq_iff_eq] at ho
  exact ⟨table, List.mem_zipIdx_iff_getElem?.1 ht, ho ▸ List.mem_zipIdx_iff_getElem?.1 hout⟩

theorem routesOf_eq_ok {outputs : List Nat} {routes : List (Nat × Nat)}
    (h : routesOf tables outputs = .ok routes) :
    routes.map some = outputs.map (lastPlace? tables) := by
  induction outputs generalizing routes with
  | nil => rw [← Except.ok.inj h]; rfl
  | cons output outputs ih =>
    rw [routesOf] at h
    cases hp : lastPlace? tables output with
    | none => simp [hp] at h
    | some place =>
      rw [hp] at h
      cases hr : routesOf tables outputs with
      | error o =>
        rw [hr] at h
        cases h
      | ok others =>
        rw [hr] at h
        rw [← Except.ok.inj h, List.map_cons, List.map_cons, ih hr, hp]

/-- Each output of the logic has a route to a place at which a table lists it. -/
theorem exists_route {n : Nat} (h : ofTables tables n = .ok logic) :
    logic.tables = tables ∧ logic.routes.length = n ∧ ∀ k < n, ∃ i j table,
      logic.routes[k]? = some (i, j) ∧ tables[i]? = some table ∧ table.outputs[j]? = some k := by
  rw [ofTables] at h
  cases hr : routesOf tables (List.range n) with
  | error o =>
    rw [hr] at h
    cases h
  | ok routes =>
    rw [hr] at h
    obtain rfl := Except.ok.inj h
    have hroutes := routesOf_eq_ok hr
    have hlength := congrArg List.length hroutes
    simp only [List.length_map, List.length_range] at hlength
    refine ⟨rfl, hlength, ?_⟩
    intro k hk
    have hplace := congrArg (·[k]?) hroutes
    simp only [List.getElem?_map, List.getElem?_range hk, Option.map_some] at hplace
    obtain ⟨⟨i, j⟩, hroute, hlast⟩ := Option.map_eq_some_iff.1 hplace
    obtain ⟨table, ht, hj⟩ := lastPlace?_eq_some hlast.symm
    exact ⟨i, j, table, hroute, ht, hj⟩

/-- Every output of the gate is looked up in some table that lists it. -/
theorem ofTables_compute {n : Nat} (h : ofTables tables n = .ok logic) (x : Bits) :
    (logic.compute x).length = n ∧ ∀ k < n, ∃ table ∈ tables, ∃ j, table.outputs[j]? = some k ∧
      (logic.compute x)[k]? = some ((table.lookup x).getD j false) := by
  obtain ⟨rfl, hlength, hroutes⟩ := exists_route h
  refine ⟨by rw [compute, List.length_map, hlength], ?_⟩
  intro k hk
  obtain ⟨i, j, table, hroute, ht, hj⟩ := hroutes k hk
  refine ⟨table, List.mem_of_getElem? ht, j, hj, ?_⟩
  simp only [compute, List.getElem?_map, hroute, Option.map_some, List.getD_eq_getElem?_getD, ht,
    Option.getD_some]

/-- The table of an output is one that lists it. -/
theorem exists_tableFor? {n k : Nat} (h : ofTables tables n = .ok logic) (hk : k < n) :
    ∃ table ∈ tables, k ∈ table.outputs ∧ logic.tableFor? k = some table := by
  obtain ⟨rfl, _, hroutes⟩ := exists_route h
  obtain ⟨i, j, table, hroute, ht, hj⟩ := hroutes k hk
  refine ⟨table, List.mem_of_getElem? ht, List.mem_of_getElem? hj, ?_⟩
  rw [tableFor?, hroute, Option.bind_some]
  exact ht

end TableLogic

namespace Netlist

variable {nl nl' : Netlist Gate} {inputs outputs : List NodeId} {island : Island}

theorem positions_eq {pins islandPins : List NodeId} (h : islandPins ⊆ pins) :
    positions pins islandPins = islandPins.map (pins.idxOf ·) := by
  rw [positions, ← List.filterMap_eq_map]
  apply List.filterMap_congr
  intro id hid
  obtain ⟨k, hk⟩ := Option.isSome_iff_exists.1 (List.isSome_idxOf?.2 (h hid))
  rw [hk, Function.comp_apply, List.idxOf_eq_getD_idxOf?, hk, Option.getD_some]

/-- The values of the pins of an island in a row of values for the listed inputs. -/
def islandBits (inputs : List NodeId) (island : Island) (x : Bits) : Bits :=
  island.inputs.map fun id => x.getD (inputs.idxOf id) false

/-- Looking up a row is evaluating the island for it. -/
theorem lookup_islandTable (hs : island.inputs ⊆ inputs) (x : Bits) :
    (nl.islandTable inputs outputs island).value.lookup x =
      (nl.islandRow island (islandBits inputs island x)).value := by
  have hkey : (nl.islandTable inputs outputs island).value.key x =
      Bits.pack (islandBits inputs island x) := by
    simp only [GateTable.key, islandTable, positions_eq hs, List.map_map, islandBits]
    rfl
  have hlength : (islandBits inputs island x).length = island.inputs.length := List.length_map ..
  have hlt : Bits.pack (islandBits inputs island x) < Nat.pow 2 island.inputs.length :=
    hlength ▸ Bits.pack_lt _
  rw [GateTable.lookup, hkey, GateTable.row]
  simp only [islandTable, Bits.all, Array.getD_eq_getD_getElem?, List.getElem?_toArray,
    List.getElem?_map, List.getElem?_range hlt, Option.map_some, Option.getD_some]
  rw [← hlength, Bits.unpack_pack]

namespace ExactIsland

variable (hw : nl.WellFormed) (hi : nl.ExactIsland inputs outputs island) {o b : NodeId}

include hw hi

/-- What an output of an island depends on is in the island. -/
theorem mem_of_transGen (ho : o ∈ island.outputs) (hp : TransGen nl.Reads o b) :
    b ∈ island.nodes ∨ nl.role? b = some .input ∧ b ∈ island.inputs := by
  obtain ⟨c, hc, hr⟩ := TransGen.tail'_iff.1 hp
  rcases hw.role?_of_reads hr with hg | hrole
  · exact .inl ((hi.nodes b).2 ⟨hg, o, ho, hp⟩)
  · have hreader : c ∈ island.nodes ∨ c ∈ island.outputs := by
      rcases reflTransGen_iff_eq_or_transGen.1 hc with rfl | hc
      · exact .inr ho
      · obtain ⟨d, _, hd⟩ := TransGen.tail'_iff.1 hc
        exact .inl ((hi.nodes c).2 ⟨hw.gate_of_reads_reads hd hr, o, ho, hc⟩)
    exact .inr ⟨hrole, (hi.pins b).2 ⟨hrole, c, hreader, hr⟩⟩

theorem stateless_output (ho : o ∈ island.outputs) (hrole : nl.role? o = some .output) :
    nl.Stateless o := by
  intro b hp
  rcases reflTransGen_iff_eq_or_transGen.1 hp with rfl | hp
  · exact isHierarchical_of_not_gate fun hg => hg.role?_ne_output hrole
  · rcases hi.mem_of_transGen hw ho hp with hn | ⟨hin, _⟩
    · exact hi.stateless b hn
    · exact isHierarchical_of_not_gate fun hg => hg.role?_ne_input hin

end ExactIsland

section

variable {before : Option Context} {ctx : Context} {x : Bits}
  (hw : nl.WellFormed) (ha : Alike nl nl') (hw' : nl'.WellFormed)
  (hn : inputs.Nodup) (hout : ∀ o ∈ outputs, nl.role? o = some .output)
  (hs : ctx.Settled (nl'.within before)) (hx : nl'.Shows inputs outputs ctx x)

include hw ha hw' hn hout hs hx

/-- An island that is evaluated in a context of its own shows what the whole netlist shows. -/
theorem islandRow_eq (hi : nl.ExactIsland inputs outputs island) :
    (nl.islandRow island (islandBits inputs island x)).value =
      island.outputs.map (ctx.shown nl') := by
  have hlength : (islandBits inputs island x).length = island.inputs.length := List.length_map ..
  obtain ⟨hrow, hext, hvalue, hcached⟩ := readPins_settled (s := nl.within none) hw
    (Context.settled_withPins _ (island.inputs.zip (islandBits inputs island x))) island.outputs
  refine hvalue.trans (List.map_congr_left fun o ho => ?_)
  have hrole := hout o (hi.outputs_listed.subset ho)
  have he : nl.Embeds nl' (fun _ => True) id := ha.embeds fun _ _ => trivial
  refine (shown_agree he hw hw' hrow hs (hi.grounded o (.inr ho)) trivial
    (hi.stateless_output hw ho hrole) (fun b pin pin' hp hpin hpin' => ?_) (hcached o ho)
    fun link hl => hx.cached o (hi.outputs_listed.subset ho) link hl).symm
  have hb : b ∈ island.inputs := by
    rcases reflTransGen_iff_eq_or_transGen.1 hp with rfl | hp
    · simp [role?_of_inputPin? hpin] at hrole
    · rcases hi.mem_of_transGen hw ho hp with hb | ⟨_, hb⟩
      · exact absurd (role?_of_inputPin? hpin) ((hi.nodes b).1 hb).1.role?_ne_input
      · exact hb
  -- the value of the pin at its place in the island and at its place in the boundary
  obtain ⟨k, hk⟩ := List.mem_iff_getElem?.1 hb
  have hbit : (islandBits inputs island x)[k]? = some (x.getD (inputs.idxOf b) false) := by
    rw [islandBits, List.getElem?_map, hk, Option.map_some]
  have hplace : inputs[inputs.idxOf b]? = some b :=
    List.getElem?_idxOf (hi.inputs_listed.subset hb)
  have hvalue := Context.pinValue_withPins (hn.sublist hi.inputs_listed) hlength hk pin
  rw [hbit, List.getD_eq_getElem?_getD, hx.pins _ b pin' hplace hpin', Option.getD_some] at hvalue
  rw [hext.pinValue]
  exact Option.some.inj hvalue

theorem tabledGate_compute {islands : List Island}
    (hi : nl.IslandsOf inputs outputs outputs islands) {name : String} {metadata : Metadata}
    {g : Gate} (hg : (nl.tabledGate name inputs outputs metadata islands).value = .ok g)
    (current : Context) (previous : Option Context) :
    (g.compute x current previous).value = outputs.map (ctx.shown nl') := by
  unfold tabledGate at hg
  dsimp only at hg
  cases hl : TableLogic.ofTables
      ((islands.map (nl.islandTable inputs outputs)).map (·.value)) outputs.length with
  | error o =>
    rw [hl] at hg
    cases hg
  | ok logic =>
    rw [hl] at hg
    obtain rfl := Except.ok.inj hg
    rw [Gate.compute_tables rfl]
    obtain ⟨hlength, hcompute⟩ := TableLogic.ofTables_compute hl x
    apply List.ext_getElem?
    intro k
    by_cases hk : k < outputs.length
    · obtain ⟨table, ht, j, hj, hv⟩ := hcompute k hk
      rw [List.map_map] at ht
      obtain ⟨island, hm, rfl⟩ := List.mem_map.1 ht
      have he := hi.exact island hm
      dsimp only [islandTable, Function.comp_apply] at hj
      rw [positions_eq he.outputs_listed.subset, List.getElem?_map] at hj
      obtain ⟨o, ho, hidx⟩ := Option.map_eq_some_iff.1 hj
      have hmem := he.outputs_listed.subset (List.mem_of_getElem? ho)
      have hok : outputs[k]? = some o := hidx ▸ List.getElem?_idxOf hmem
      rw [hv, Function.comp_apply, lookup_islandTable he.inputs_listed.subset,
        islandRow_eq hw ha hw' hn hout hs hx he, List.getElem?_map, hok,
        List.getD_eq_getElem?_getD, List.getElem?_map, ho]
      rfl
    · rw [List.getElem?_eq_none (by rw [hlength]; omega),
        List.getElem?_eq_none (by rw [List.length_map]; omega)]

end

/-- A gate made of tables computes what the outputs show in a tick, whatever was before. -/
theorem tabledGate_readPins (hw : nl.WellFormed) (hn : inputs.Nodup)
    (hout : ∀ o ∈ outputs, nl.role? o = some .output) {islands : List Island}
    (hi : nl.IslandsOf inputs outputs outputs islands) {name : String} {metadata : Metadata}
    {g : Gate} (hg : (nl.tabledGate name inputs outputs metadata islands).value = .ok g) {x : Bits}
    (hx : x.length = inputs.length) (current : Context) (before previous : Option Context) :
    (g.compute x current before).value =
      ((nl.within previous).readPins (Context.withPins (inputs.zip x)) outputs).value := by
  obtain ⟨hs, _, hvalue, _⟩ := readPins_settled (s := nl.within previous) hw
    (Context.settled_withPins _ (inputs.zip x)) outputs
  have hshows := shows_readPins previous outputs hw hn hx
  exact (tabledGate_compute hw (.refl nl) hw hn hout hs hshows hi hg current before).trans
    hvalue.symm

end Netlist

end Breadboard
