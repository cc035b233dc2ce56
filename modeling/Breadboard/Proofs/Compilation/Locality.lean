import Breadboard.Proofs.Compilation.Renumbering
import Breadboard.Proofs.Compilation.Verdict
import Breadboard.Proofs.Netlist.Edits

namespace Breadboard

open Relation

/-- An edit outside the island of an output: it empties a slot of a node that the island has not, or
removes a gate that it has not. -/
def Edit.Outside (nl : Netlist Gate) (q : NodeId) : Edit → Prop
  | .unlink dest _ => ¬ nl.InIsland nl.outputs q dest
  | .remove id => nl.IsGate id ∧ ¬ nl.InIsland nl.outputs q id
  | _ => False

namespace Netlist

/-- The netlist without some of its gates and links, between the same boundary pins. -/
structure Sparser (nl nl' : Netlist Gate) : Prop where
  inputs : nl'.inputs = nl.inputs
  outputs : nl'.outputs = nl.outputs
  role : ∀ {id r}, nl'.role? id = some r → nl.role? id = some r
  reads : ∀ {a b}, nl'.Reads a b → nl.Reads a b

variable {nl nl' : Netlist Gate} {outputs : List NodeId} {islands islands' : List Island}
  {island island' : Island} {a b o q : NodeId} {e : Edit}

theorem finite_islandReads (nl : Netlist Gate) (outputs : List NodeId) (o : NodeId) :
    {pin | nl.IslandReads outputs o pin}.Finite :=
  (Set.finite_lt_nat nl.next).subset fun _ h => lt_next_of_role? h.1

theorem WellFormed.exists_decompose_own (hw : nl.WellFormed) :
    ∃ verdict, nl.decompose nl.inputs nl.outputs = .ok verdict := by
  have hd := hw.decomposes nl.inputs nl.outputs
  cases hv : nl.decompose nl.inputs nl.outputs with
  | ok verdict => exact ⟨verdict, rfl⟩
  | error cause =>
    rw [hv] at hd
    cases hd with
    | refused hc => cases hc.symm.trans hw.checkBoundary_own
    | rejected _ hb =>
      cases hb with
      | undeclared hu => exact absurd hu hw.not_undeclared_own

namespace Sparser

section

variable (h : nl.Sparser nl')

include h

theorem transGen (hp : TransGen nl'.Reads a b) : TransGen nl.Reads a b :=
  TransGen.mono (fun _ _ hr => h.reads hr) a b hp

theorem behind {ids : List NodeId} (hb : nl'.Behind ids a) : nl.Behind ids a := by
  obtain ⟨⟨g, hg⟩, o, ho, hp⟩ := hb
  exact ⟨⟨g, h.role hg⟩, o, ho, h.transGen hp⟩

theorem combinational (hc : nl.Combinational outputs) : nl'.Combinational outputs where
  acyclic id hb hl := hc.acyclic id (h.behind hb) (h.transGen hl)
  stateless id hb := by
    obtain ⟨g, hg⟩ := hb.1
    rw [isHierarchical_of_role? hg, ← isHierarchical_of_role? (h.role hg)]
    exact hc.stateless id (h.behind hb)

theorem share (hs : nl'.Share outputs a b) : nl.Share outputs a b := by
  obtain ⟨ha, hb, id, hbehind, hbehind'⟩ := hs
  exact ⟨ha, hb, id, h.behind hbehind, h.behind hbehind'⟩

theorem share_path (hp : ReflTransGen (nl'.Share outputs) a b) :
    ReflTransGen (nl.Share outputs) a b :=
  ReflTransGen.mono (fun _ _ hs => h.share hs) a b hp

theorem islandReads (hr : nl'.IslandReads outputs o a) : nl.IslandReads outputs o a := by
  obtain ⟨hrole, reader, ⟨o', hpath, hreader⟩, hread⟩ := hr
  exact ⟨h.role hrole, reader, ⟨o', h.share_path hpath, hreader.imp_right h.behind⟩, h.reads hread⟩

theorem islandWidth_le : nl'.islandWidth outputs o ≤ nl.islandWidth outputs o :=
  Set.ncard_le_ncard (fun _ => h.islandReads) (nl.finite_islandReads outputs o)

/-- With gates and links gone, a netlist that splits into islands does so still. -/
theorem exists_islands (hw : nl.WellFormed) (hw' : nl'.WellFormed)
    (hd : nl.decompose nl.inputs nl.outputs = .ok (.islands islands)) :
    ∃ islands', nl'.decompose nl'.inputs nl'.outputs = .ok (.islands islands') := by
  obtain ⟨verdict, hv⟩ := hw'.exists_decompose_own
  have hdecomposes := hw.decomposes nl.inputs nl.outputs
  have hdecomposes' := hw'.decomposes nl'.inputs nl'.outputs
  rw [hd] at hdecomposes
  rw [hv] at hdecomposes'
  obtain ⟨hc, hsmall⟩ := hdecomposes.split_iff.1 ⟨islands, rfl⟩
  have hsplit : ∃ islands', verdict = .islands islands' := by
    rw [hdecomposes'.split_iff, h.outputs]
    exact ⟨h.combinational hc, fun o ho => h.islandWidth_le.trans (hsmall o ho)⟩
  obtain ⟨islands', rfl⟩ := hsplit
  exact ⟨islands', hv⟩

end

end Sparser

theorem IslandsOf.mem_outputs_iff {inputs : List NodeId}
    (hi : nl.IslandsOf inputs outputs outputs islands) (hm : island ∈ islands)
    (hq : q ∈ island.outputs) (o : NodeId) :
    o ∈ island.outputs ↔ ReflTransGen (nl.Share outputs) q o := by
  have hx := hi.exact island hm
  constructor
  · exact hx.connected q hq o
  · intro hp
    obtain ⟨other, hm', hq', ho⟩ := hi.same_island hp (hx.outputs_listed.subset hq)
    obtain rfl := hi.eq_of_mem_outputs hm' hm hq' hq
    exact ho

theorem IslandsOf.inIsland_iff {inputs : List NodeId}
    (hi : nl.IslandsOf inputs outputs outputs islands) (hm : island ∈ islands)
    (hq : q ∈ island.outputs) :
    nl.InIsland outputs q a ↔ a ∈ island.nodes ∨ a ∈ island.outputs := by
  have hx := hi.exact island hm
  constructor
  · intro hin
    obtain ⟨o, hp, ha⟩ := hin
    have ho := (hi.mem_outputs_iff hm hq o).2 hp
    rcases ha with rfl | hb
    · exact .inr ho
    · exact .inl ((hx.nodes a).2 (hb.mono (by simpa using ho)))
  · intro hmem
    rcases hmem with hn | ho
    · obtain ⟨hg, o, ho, hp⟩ := (hx.nodes a).1 hn
      exact ⟨o, hx.connected q hq o ho, .inr ⟨hg, o, List.mem_singleton_self o, hp⟩⟩
    · exact ⟨a, hx.connected q hq a ho, .inl rfl⟩

/-- What the outputs of an island depend on is in the island, or an input pin. -/
theorem IslandsOf.inIsland_of_feeds {inputs : List NodeId} (hw : nl.WellFormed)
    (hi : nl.IslandsOf inputs outputs outputs islands) (hm : island ∈ islands)
    (hq : q ∈ island.outputs) (ha : nl.Feeds island.outputs a) :
    nl.InIsland outputs q a ∨ nl.role? a = some .input := by
  obtain ⟨o, ho, hp⟩ := ha
  rw [hi.inIsland_iff hm hq]
  rcases reflTransGen_iff_eq_or_transGen.1 hp with rfl | hp
  · exact .inl (.inr ho)
  · rcases (hi.exact island hm).mem_of_transGen hw ho hp with hn | ⟨hin, _⟩
    · exact .inl (.inl hn)
    · exact .inr hin

/-- The same nodes lie behind nodes of a part that keeps its roles and slots. -/
theorem Embeds.behind_id_iff {part : NodeId → Prop} (h : nl.Embeds nl' part id)
    {ids : List NodeId} (hp : ∀ a ∈ ids, part a) : nl'.Behind ids b ↔ nl.Behind ids b := by
  have hcopy : nl'.Behind (ids.map id) b ↔ _ := h.behind_iff hp
  rw [List.map_id] at hcopy
  rw [hcopy]
  constructor
  · intro hb
    obtain ⟨_, _, hb, rfl⟩ := hb
    exact hb
  · intro hb
    exact ⟨b, h.part_of_behind hp hb, hb, rfl⟩

section Kept

variable (h : nl.Sparser nl') (hw : nl.WellFormed) (hw' : nl'.WellFormed)
  (hi : nl.IslandsOf nl.inputs nl.outputs nl.outputs islands)
  (hi' : nl'.IslandsOf nl'.inputs nl'.outputs nl'.outputs islands')
  (hm : island ∈ islands) (hm' : island' ∈ islands') (hq : q ∈ island.outputs)
  (hq' : q ∈ island'.outputs) (he : nl.Embeds nl' (nl.Feeds island.outputs) id)

include h hi hi' hm hm' hq hq' he

/-- An island that has kept its gates and links has kept its outputs. -/
theorem IslandsOf.mem_outputs_kept (o : NodeId) : o ∈ island'.outputs ↔ o ∈ island.outputs := by
  rw [hi'.mem_outputs_iff hm' hq', hi.mem_outputs_iff hm hq, h.outputs]
  constructor
  · exact h.share_path
  · intro hp
    induction hp with
    | refl => exact .refl
    | @tail b c hp hs ih =>
      have hb := (hi.mem_outputs_iff hm hq b).2 hp
      have hc := (hi.mem_outputs_iff hm hq c).2 (hp.tail hs)
      have feeds : ∀ {o}, o ∈ island.outputs → ∀ a ∈ [o], nl.Feeds island.outputs a := by
        intro o ho a ha
        exact ⟨o, ho, List.mem_singleton.1 ha ▸ .refl⟩
      obtain ⟨hbo, hco, id, hbehind, hbehind'⟩ := hs
      exact ih.tail ⟨hbo, hco, id, (he.behind_id_iff (feeds hb)).2 hbehind,
        (he.behind_id_iff (feeds hc)).2 hbehind'⟩

include hw hw'

theorem IslandsOf.outputs_kept : island'.outputs = island.outputs := by
  have hasc := hw.outputs_ascend.sublist (hi.exact island hm).outputs_listed
  have hasc' := hw'.outputs_ascend.sublist (hi'.exact island' hm').outputs_listed
  exact hasc'.eq_of_mem_iff hasc (hi.mem_outputs_kept h hi' hm hm' hq hq' he)

theorem IslandsOf.mem_inputs_kept (pin : NodeId) :
    pin ∈ island'.inputs ↔ pin ∈ island.inputs := by
  have hx := hi.exact island hm
  have hx' := hi'.exact island' hm'
  have houtputs := hi.outputs_kept h hw hw' hi' hm hm' hq hq' he
  have feeds : ∀ o ∈ island.outputs, nl.Feeds island.outputs o := fun o ho => ⟨o, ho, .refl⟩
  have reader_iff : ∀ reader, reader ∈ island'.nodes ∨ reader ∈ island'.outputs ↔
      reader ∈ island.nodes ∨ reader ∈ island.outputs := by
    intro reader
    rw [hx'.nodes, hx.nodes, houtputs, he.behind_id_iff feeds]
  rw [hx'.pins, hx.pins]
  constructor
  · intro hpin
    obtain ⟨hrole, reader, hreader, hread⟩ := hpin
    exact ⟨h.role hrole, reader, (reader_iff reader).1 hreader, h.reads hread⟩
  · intro hpin
    obtain ⟨hrole, reader, hreader, hread⟩ := hpin
    have hpart : nl.Feeds island.outputs reader := by
      rcases hreader with hn | ho
      · obtain ⟨_, o, ho, hp⟩ := (hx.nodes reader).1 hn
        exact ⟨o, ho, hp.to_reflTransGen⟩
      · exact feeds reader ho
    exact ⟨(he.role (he.closed hpart hread)).trans hrole, reader, (reader_iff reader).2 hreader,
      he.reads hpart hread⟩

theorem IslandsOf.inputs_kept : island'.inputs = island.inputs := by
  have hasc := hw.inputs_ascend.sublist (hi.exact island hm).inputs_listed
  have hasc' := hw'.inputs_ascend.sublist (hi'.exact island' hm').inputs_listed
  exact hasc'.eq_of_mem_iff hasc (hi.mem_inputs_kept h hw hw' hi' hm hm' hq hq' he)

/-- An island that has kept its gates and links has kept its table. -/
theorem IslandsOf.islandTable_kept :
    (nl'.islandTable nl'.inputs nl'.outputs island').value =
      (nl.islandTable nl.inputs nl.outputs island).value := by
  have hx := hi.exact island hm
  have hin := hi.inputs_kept h hw hw' hi' hm hm' hq hq' he
  have hout := hi.outputs_kept h hw hw' hi' hm hm' hq hq' he
  have hn : (island.inputs.map id).Nodup := by
    rw [List.map_id]
    exact hw.nodup_inputs.sublist hx.inputs_listed
  have hrows := he.islandRows_eq hw hw' hx island' (by rw [hin, List.map_id])
    (by rw [hout, List.map_id]) hn
  simp only [islandTable, hrows]
  rw [h.inputs, h.outputs, hin, hout]

end Kept

section Edits

/-- Without a gate, the netlist has lost the gate and its links. -/
theorem remove_gate (hg : nl.IsGate a) : (nl.remove a).2 = nl.detach a := by
  obtain ⟨g, hg⟩ := hg
  obtain ⟨node, hnode, hkind⟩ := gate?_eq_some.1 (gate?_eq_some_iff.2 hg)
  simp only [remove, hnode, hkind]

theorem sparser_setSlot (nl : Netlist Gate) (dest : NodeId) (slot : Nat) :
    nl.Sparser (nl.setSlot dest slot none) where
  inputs := rfl
  outputs := rfl
  role h := by rwa [role?_setSlot] at h
  reads {a b} h := by
    obtain ⟨link, hl, rfl⟩ := h
    rw [slots_setSlot] at hl
    split at hl
    · rcases List.mem_or_eq_of_mem_set hl with hl | hl
      · exact ⟨link, hl, rfl⟩
      · cases hl
    · exact ⟨link, hl, rfl⟩

theorem sparser_detach (nl : Netlist Gate) (id : NodeId) : nl.Sparser (nl.detach id) where
  inputs := rfl
  outputs := rfl
  role h := by
    rw [role?_detach] at h
    split at h
    · cases h
    · exact h
  reads {a b} h := by
    obtain ⟨link, hl, rfl⟩ := h
    rw [slots_detach] at hl
    split at hl
    · cases hl
    · obtain ⟨slot, hslot, hkept⟩ := List.mem_map.1 hl
      obtain ⟨rfl, _⟩ := Option.filter_eq_some_iff.1 hkept
      exact ⟨link, hslot, rfl⟩

theorem Sparser.of_outside (h : e.Outside nl q) : nl.Sparser (nl.edit e) := by
  cases e with
  | unlink dest slot =>
    rw [edit]
    rcases nl.unlink_cases dest slot with he | he
    · rw [he]
      exact ⟨rfl, rfl, fun h => h, fun h => h⟩
    · rw [he]
      exact nl.sparser_setSlot dest slot
  | remove id =>
    rw [edit, remove_gate h.1]
    exact nl.sparser_detach id
  | _ => exact h.elim

variable (hw : nl.WellFormed) (hi : nl.IslandsOf nl.inputs nl.outputs nl.outputs islands)
  (hm : island ∈ islands) (hq : q ∈ island.outputs) (he : e.Outside nl q)

include hw hi hm hq he

/-- An edit outside an island keeps what its outputs depend on. -/
theorem IslandsOf.kept_edit (ha : nl.Feeds island.outputs a) :
    (nl.edit e).role? a = nl.role? a ∧ (nl.edit e).slots a = nl.slots a := by
  have hin := hi.inIsland_of_feeds hw hm hq ha
  cases e with
  | unlink dest slot =>
    refine ⟨role?_unlink .., ?_⟩
    rcases hin with hin | hin
    · exact nl.slots_unlink_of_ne (fun heq : dest = a => he (heq ▸ hin)) slot
    · have hin' : (nl.unlink dest slot).2.role? a = some .input := (role?_unlink ..).trans hin
      rw [hw.slots_of_input hin]
      exact (hw.unlink dest slot).slots_of_input hin'
  | remove removed =>
    obtain ⟨hg, hout⟩ := he
    have hother : ∀ {b}, nl.Feeds island.outputs b → removed ≠ b := by
      intro b hb heq
      subst heq
      rcases hi.inIsland_of_feeds hw hm hq hb with hin | hin
      · exact hout hin
      · exact hg.role?_ne_input hin
    refine ⟨?_, ?_⟩
    · rw [edit, role?_remove, if_neg (hother ha)]
    · apply nl.slots_remove (hother ha)
      intro link hl heq
      obtain ⟨o, ho, hp⟩ := ha
      exact hother ⟨o, ho, hp.tail ⟨link, hl, rfl⟩⟩ heq.symm
  | _ => exact he.elim

theorem IslandsOf.embeds_edit : nl.Embeds (nl.edit e) (nl.Feeds island.outputs) id := by
  apply embeds_of_kept
  · exact fun ha => (hi.kept_edit hw hm hq he ha).1
  · exact fun ha => (hi.kept_edit hw hm hq he ha).2
  · intro a b ha hr
    obtain ⟨o, ho, hp⟩ := ha
    exact ⟨o, ho, hp.tail hr⟩

end Edits

/-- The table of an output of a gate made of islands is that of the island of the output. -/
theorem IslandsOf.tableFor?_eq {inputs : List NodeId} {logic : TableLogic}
    (hi : nl.IslandsOf inputs outputs outputs islands) (hm : island ∈ islands)
    (hq : q ∈ island.outputs)
    (hl : TableLogic.ofTables ((islands.map (nl.islandTable inputs outputs)).map (·.value))
      outputs.length = .ok logic) {k : Nat} (hk : outputs[k]? = some q) :
    logic.tableFor? k = some (nl.islandTable inputs outputs island).value := by
  obtain ⟨hlt, hget⟩ := List.getElem?_eq_some_iff.1 hk
  obtain ⟨table, ht, hout, hfor⟩ := TableLogic.exists_tableFor? hl hlt
  rw [List.map_map] at ht
  obtain ⟨other, hm', rfl⟩ := List.mem_map.1 ht
  have hlisted := (hi.exact other hm').outputs_listed.subset
  change k ∈ positions outputs other.outputs at hout
  rw [positions_eq hlisted] at hout
  obtain ⟨o, ho, hidx⟩ := List.mem_map.1 hout
  have hok : outputs[k]? = some o := hidx ▸ List.getElem?_idxOf (hlisted ho)
  obtain rfl := Option.some.inj (hok.symm.trans hk)
  rw [hfor, Function.comp_apply, hi.eq_of_mem_outputs hm' hm ho hq]

/-- A compilation to tables has split the netlist into the islands of these tables. -/
theorem islands_of_compile {name : String} {metadata : Metadata} {g : Gate} {logic : TableLogic}
    (hg : (nl.compile name metadata).value = .ok g) (hl : g.logic = .tables logic) :
    ∃ islands, nl.decompose nl.inputs nl.outputs = .ok (.islands islands) ∧
      TableLogic.ofTables ((islands.map (nl.islandTable nl.inputs nl.outputs)).map (·.value))
        nl.outputs.length = .ok logic := by
  obtain ⟨_, ⟨islands, hd, ht⟩ | hh⟩ := compileBetween_cases hg
  · obtain ⟨logic', htables, hl'⟩ := logic_tabledGate ht
    obtain rfl := Logic.tables.inj (hl.symm.trans hl')
    exact ⟨islands, hd, htables⟩
  · obtain ⟨_, _, _, _, _, _, hl'⟩ := hierarchicalGate_cases hh
    cases hl.symm.trans hl'

/-- A netlist that splits into islands compiles to their tables. -/
theorem WellFormed.compile_islands (hw : nl.WellFormed)
    (hd : nl.decompose nl.inputs nl.outputs = .ok (.islands islands)) (name : String)
    (metadata : Metadata) :
    ∃ g logic, (nl.compile name metadata).value = .ok g ∧ g.logic = .tables logic ∧
      TableLogic.ofTables ((islands.map (nl.islandTable nl.inputs nl.outputs)).map (·.value))
        nl.outputs.length = .ok logic := by
  have hi := hw.islandsOf_decompose hd
  obtain ⟨g, _, hg, _⟩ := hi.exists_tabledGate hw.nodup_outputs name metadata
  obtain ⟨logic, htables, hl⟩ := logic_tabledGate hg
  refine ⟨g, logic, ?_, hl, htables⟩
  simp only [compile, compileBetween, hd, hg]
  rfl

/-- When a netlist was compiled to tables, an edit outside the island of an output has it compiled
to tables again, and the table of the output is the same. -/
theorem Reachable.recompile_local (hr : nl.Reachable) {name : String} {metadata : Metadata}
    {g : Gate} {logic : TableLogic} (hg : (nl.compile name metadata).value = .ok g)
    (hl : g.logic = .tables logic) {k : Nat} (hk : nl.outputs[k]? = some q)
    (he : e.Outside nl q) (name' : String) (metadata' : Metadata) :
    ∃ g' logic' table, ((nl.edit e).compile name' metadata').value = .ok g' ∧
      g'.logic = .tables logic' ∧ (nl.edit e).outputs[k]? = some q ∧
      logic.tableFor? k = some table ∧ logic'.tableFor? k = some table := by
  have hw := hr.wellFormed
  have hw' := hw.edit e
  have hs := Sparser.of_outside he
  obtain ⟨islands, hd, htables⟩ := islands_of_compile hg hl
  obtain ⟨islands', hd'⟩ := hs.exists_islands hw hw' hd
  obtain ⟨g', logic', hg', hl', htables'⟩ := hw'.compile_islands hd' name' metadata'
  have hi := hw.islandsOf_decompose hd
  have hi' := hw'.islandsOf_decompose hd'
  have hk' : (nl.edit e).outputs[k]? = some q := hs.outputs ▸ hk
  obtain ⟨island, hm, hq⟩ := (hi.produced q).1 (List.mem_of_getElem? hk)
  obtain ⟨island', hm', hq'⟩ := (hi'.produced q).1 (List.mem_of_getElem? hk')
  have hkept := hi.islandTable_kept hs hw hw' hi' hm hm' hq hq' (hi.embeds_edit hw hm hq he)
  refine ⟨g', logic', _, hg', hl', hk', hi.tableFor?_eq hm hq htables hk, ?_⟩
  rw [← hkept]
  exact hi'.tableFor?_eq hm' hq' htables' hk'

/-- The third output has an island of its own: the tables of the others stay when it is unlinked,
and its table stays when the inverter behind the others is removed. -/
theorem recompile_local_inverted :
    inverted.Reachable ∧ ∃ g logic, (inverted.compile "G" ∅).value = .ok g ∧
      g.logic = .tables logic ∧
      Edit.Outside inverted 3 (.unlink 4 0) ∧ Edit.Outside inverted 4 (.remove 5) ∧
      (∃ g' logic' table, ((inverted.unlink 4 0).2.compile "G" ∅).value = .ok g' ∧
        g'.logic = .tables logic' ∧ (inverted.unlink 4 0).2.outputs[1]? = some 3 ∧
        logic.tableFor? 1 = some table ∧ logic'.tableFor? 1 = some table) ∧
      ∃ g' logic' table, ((inverted.remove 5).2.compile "G" ∅).value = .ok g' ∧
        g'.logic = .tables logic' ∧ (inverted.remove 5).2.outputs[2]? = some 4 ∧
        logic.tableFor? 2 = some table ∧ logic'.tableFor? 2 = some table := by
  have hw := reachable_inverted.wellFormed
  have hd : inverted.decompose inverted.inputs inverted.outputs =
      .ok (.islands [⟨[0, 1], [2, 3], [6, 5]⟩, ⟨[1], [4], []⟩]) := by cbv
  have hi := hw.islandsOf_decompose hd
  obtain ⟨g, logic, hg, hl, _⟩ := hw.compile_islands hd "G" ∅
  have hunlink : Edit.Outside inverted 3 (.unlink 4 0) := by
    intro hin
    have hmem := (hi.inIsland_iff List.mem_cons_self (by decide)).1 hin
    revert hmem
    decide
  have hremove : Edit.Outside inverted 4 (.remove 5) := by
    refine ⟨⟨Primitive.not.gate, rfl⟩, fun hin => ?_⟩
    have hmem := (hi.inIsland_iff (List.mem_cons_of_mem _ List.mem_cons_self) (by decide)).1 hin
    revert hmem
    decide
  exact ⟨reachable_inverted, g, logic, hg, hl, hunlink, hremove,
    Reachable.recompile_local reachable_inverted hg hl rfl hunlink "G" ∅,
    Reachable.recompile_local reachable_inverted hg hl rfl hremove "G" ∅⟩

end Netlist

end Breadboard
