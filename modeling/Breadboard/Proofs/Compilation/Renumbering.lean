import Breadboard.Proofs.Compilation.Compile
import Breadboard.Proofs.Netlist.Isomorphism
import Breadboard.Proofs.Simulation.Ticks

namespace Breadboard

def Cone.rename (f : NodeId → NodeId) (cone : Cone) : Cone :=
  ⟨cone.nodes.map f, cone.inputs.map f, cone.touched.map f⟩

def Island.rename (f : NodeId → NodeId) (island : Island) : Island :=
  ⟨island.inputs.map f, island.outputs.map f, island.nodes.map f⟩

/-- What the source of a link is when all input pins are listed. -/
def SourceKind.ofRole : Option Role → SourceKind
  | some .input => .pin
  | some (.gate g) => if g.isHierarchical then .stateful else .gate
  | _ => .absent

/-- Two walks that came to corresponding results, or that both stopped for a reason to fall back. -/
inductive Parallel {α : Type} (rename : α → α) : Except Obstacle α → Except Obstacle α → Prop where
  | ok (a : α) : Parallel rename (.ok a) (.ok (rename a))
  | fallback (reason reason' : Fallback) :
      Parallel rename (.error (.fallback reason)) (.error (.fallback reason'))

theorem Parallel.map {α β : Type} {rename : α → α} {rename' : β → β}
    {found found' : Except Obstacle α} (h : Parallel rename found found') {g g' : α → β}
    (hg : ∀ a, g' (rename a) = rename' (g a)) :
    Parallel rename' (found.map g) (found'.map g') := by
  cases h with
  | ok a =>
    change Parallel rename' (.ok (g a)) (.ok (g' (rename a)))
    rw [hg]
    exact .ok (g a)
  | fallback reason reason' => exact .fallback reason reason'

namespace Netlist

open Relation

variable {nl nl' : Netlist Gate} {f : NodeId → NodeId} {inputs settled : List NodeId}
  {node : NodeId} {slots : List (Option Link)}
  {path : List (NodeId × List (Option Link))} {cone : Cone}

theorem WellFormed.sourceKind_own (hw : nl.WellFormed) (id : NodeId) :
    nl.sourceKind nl.inputs id = .ok (.ofRole (nl.role? id)) := by
  unfold sourceKind
  cases hr : nl.role? id with
  | none =>
    rw [role?_eq_none_iff.1 hr]
    rfl
  | some r =>
    cases r with
    | gate g =>
      rw [kind?_eq_gate_iff.2 hr]
      rfl
    | input =>
      obtain ⟨pin, hp⟩ := exists_inputPin? hr
      rw [kind?_of_inputPin? hp]
      exact if_pos ((hw.mem_inputs id).2 hr)
    | output =>
      obtain ⟨pin, hp⟩ := exists_outputPin? hr
      rw [hp]
      rfl

/-- The step of a walk at a link, by what the source of the link is. -/
theorem explore_link (link : Link) {kind : SourceKind}
    (h : nl.sourceKind inputs link.node = .ok kind) :
    nl.explore inputs settled ((node, some link :: slots) :: path) cone =
      match kind with
      | .absent => nl.explore inputs settled ((node, slots) :: path) cone
      | .pin => nl.explore inputs settled ((node, slots) :: path)
          { cone with inputs := link.node :: cone.inputs }
      | .stateful => .error (.fallback (.statefulGate link.node))
      | .gate =>
        if link.node = node ∨ link.node ∈ path.map (·.1) then
          .error (.fallback (.feedback link.node))
        else if link.node ∈ settled then
          nl.explore inputs settled ((node, slots) :: path)
            { cone with touched := link.node :: cone.touched }
        else if link.node ∈ cone.nodes then
          nl.explore inputs settled ((node, slots) :: path) cone
        else
          nl.explore inputs settled ((link.node, nl.slots link.node) :: (node, slots) :: path)
            { cone with nodes := link.node :: cone.nodes } := by
  rw [explore]
  split
  · next hk => rw [h] at hk; cases hk
  all_goals
    next hk =>
    rw [h] at hk
    obtain rfl := Except.ok.inj hk
    rfl

/-- The places of a walk under other handles. -/
def renamePath (f : NodeId → NodeId) (path : List (NodeId × List (Option Link))) :
    List (NodeId × List (Option Link)) :=
  path.map fun entry => (f entry.1, entry.2.map (Option.map (Link.rename f)))

theorem map_fst_renamePath (f : NodeId → NodeId) (path : List (NodeId × List (Option Link))) :
    (renamePath f path).map (·.1) = (path.map (·.1)).map f := by
  simp only [renamePath, List.map_map, Function.comp_def]

section

variable (h : nl.Isomorphic nl' f) (hw : nl.WellFormed) (hw' : nl'.WellFormed)

include h hw hw'

/-- The step at a link under other handles, with all conditions about the handles of `nl`. -/
theorem Isomorphic.explore_link (settled : List NodeId) (node : NodeId) (link : Link)
    (slots : List (Option Link)) (path : List (NodeId × List (Option Link))) (cone : Cone)
    {kind : SourceKind} (hk : nl.sourceKind nl.inputs link.node = .ok kind) :
    nl'.explore nl'.inputs (settled.map f) (renamePath f ((node, some link :: slots) :: path))
        (cone.rename f) =
      match kind with
      | .absent =>
        nl'.explore nl'.inputs (settled.map f) (renamePath f ((node, slots) :: path))
          (cone.rename f)
      | .pin =>
        nl'.explore nl'.inputs (settled.map f) (renamePath f ((node, slots) :: path))
          (Cone.rename f { cone with inputs := link.node :: cone.inputs })
      | .stateful => .error (.fallback (.statefulGate (f link.node)))
      | .gate =>
        if link.node = node ∨ link.node ∈ path.map (·.1) then
          .error (.fallback (.feedback (f link.node)))
        else if link.node ∈ settled then
          nl'.explore nl'.inputs (settled.map f) (renamePath f ((node, slots) :: path))
            (Cone.rename f { cone with touched := link.node :: cone.touched })
        else if link.node ∈ cone.nodes then
          nl'.explore nl'.inputs (settled.map f) (renamePath f ((node, slots) :: path))
            (cone.rename f)
        else
          nl'.explore nl'.inputs (settled.map f)
            (renamePath f ((link.node, nl.slots link.node) :: (node, slots) :: path))
            (Cone.rename f { cone with nodes := link.node :: cone.nodes }) := by
  have hcons (node : NodeId) (slots : List (Option Link))
      (path : List (NodeId × List (Option Link))) : renamePath f ((node, slots) :: path) =
        (f node, slots.map (Option.map (Link.rename f))) :: renamePath f path := rfl
  have hkind : nl'.sourceKind nl'.inputs (link.rename f).node = .ok kind := by
    rw [hw'.sourceKind_own, Link.rename, h.role, ← hw.sourceKind_own, hk]
  rw [hcons, List.map_cons, Option.map_some, Netlist.explore_link (link.rename f) hkind]
  cases kind with
  | absent | pin | stateful => rfl
  | gate =>
    simp only [map_fst_renamePath, Link.rename, Cone.rename, List.mem_map_of_injective h.injective,
      h.injective.eq_iff, h.slots]
    rfl

/-- A walk under other handles takes the same way. -/
theorem Isomorphic.parallel_explore (settled : List NodeId)
    (path : List (NodeId × List (Option Link))) (cone : Cone) :
    Parallel (Cone.rename f) (nl.explore nl.inputs settled path cone)
      (nl'.explore nl'.inputs (settled.map f) (renamePath f path) (cone.rename f)) := by
  fun_induction nl.explore nl.inputs settled path cone with
  | case1 cone =>
    rw [renamePath, List.map_nil, explore]
    exact .ok cone
  | case2 node path cone ih =>
    rw [renamePath, List.map_cons, List.map_nil, explore]
    exact ih
  | case3 node slots path cone ih =>
    rw [renamePath, List.map_cons, List.map_cons, Option.map_none, explore]
    exact ih
  | case4 node link slots path cone cause hk =>
    rw [hw.sourceKind_own] at hk
    cases hk
  | case5 node link slots path cone hk ih =>
    rw [h.explore_link hw hw' settled node link slots path cone hk]
    exact ih
  | case6 node link slots path cone hk ih =>
    rw [h.explore_link hw hw' settled node link slots path cone hk]
    exact ih
  | case7 node link slots path cone hk =>
    rw [h.explore_link hw hw' settled node link slots path cone hk]
    exact .fallback ..
  | case8 node link slots path cone hk hp =>
    rw [h.explore_link hw hw' settled node link slots path cone hk]
    dsimp only
    rw [if_pos hp]
    exact .fallback ..
  | case9 node link slots path cone hk hp hs ih =>
    rw [h.explore_link hw hw' settled node link slots path cone hk]
    dsimp only
    rw [if_neg hp, if_pos hs]
    exact ih
  | case10 node link slots path cone hk hp hs hn ih =>
    rw [h.explore_link hw hw' settled node link slots path cone hk]
    dsimp only
    rw [if_neg hp, if_neg hs, if_pos hn]
    exact ih
  | case11 node link slots path cone hk hp hs hn ih =>
    rw [h.explore_link hw hw' settled node link slots path cone hk]
    dsimp only
    rw [if_neg hp, if_neg hs, if_neg hn]
    exact ih

end

section

variable (hf : Function.Injective f)

include hf

theorem filter_mem_map (pins own : List NodeId) :
    (pins.map f).filter (· ∈ own.map f) = (pins.filter (· ∈ own)).map f := by
  rw [List.filter_map]
  congr 1
  apply List.filter_congr
  intro id _
  simp only [Function.comp_apply, List.mem_map_of_injective hf]

theorem meets_rename (cone : Cone) (island : Island) :
    Meets (cone.rename f) (island.rename f) = Meets cone island := by
  simp only [Meets, Cone.rename, Island.rename, List.any_map, Function.comp_def,
    List.mem_map_of_injective hf]

theorem filter_meets_rename (cone : Cone) (islands : List Island) :
    (islands.map (Island.rename f)).filter (Meets (cone.rename f)) =
      (islands.filter (Meets cone)).map (Island.rename f) := by
  rw [List.filter_map]
  congr 1
  apply List.filter_congr
  intro island _
  exact meets_rename hf cone island

theorem filter_not_meets_rename (cone : Cone) (islands : List Island) :
    (islands.map (Island.rename f)).filter (!Meets (cone.rename f) ·) =
      (islands.filter (!Meets cone ·)).map (Island.rename f) := by
  rw [List.filter_map]
  congr 1
  apply List.filter_congr
  intro island _
  exact congrArg (!·) (meets_rename hf cone island)

theorem joined_rename (inputs outputs : List NodeId) (islands : List Island) (output : NodeId)
    (cone : Cone) :
    joined (inputs.map f) (outputs.map f) (islands.map (Island.rename f)) (f output)
      (cone.rename f) = (joined inputs outputs islands output cone).rename f := by
  have hmerged (part : Island → List NodeId)
      (hp : ∀ island, part (island.rename f) = (part island).map f) :
      ((islands.map (Island.rename f)).filter (Meets (cone.rename f))).flatMap part =
        ((islands.filter (Meets cone)).flatMap part).map f := by
    rw [filter_meets_rename hf, List.flatMap_map, List.map_flatMap]
    simp only [hp]
  have hinputs := hmerged (·.inputs) fun _ => rfl
  have houtputs := hmerged (·.outputs) fun _ => rfl
  have hnodes := hmerged (·.nodes) fun _ => rfl
  have hconeInputs : (cone.rename f).inputs = cone.inputs.map f := rfl
  have hconeNodes : (cone.rename f).nodes = cone.nodes.map f := rfl
  simp only [joined, Island.rename, hinputs, houtputs, hnodes, hconeInputs, hconeNodes,
    ← List.map_append, ← List.map_cons, filter_mem_map hf]

end

theorem flatMap_nodes_rename (f : NodeId → NodeId) (islands : List Island) :
    (islands.map (Island.rename f)).flatMap (·.nodes) = (islands.flatMap (·.nodes)).map f := by
  rw [List.flatMap_map, List.map_flatMap]
  rfl

theorem addIsland_eq_map (nl : Netlist Gate) (inputs outputs : List NodeId) (islands : List Island)
    (output : NodeId) :
    nl.addIsland inputs outputs islands output =
      (nl.explore inputs (islands.flatMap (·.nodes)) [(output, nl.slots output)] {}).map fun cone =>
        islands.filter (!Meets cone ·) ++ [joined inputs outputs islands output cone] := by
  unfold addIsland
  cases nl.explore inputs (islands.flatMap (·.nodes)) [(output, nl.slots output)] {} <;> rfl

section

variable (h : nl.Isomorphic nl' f) (hw : nl.WellFormed) (hw' : nl'.WellFormed)

include h hw hw'

/-- The islands after one more output correspond. -/
theorem Isomorphic.parallel_addIsland (islands : List Island) (output : NodeId) :
    Parallel (List.map (Island.rename f)) (nl.addIsland nl.inputs nl.outputs islands output)
      (nl'.addIsland nl'.inputs nl'.outputs (islands.map (Island.rename f)) (f output)) := by
  have hpath : [(f output, nl'.slots (f output))] = renamePath f [(output, nl.slots output)] := by
    rw [h.slots]
    rfl
  rw [addIsland_eq_map, addIsland_eq_map, flatMap_nodes_rename, hpath]
  refine (h.parallel_explore hw hw' (islands.flatMap (·.nodes)) _ {}).map fun cone => ?_
  rw [filter_not_meets_rename h.injective, h.inputs, h.outputs, joined_rename h.injective,
    List.map_append, List.map_singleton]

theorem Isomorphic.parallel_addIslands (added : List NodeId) (islands : List Island) :
    Parallel (List.map (Island.rename f))
      (nl.addIslands nl.inputs nl.outputs added islands)
      (nl'.addIslands nl'.inputs nl'.outputs (added.map f) (islands.map (Island.rename f))) := by
  induction added generalizing islands with
  | nil => exact .ok islands
  | cons output added ih =>
    have hstep := h.parallel_addIsland hw hw' islands output
    rw [List.map_cons, addIslands, addIslands]
    generalize nl.addIsland nl.inputs nl.outputs islands output = found at hstep ⊢
    generalize nl'.addIsland nl'.inputs nl'.outputs _ _ = found' at hstep ⊢
    cases hstep with
    | ok islands => exact ih islands
    | fallback reason reason' => exact .fallback reason reason'

end

/-- Between their own pins, both netlists split into corresponding islands, or both do not. -/
theorem Isomorphic.decompose (h : nl.Isomorphic nl' f) (hw : nl.WellFormed)
    (hw' : nl'.WellFormed) :
    (∃ islands, nl.decompose nl.inputs nl.outputs = .ok (.islands islands) ∧
      nl'.decompose nl'.inputs nl'.outputs = .ok (.islands (islands.map (Island.rename f)))) ∨
    ∃ reason reason', nl.decompose nl.inputs nl.outputs = .ok (.fallback reason) ∧
      nl'.decompose nl'.inputs nl'.outputs = .ok (.fallback reason') := by
  have hislands := h.parallel_addIslands hw hw' nl.outputs []
  rw [← h.outputs, List.map_nil] at hislands
  rw [Netlist.decompose, Netlist.decompose, hw.checkBoundary_own, hw'.checkBoundary_own]
  dsimp only
  generalize nl.addIslands nl.inputs nl.outputs nl.outputs [] = found at hislands ⊢
  generalize nl'.addIslands nl'.inputs nl'.outputs nl'.outputs [] = found' at hislands ⊢
  cases hislands with
  | fallback reason reason' => exact .inr ⟨reason, reason', rfl, rfl⟩
  | ok islands =>
    have hlarge : (islands.map (Island.rename f)).find? (maxTableInputs < ·.inputs.length) =
        (islands.find? (maxTableInputs < ·.inputs.length)).map (Island.rename f) := by
      rw [List.find?_map]
      simp only [Function.comp_def, Island.rename, List.length_map]
    dsimp only
    rw [hlarge]
    cases islands.find? (maxTableInputs < ·.inputs.length) with
    | none => exact .inl ⟨islands, rfl, rfl⟩
    | some island => exact .inr ⟨_, _, rfl, rfl⟩

theorem positions_map (hf : Function.Injective f) {pins islandPins : List NodeId}
    (hs : islandPins ⊆ pins) :
    positions (pins.map f) (islandPins.map f) = positions pins islandPins := by
  rw [positions_eq (List.map_subset f hs), positions_eq hs, List.map_map]
  apply List.map_congr_left
  intro id _
  simp only [Function.comp_apply, List.idxOf, List.findIdx_map, Function.comp_def,
    hf.beq_eq]

/-- The input pins that an island depends on are its inputs. -/
theorem ExactIsland.mem_inputs_of_feeds {island : Island} (hw : nl.WellFormed)
    (hi : nl.ExactIsland nl.inputs nl.outputs island) {id : NodeId}
    (hfeeds : nl.Feeds island.outputs id) (hr : nl.role? id = some .input) :
    id ∈ island.inputs := by
  obtain ⟨o, ho, hp⟩ := hfeeds
  rcases reflTransGen_iff_eq_or_transGen.1 hp with rfl | hp
  · have hout := (hw.mem_outputs id).1 (hi.outputs_listed.subset ho)
    rw [hr] at hout
    cases hout
  · rcases hi.mem_of_transGen hw ho hp with hn | ⟨_, hin⟩
    · exact absurd hr ((hi.nodes id).1 hn).1.role?_ne_input
    · exact hin

/-- An island and its copy show the same for every row of their inputs. -/
theorem Embeds.islandRows_eq {island : Island}
    (he : nl.Embeds nl' (nl.Feeds island.outputs) f) (hw : nl.WellFormed) (hw' : nl'.WellFormed)
    (hi : nl.ExactIsland nl.inputs nl.outputs island) (island' : Island)
    (hin : island'.inputs = island.inputs.map f) (hout : island'.outputs = island.outputs.map f)
    (hn' : (island.inputs.map f).Nodup) :
    ((Bits.all island'.inputs.length).map (nl'.islandRow island')).map (·.value) =
      ((Bits.all island.inputs.length).map (nl.islandRow island)).map (·.value) := by
  have hn : island.inputs.Nodup := hw.nodup_inputs.sublist hi.inputs_listed
  rw [List.map_map, List.map_map, hin, List.length_map]
  apply List.map_congr_left
  intro row hrow
  simp only [Function.comp_apply, islandRow, hin, hout]
  exact (readPins_overridden he hw hw' (fun _ _ _ => ⟨rfl, rfl⟩) hn hn'
    (fun _ => hi.mem_inputs_of_feeds hw) (fun o ho => ⟨o, ho, .refl⟩) (Bits.mem_all.1 hrow)).1

/-- Corresponding islands have the same table. -/
theorem Isomorphic.islandTable (h : nl.Isomorphic nl' f) (hw : nl.WellFormed)
    (hw' : nl'.WellFormed) {island : Island}
    (hi : nl.ExactIsland nl.inputs nl.outputs island) :
    (nl'.islandTable nl'.inputs nl'.outputs (island.rename f)).value =
      (nl.islandTable nl.inputs nl.outputs island).value := by
  have he : nl.Embeds nl' (nl.Feeds island.outputs) f :=
    h.embeds fun ⟨o, ho, hp⟩ hr => ⟨o, ho, hp.tail hr⟩
  have hn : (island.inputs.map f).Nodup :=
    (hw.nodup_inputs.sublist hi.inputs_listed).map h.injective
  have hrows := he.islandRows_eq hw hw' hi (island.rename f) rfl rfl hn
  simp only [Netlist.islandTable, hrows]
  simp only [h.inputs, h.outputs, Island.rename, positions_map h.injective hi.inputs_listed.subset,
    positions_map h.injective hi.outputs_listed.subset]

/-- Corresponding islands make the same gate. -/
theorem Isomorphic.tabledGate (h : nl.Isomorphic nl' f) (hw : nl.WellFormed)
    (hw' : nl'.WellFormed) {islands : List Island}
    (hi : ∀ island ∈ islands, nl.ExactIsland nl.inputs nl.outputs island) (name : String)
    (metadata : Metadata) :
    (nl'.tabledGate name nl'.inputs nl'.outputs metadata (islands.map (Island.rename f))).value =
      (nl.tabledGate name nl.inputs nl.outputs metadata islands).value := by
  have htables : ((islands.map (Island.rename f)).map
      (nl'.islandTable nl'.inputs nl'.outputs)).map (·.value) =
        (islands.map (nl.islandTable nl.inputs nl.outputs)).map (·.value) := by
    rw [List.map_map, List.map_map, List.map_map]
    apply List.map_congr_left
    intro island hm
    exact h.islandTable hw hw' (hi island hm)
  unfold Netlist.tabledGate
  dsimp only
  rw [htables, flatMap_nodes_rename, h.gateNames_map, h.inputs, h.outputs, h.pinNames_map,
    h.pinNames_map, List.length_map]

/-- Both netlists compile, to the same gate made of tables or both to an internal netlist. -/
theorem Isomorphic.compile_cases (h : nl.Isomorphic nl' f) (hw : nl.WellFormed)
    (hw' : nl'.WellFormed) (name : String) (metadata : Metadata) :
    ∃ g g', (nl.compile name metadata).value = .ok g ∧ (nl'.compile name metadata).value = .ok g' ∧
      (g' = g ∧ (∃ logic, g.logic = .tables logic) ∨
        nl.hierarchicalGate name nl.inputs nl.outputs metadata = .ok g ∧
          nl'.hierarchicalGate name nl'.inputs nl'.outputs metadata = .ok g') := by
  rcases h.decompose hw hw' with ⟨islands, hd, hd'⟩ | ⟨reason, reason', hd, hd'⟩
  · have hi := hw.islandsOf_decompose hd
    obtain ⟨g, logic, hg, hlogic⟩ := hi.exists_tabledGate hw.nodup_outputs name metadata
    have hg' := (h.tabledGate hw hw' hi.exact name metadata).trans hg
    refine ⟨g, g, ?_, ?_, .inl ⟨rfl, logic, hlogic⟩⟩
    · simp only [compile, compileBetween, hd, hg]
      rfl
    · simp only [compile, compileBetween, hd', hg']
      rfl
  · obtain ⟨g, hg⟩ := exists_hierarchicalGate hw hw.checkBoundary_own
      (fun _ => hw.not_undeclared_own) name metadata
    obtain ⟨g', hg'⟩ := exists_hierarchicalGate hw' hw'.checkBoundary_own
      (fun _ => hw'.not_undeclared_own) name metadata
    refine ⟨g, g', ?_, ?_, .inr ⟨hg, hg'⟩⟩
    · simp only [compile, compileBetween, hd, hg]
      rfl
    · simp only [compile, compileBetween, hd', hg']
      rfl

end Netlist

end Breadboard
