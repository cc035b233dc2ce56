import Breadboard.Gate.Primitive
import Breadboard.Proofs.Compilation.Exploration
import Mathlib

namespace Breadboard

open Relation

namespace Netlist

/-- Two listed outputs with a gate behind both of them. -/
def Share (nl : Netlist Gate) (outputs : List NodeId) (o o' : NodeId) : Prop :=
  o ∈ outputs ∧ o' ∈ outputs ∧ ∃ id, nl.Behind [o] id ∧ nl.Behind [o'] id

/-- An island that has what lies behind its outputs. -/
structure ExactIsland (nl : Netlist Gate) (inputs outputs : List NodeId) (island : Island) :
    Prop where
  nodes : ∀ id, id ∈ island.nodes ↔ nl.Behind island.outputs id
  pins : ∀ id, id ∈ island.inputs ↔ nl.role? id = some .input ∧
    ∃ reader, (reader ∈ island.nodes ∨ reader ∈ island.outputs) ∧ nl.Reads reader id
  inputs_listed : island.inputs.Sublist inputs
  outputs_listed : island.outputs.Sublist outputs
  connected : ∀ o ∈ island.outputs, ∀ o' ∈ island.outputs, ReflTransGen (nl.Share outputs) o o'
  nodup : island.nodes.Nodup
  stateless : ∀ id ∈ island.nodes, nl.isHierarchical id = false
  grounded : ∀ id, id ∈ island.nodes ∨ id ∈ island.outputs → nl.Grounded id

/-- The invariant of the decomposition after the outputs in `added`. -/
structure IslandsOf (nl : Netlist Gate) (inputs outputs added : List NodeId)
    (islands : List Island) : Prop where
  exact : ∀ island ∈ islands, nl.ExactIsland inputs outputs island
  produced : ∀ o, o ∈ added ↔ ∃ island ∈ islands, o ∈ island.outputs
  nodes_disjoint : islands.Pairwise fun a b => a.nodes.Disjoint b.nodes
  outputs_disjoint : islands.Pairwise fun a b => a.outputs.Disjoint b.outputs

variable {nl : Netlist Gate} {inputs outputs added : List NodeId} {islands : List Island}
  {output : NodeId} {cone : Cone}

theorem Share.symm {o o' : NodeId} (h : nl.Share outputs o o') : nl.Share outputs o' o := by
  obtain ⟨ho, ho', id, hb, hb'⟩ := h
  exact ⟨ho', ho, id, hb', hb⟩

theorem share_symm {o o' : NodeId} (h : ReflTransGen (nl.Share outputs) o o') :
    ReflTransGen (nl.Share outputs) o' o := by
  induction h with
  | refl => exact .refl
  | tail _ hs ih => exact .head hs.symm ih

theorem Behind.mono {ids ids' : List NodeId} {id : NodeId} (h : nl.Behind ids id)
    (hs : ids ⊆ ids') : nl.Behind ids' id := by
  obtain ⟨hg, o, ho, hp⟩ := h
  exact ⟨hg, o, hs ho, hp⟩

theorem disjoint_of_ne {f : Island → List NodeId}
    (h : islands.Pairwise fun a b => (f a).Disjoint (f b)) {a b : Island} (ha : a ∈ islands)
    (hb : b ∈ islands) (hne : a ≠ b) : (f a).Disjoint (f b) :=
  have : Std.Symm fun a b : Island => (f a).Disjoint (f b) := ⟨fun _ _ h => h.symm⟩
  h.forall ha hb hne

/-- A set that is closed under the gates that are read holds what lies behind its members. -/
theorem WellFormed.mem_of_transGen (hw : nl.WellFormed) {mem : NodeId → Prop} {a b : NodeId}
    (hclosed : ∀ {c d}, c = a ∨ mem c → nl.Reads c d → nl.IsGate d → mem d)
    (hp : TransGen nl.Reads a b) (hg : nl.IsGate b) : mem b := by
  induction hp with
  | single hr => exact hclosed (.inl rfl) hr hg
  | tail hp hr ih =>
    obtain ⟨c, _, hc⟩ := TransGen.tail'_iff.1 hp
    exact hclosed (.inr (ih (hw.gate_of_reads_reads hc hr))) hr hg

/-- An island whose nodes the walk from a new output has touched. -/
abbrev Meets (cone : Cone) (island : Island) : Bool := cone.touched.any (· ∈ island.nodes)

/-- The island of a new output: what its walk has met, and the islands that it touched. -/
def joined (inputs outputs : List NodeId) (islands : List Island) (output : NodeId)
    (cone : Cone) : Island where
  inputs := inputs.filter (· ∈ cone.inputs ++ (islands.filter (Meets cone)).flatMap (·.inputs))
  outputs := outputs.filter (· ∈ output :: (islands.filter (Meets cone)).flatMap (·.outputs))
  nodes := cone.nodes ++ (islands.filter (Meets cone)).flatMap (·.nodes)

theorem meets_iff {island : Island} :
    Meets cone island = true ↔ ∃ id ∈ cone.touched, id ∈ island.nodes := by
  simp [Meets]

theorem mem_kept {island : Island} :
    island ∈ islands.filter (!Meets cone ·) ↔ island ∈ islands ∧ ¬ Meets cone island = true := by
  simp only [List.mem_filter, Bool.not_eq_true', Bool.not_eq_true]

/-- A list of pins restricted to own ones and to those of the islands that were met. -/
theorem mem_filter_met {pins own : List NodeId} {f : Island → List NodeId} (ho : own ⊆ pins)
    (hf : ∀ m ∈ islands, f m ⊆ pins) {id : NodeId} :
    id ∈ pins.filter (· ∈ own ++ (islands.filter (Meets cone)).flatMap f) ↔
      id ∈ own ∨ ∃ m ∈ islands, Meets cone m ∧ id ∈ f m := by
  simp only [List.mem_filter, List.mem_append, List.mem_flatMap, decide_eq_true_eq]
  constructor
  · intro hmem
    rcases hmem with ⟨_, hown | ⟨m, ⟨hm, hmeets⟩, h⟩⟩
    · exact .inl hown
    · exact .inr ⟨m, hm, hmeets, h⟩
  · intro hmem
    rcases hmem with hown | ⟨m, hm, hmeets, h⟩
    · exact ⟨ho hown, .inl hown⟩
    · exact ⟨hf m hm h, .inr ⟨m, ⟨hm, hmeets⟩, h⟩⟩

section Joined

variable (hi : nl.IslandsOf inputs outputs added islands)
  (hx : nl.Exploring inputs (islands.flatMap (·.nodes)) output [] cone)

include hi in
theorem mem_joined_inputs (hx : cone.inputs ⊆ inputs) {id : NodeId} :
    id ∈ (joined inputs outputs islands output cone).inputs ↔
      id ∈ cone.inputs ∨ ∃ m ∈ islands, Meets cone m ∧ id ∈ m.inputs :=
  mem_filter_met hx fun m hm => (hi.exact m hm).inputs_listed.subset

include hi in
theorem mem_joined_outputs (ho : output ∈ outputs) {o : NodeId} :
    o ∈ (joined inputs outputs islands output cone).outputs ↔
      o = output ∨ ∃ m ∈ islands, Meets cone m ∧ o ∈ m.outputs := by
  have own : [output] ⊆ outputs := by
    intro o hmem
    rw [List.mem_singleton.1 hmem]
    exact ho
  rw [← List.mem_singleton]
  exact mem_filter_met own fun m hm => (hi.exact m hm).outputs_listed.subset

theorem mem_joined_nodes {id : NodeId} :
    id ∈ (joined inputs outputs islands output cone).nodes ↔
      id ∈ cone.nodes ∨ ∃ m ∈ islands, Meets cone m ∧ id ∈ m.nodes := by
  simp only [joined, List.mem_append, List.mem_flatMap, List.mem_filter, and_assoc]

include hi in
/-- Every output is still in an island, and the new one is as well. -/
theorem joined_produced (ho : output ∈ outputs) (o : NodeId) :
    o ∈ added ++ [output] ↔ ∃ island ∈ islands.filter (!Meets cone ·) ++
      [joined inputs outputs islands output cone], o ∈ island.outputs := by
  rw [List.mem_append, hi.produced o, List.mem_singleton]
  constructor
  · intro hold
    rcases hold with ⟨m, hm, h⟩ | rfl
    · by_cases hmeets : Meets cone m = true
      · exact ⟨_, List.mem_append_right _ (List.mem_singleton_self _),
          (mem_joined_outputs hi ho).2 (.inr ⟨m, hm, hmeets, h⟩)⟩
      · exact ⟨m, List.mem_append_left _ (mem_kept.2 ⟨hm, hmeets⟩), h⟩
    · exact ⟨_, List.mem_append_right _ (List.mem_singleton_self _),
        (mem_joined_outputs hi ho).2 (.inl rfl)⟩
  · intro hnew
    obtain ⟨m, hm, h⟩ := hnew
    rcases List.mem_append.1 hm with hm | hm
    · exact .inl ⟨m, (mem_kept.1 hm).1, h⟩
    · rw [List.mem_singleton.1 hm] at h
      rcases (mem_joined_outputs hi ho).1 h with rfl | ⟨m, hm, _, h⟩
      · exact .inr rfl
      · exact .inl ⟨m, hm, h⟩

include hi in
/-- Islands that were met differ from those that are kept. -/
theorem disjoint_kept {k m : Island} (hk : k ∈ islands.filter (!Meets cone ·)) (hm : m ∈ islands)
    (hmeets : Meets cone m = true) : k.nodes.Disjoint m.nodes ∧ k.outputs.Disjoint m.outputs := by
  obtain ⟨hk, hnot⟩ := mem_kept.1 hk
  have hne : k ≠ m := fun h => hnot (h ▸ hmeets)
  exact ⟨disjoint_of_ne hi.nodes_disjoint hk hm hne, disjoint_of_ne hi.outputs_disjoint hk hm hne⟩

include hi hx

/-- What the nodes of the joined island or its new output read is in the joined island. -/
theorem joined_closed (hw : nl.WellFormed) {id source : NodeId}
    (hid : id = output ∨ id ∈ (joined inputs outputs islands output cone).nodes)
    (hr : nl.Reads id source) :
    (nl.IsGate source ∧ source ∈ (joined inputs outputs islands output cone).nodes) ∨
      nl.role? source = some .input ∧
        (source ∈ cone.inputs ∨ ∃ m ∈ islands, Meets cone m ∧ source ∈ m.inputs) := by
  have found : id = output ∨ id ∈ cone.nodes → _ := fun hid =>
    (hx.finished id hid List.not_mem_nil).2 source hr
  have settled : ∀ m ∈ islands, source ∈ m.nodes → nl.IsGate source := fun m hm h =>
    (((hi.exact m hm).nodes source).1 h).1
  rcases hw.role?_of_reads hr with hg | hin
  · refine .inl ⟨hg, mem_joined_nodes.2 ?_⟩
    have new : id = output ∨ id ∈ cone.nodes → source ∈ cone.nodes ∨
        ∃ m ∈ islands, Meets cone m ∧ source ∈ m.nodes := fun hid => by
      rcases found hid with hn | ht | hi'
      · exact .inl hn
      · obtain ⟨m, hm, hs⟩ := List.mem_flatMap.1 (hx.touched source ht).1
        exact .inr ⟨m, hm, meets_iff.2 ⟨source, ht, hs⟩, hs⟩
      · exact absurd (hx.inputs source hi').2.1 hg.role?_ne_input
    rcases hid with rfl | hid
    · exact new (.inl rfl)
    · rcases mem_joined_nodes.1 hid with hn | ⟨m, hm, hmeets, hn⟩
      · exact new (.inr hn)
      · obtain ⟨_, o, ho, hp⟩ := ((hi.exact m hm).nodes id).1 hn
        exact .inr ⟨m, hm, hmeets, ((hi.exact m hm).nodes source).2 ⟨hg, o, ho, hp.tail hr⟩⟩
  · refine .inr ⟨hin, ?_⟩
    have no_gate : ¬ nl.IsGate source := fun hg => hg.role?_ne_input hin
    have new : id = output ∨ id ∈ cone.nodes → source ∈ cone.inputs := fun hid => by
      rcases found hid with hn | ht | hi'
      · exact absurd (hx.behind source hn).1 no_gate
      · exact absurd (hx.touched source ht).2.1 no_gate
      · exact hi'
    rcases hid with rfl | hid
    · exact .inl (new (.inl rfl))
    · rcases mem_joined_nodes.1 hid with hn | ⟨m, hm, hmeets, hn⟩
      · exact .inl (new (.inr hn))
      · exact .inr ⟨m, hm, hmeets, ((hi.exact m hm).pins source).2 ⟨hin, id, .inl hn, hr⟩⟩

theorem joined_nodes (hw : nl.WellFormed) (ho : output ∈ outputs) (id : NodeId) :
    id ∈ (joined inputs outputs islands output cone).nodes ↔
      nl.Behind (joined inputs outputs islands output cone).outputs id := by
  have output_mem : output ∈ (joined inputs outputs islands output cone).outputs :=
    (mem_joined_outputs hi ho).2 (.inl rfl)
  constructor
  · intro hid
    rcases mem_joined_nodes.1 hid with hn | ⟨m, hm, hmeets, hn⟩
    · exact (hx.behind id hn).mono (by simpa using output_mem)
    · exact (((hi.exact m hm).nodes id).1 hn).mono fun o h =>
        (mem_joined_outputs hi ho).2 (.inr ⟨m, hm, hmeets, h⟩)
  · intro hb
    obtain ⟨hg, o, hmem, hp⟩ := hb
    rcases (mem_joined_outputs hi ho).1 hmem with rfl | ⟨m, hm, hmeets, h⟩
    · refine hw.mem_of_transGen (fun {c d} hc hr hg => ?_) hp hg
      rcases joined_closed hi hx hw hc hr with ⟨_, hd⟩ | ⟨hin, _⟩
      · exact hd
      · exact absurd hin hg.role?_ne_input
    · exact mem_joined_nodes.2 (.inr ⟨m, hm, hmeets, ((hi.exact m hm).nodes id).2 ⟨hg, o, h, hp⟩⟩)

theorem joined_inputs (hw : nl.WellFormed) (ho : output ∈ outputs) (id : NodeId) :
    id ∈ (joined inputs outputs islands output cone).inputs ↔
      nl.role? id = some .input ∧ ∃ reader,
        (reader ∈ (joined inputs outputs islands output cone).nodes ∨
          reader ∈ (joined inputs outputs islands output cone).outputs) ∧ nl.Reads reader id := by
  rw [mem_joined_inputs hi fun id h => (hx.inputs id h).1]
  constructor
  · intro hmem
    rcases hmem with hc | ⟨m, hm, hmeets, h⟩
    · obtain ⟨_, hrole, reader, hreader, hr⟩ := hx.inputs id hc
      refine ⟨hrole, reader, ?_, hr⟩
      rcases hreader with rfl | hn
      · exact .inr ((mem_joined_outputs hi ho).2 (.inl rfl))
      · exact .inl (mem_joined_nodes.2 (.inl hn))
    · obtain ⟨hrole, reader, hreader, hr⟩ := ((hi.exact m hm).pins id).1 h
      refine ⟨hrole, reader, hreader.imp (fun hn => ?_) fun hn => ?_, hr⟩
      · exact mem_joined_nodes.2 (.inr ⟨m, hm, hmeets, hn⟩)
      · exact (mem_joined_outputs hi ho).2 (.inr ⟨m, hm, hmeets, hn⟩)
  · intro hpin
    obtain ⟨hrole, reader, hreader, hr⟩ := hpin
    have member : reader = output ∨ reader ∈ (joined inputs outputs islands output cone).nodes →
        id ∈ cone.inputs ∨ ∃ m ∈ islands, Meets cone m ∧ id ∈ m.inputs := fun h => by
      rcases joined_closed hi hx hw h hr with ⟨hg, _⟩ | ⟨_, h⟩
      · exact absurd hrole hg.role?_ne_input
      · exact h
    rcases hreader with hn | h
    · exact member (.inr hn)
    · rcases (mem_joined_outputs hi ho).1 h with rfl | ⟨m, hm, hmeets, h⟩
      · exact member (.inl rfl)
      · exact .inr ⟨m, hm, hmeets, ((hi.exact m hm).pins id).2 ⟨hrole, reader, .inr h, hr⟩⟩

/-- Outputs of the joined island are connected, since every island that was touched shares a gate
with the new output. -/
theorem joined_connected (ho : output ∈ outputs) :
    ∀ o ∈ (joined inputs outputs islands output cone).outputs,
      ∀ o' ∈ (joined inputs outputs islands output cone).outputs,
        ReflTransGen (nl.Share outputs) o o' := by
  have reach : ∀ o ∈ (joined inputs outputs islands output cone).outputs,
      ReflTransGen (nl.Share outputs) output o := by
    intro o hmem
    rcases (mem_joined_outputs hi ho).1 hmem with rfl | ⟨m, hm, hmeets, h⟩
    · exact .refl
    · obtain ⟨id, ht, hn⟩ := meets_iff.1 hmeets
      obtain ⟨hg, p, hp, hpath⟩ := ((hi.exact m hm).nodes id).1 hn
      have hshare : nl.Share outputs output p :=
        ⟨ho, (hi.exact m hm).outputs_listed.subset hp, id, (hx.touched id ht).2,
          hg, p, List.mem_singleton_self p, hpath⟩
      exact .head hshare ((hi.exact m hm).connected p hp o h)
  intro o h o' h'
  exact (share_symm (reach o h)).trans (reach o' h')

theorem exactIsland_joined (hw : nl.WellFormed) (ho : output ∈ outputs) :
    nl.ExactIsland inputs outputs (joined inputs outputs islands output cone) where
  nodes := joined_nodes hi hx hw ho
  pins := joined_inputs hi hx hw ho
  inputs_listed := List.filter_sublist
  outputs_listed := List.filter_sublist
  connected := joined_connected hi hx ho
  nodup := by
    refine List.nodup_append'.2 ⟨hx.nodup, List.nodup_flatMap.2 ⟨fun m hm => ?_, ?_⟩, ?_⟩
    · exact (hi.exact m (List.mem_of_mem_filter hm)).nodup
    · exact hi.nodes_disjoint.filter _
    · intro id hn hm
      obtain ⟨m, hm, h⟩ := List.mem_flatMap.1 hm
      exact hx.fresh id hn (List.mem_flatMap.2 ⟨m, List.mem_of_mem_filter hm, h⟩)
  stateless id hid := by
    rcases mem_joined_nodes.1 hid with hn | ⟨m, hm, _, hn⟩
    · exact hx.stateless id hn
    · exact (hi.exact m hm).stateless id hn
  grounded id hid := by
    have merged : (∃ m ∈ islands, Meets cone m ∧ (id ∈ m.nodes ∨ id ∈ m.outputs)) →
        nl.Grounded id := fun ⟨m, hm, _, h⟩ => (hi.exact m hm).grounded id h
    rcases hid with hn | h
    · rcases mem_joined_nodes.1 hn with hn | ⟨m, hm, hmeets, hn⟩
      · exact (hx.finished id (.inr hn) List.not_mem_nil).1
      · exact merged ⟨m, hm, hmeets, .inl hn⟩
    · rcases (mem_joined_outputs hi ho).1 h with rfl | ⟨m, hm, hmeets, h⟩
      · exact (hx.finished id (.inl rfl) List.not_mem_nil).1
      · exact merged ⟨m, hm, hmeets, .inr h⟩

/-- One more output, which no island has, keeps the islands exact. -/
theorem IslandsOf.join (hw : nl.WellFormed) (ho : output ∈ outputs) (hn : output ∉ added) :
    nl.IslandsOf inputs outputs (added ++ [output])
      (islands.filter (!Meets cone ·) ++ [joined inputs outputs islands output cone]) where
  exact island h := by
    rcases List.mem_append.1 h with h | h
    · exact hi.exact island (mem_kept.1 h).1
    · rw [List.mem_singleton.1 h]
      exact exactIsland_joined hi hx hw ho
  produced := joined_produced hi ho
  nodes_disjoint := by
    refine List.pairwise_append.2 ⟨hi.nodes_disjoint.filter _, List.pairwise_singleton _ _, ?_⟩
    intro k hk island hisland id hid hid'
    rw [List.mem_singleton.1 hisland] at hid'
    rcases mem_joined_nodes.1 hid' with hnew | ⟨m, hm, hmeets, hm'⟩
    · exact hx.fresh id hnew (List.mem_flatMap.2 ⟨k, (mem_kept.1 hk).1, hid⟩)
    · exact (disjoint_kept hi hk hm hmeets).1 hid hm'
  outputs_disjoint := by
    refine List.pairwise_append.2 ⟨hi.outputs_disjoint.filter _, List.pairwise_singleton _ _, ?_⟩
    intro k hk island hisland o hid hid'
    rw [List.mem_singleton.1 hisland] at hid'
    rcases (mem_joined_outputs hi ho).1 hid' with rfl | ⟨m, hm, hmeets, hm'⟩
    · exact hn ((hi.produced o).2 ⟨k, (mem_kept.1 hk).1, hid⟩)
    · exact (disjoint_kept hi hk hm hmeets).2 hid hm'

end Joined

theorem islandsOf_nil (nl : Netlist Gate) (inputs outputs : List NodeId) :
    nl.IslandsOf inputs outputs [] [] where
  exact := List.forall_mem_nil _
  produced o := by simp
  nodes_disjoint := .nil
  outputs_disjoint := .nil

/-- What the walk from a new output answers, next to the islands that there are. -/
theorem IslandsOf.explored (hi : nl.IslandsOf inputs outputs added islands) (hw : nl.WellFormed)
    (output : NodeId) :
    nl.Explored inputs (islands.flatMap (·.nodes)) output
      (nl.explore inputs (islands.flatMap (·.nodes)) [(output, nl.slots output)] {}) := by
  refine explore_explored hw (fun id hid => ?_) output
  obtain ⟨m, hm, hn⟩ := List.mem_flatMap.1 hid
  exact (hi.exact m hm).grounded id (.inl hn)

theorem IslandsOf.exploring (hi : nl.IslandsOf inputs outputs added islands) (hw : nl.WellFormed)
    (he : nl.explore inputs (islands.flatMap (·.nodes)) [(output, nl.slots output)] {} = .ok cone) :
    nl.Exploring inputs (islands.flatMap (·.nodes)) output [] cone := by
  have hx := hi.explored hw output
  rwa [he] at hx

theorem Undeclared.mono {outputs' : List NodeId} {id : NodeId}
    (h : nl.Undeclared inputs outputs id) (hs : outputs ⊆ outputs') :
    nl.Undeclared inputs outputs' id := by
  obtain ⟨hr, hn, o, ho, hp⟩ := h
  exact ⟨hr, hn, o, hs ho, hp⟩

theorem Blocked.mono {outputs' : List NodeId} {obstacle : Obstacle}
    (h : nl.Blocked inputs outputs obstacle) (hs : outputs ⊆ outputs') :
    nl.Blocked inputs outputs' obstacle := by
  cases h with
  | undeclared h => exact .undeclared (h.mono hs)
  | feedback hb hl => exact .feedback (hb.mono hs) hl
  | stateful hb hh => exact .stateful (hb.mono hs) hh

/-- What the islands are after the outputs in `added`, or what stopped a walk from one of them. -/
def Added (nl : Netlist Gate) (inputs outputs added : List NodeId) :
    Except Obstacle (List Island) → Prop
  | .ok islands => nl.IslandsOf inputs outputs added islands
  | .error obstacle => nl.Blocked inputs outputs obstacle

theorem IslandsOf.addIsland (hw : nl.WellFormed) (hi : nl.IslandsOf inputs outputs added islands)
    (ho : output ∈ outputs) (hn : output ∉ added) :
    nl.Added inputs outputs (added ++ [output])
      (nl.addIsland inputs outputs islands output) := by
  have hx := hi.explored hw output
  unfold Netlist.addIsland
  cases he : nl.explore inputs (islands.flatMap (·.nodes)) [(output, nl.slots output)] {} with
  | error obstacle =>
    rw [he] at hx
    exact hx.mono fun o hmem => List.mem_singleton.1 hmem ▸ ho
  | ok cone =>
    rw [he] at hx
    exact hi.join hx hw ho hn

theorem addIsland_islandsOf (hw : nl.WellFormed) {islands' : List Island}
    (hi : nl.IslandsOf inputs outputs added islands) (ho : output ∈ outputs) (hn : output ∉ added)
    (h : nl.addIsland inputs outputs islands output = .ok islands') :
    nl.IslandsOf inputs outputs (added ++ [output]) islands' := by
  have hadded := hi.addIsland hw ho hn
  rwa [h] at hadded

theorem IslandsOf.addIslands (hw : nl.WellFormed) {rest : List NodeId}
    (hi : nl.IslandsOf inputs outputs added islands) (hs : rest ⊆ outputs)
    (hn : (added ++ rest).Nodup) :
    nl.Added inputs outputs (added ++ rest) (nl.addIslands inputs outputs rest islands) := by
  induction rest generalizing added islands with
  | nil =>
    rw [List.append_nil]
    exact hi
  | cons output rest ih =>
    rw [← List.singleton_append, ← List.append_assoc] at hn ⊢
    have hnew : output ∉ added := fun hm =>
      List.disjoint_of_nodup_append (List.nodup_append'.1 hn).1 hm (List.mem_singleton_self _)
    have hadded := hi.addIsland hw (hs List.mem_cons_self) hnew
    rw [List.singleton_append, Netlist.addIslands]
    cases ha : nl.addIsland inputs outputs islands output with
    | error obstacle =>
      rw [ha] at hadded
      exact hadded
    | ok next =>
      rw [ha] at hadded
      exact ih hadded (fun o ho => hs (List.mem_cons_of_mem _ ho)) hn

theorem decompose_eq_islands (h : nl.decompose inputs outputs = .ok (.islands islands)) :
    nl.checkBoundary inputs outputs = .ok () ∧
      nl.addIslands inputs outputs outputs [] = .ok islands ∧
      ∀ island ∈ islands, island.inputs.length ≤ maxTableInputs := by
  unfold decompose at h
  cases hc : nl.checkBoundary inputs outputs with
  | error cause => simp [hc] at h
  | ok _ =>
    rw [hc] at h
    cases ha : nl.addIslands inputs outputs outputs [] with
    | error obstacle => cases obstacle <;> simp [ha] at h
    | ok found =>
      simp only [ha] at h
      cases hf : found.find? (maxTableInputs < ·.inputs.length) with
      | some island => simp [hf] at h
      | none =>
        rw [hf] at h
        injection h with h
        injection h with h
        subst h
        refine ⟨rfl, rfl, ?_⟩
        intro island hm
        simpa using List.find?_eq_none.1 hf island hm

/-- A boundary is accepted when its pins are distinct and of their kinds. -/
theorem checkBoundary_eq_ok_iff : nl.checkBoundary inputs outputs = .ok () ↔
    ((∀ id ∈ inputs, nl.role? id = some .input) ∧ inputs.Nodup) ∧
      (∀ id ∈ outputs, nl.role? id = some .output) ∧ outputs.Nodup := by
  have hinputs : checkPins (fun id => (nl.inputPin? id).isSome) .notInput [] inputs = .ok () ↔
      (∀ id ∈ inputs, nl.role? id = some .input) ∧ inputs.Nodup := by
    simp [checkPins_eq_ok_iff, inputPin?_isSome_iff]
  have houtputs : checkPins (fun id => (nl.outputPin? id).isSome) .notOutput [] outputs = .ok () ↔
      (∀ id ∈ outputs, nl.role? id = some .output) ∧ outputs.Nodup := by
    simp [checkPins_eq_ok_iff, outputPin?_isSome_iff]
  rw [← hinputs, ← houtputs, checkBoundary]
  cases checkPins (fun id => (nl.inputPin? id).isSome) .notInput [] inputs <;> simp

/-- The pins of a boundary that was accepted are distinct and of their kinds. -/
theorem checkBoundary_eq_ok (h : nl.checkBoundary inputs outputs = .ok ()) :
    ((∀ id ∈ inputs, nl.role? id = some .input) ∧ inputs.Nodup) ∧
      (∀ id ∈ outputs, nl.role? id = some .output) ∧ outputs.Nodup :=
  checkBoundary_eq_ok_iff.1 h

theorem WellFormed.addIslands_added (hw : nl.WellFormed) (inputs : List NodeId)
    (hn : outputs.Nodup) :
    nl.Added inputs outputs outputs (nl.addIslands inputs outputs outputs []) :=
  (islandsOf_nil nl inputs outputs).addIslands hw (fun _ h => h) hn

theorem WellFormed.islandsOf_decompose (hw : nl.WellFormed)
    (h : nl.decompose inputs outputs = .ok (.islands islands)) :
    nl.IslandsOf inputs outputs outputs islands := by
  obtain ⟨hc, ha, _⟩ := decompose_eq_islands h
  obtain ⟨_, _, hn⟩ := checkBoundary_eq_ok hc
  have hadded := hw.addIslands_added inputs hn
  rwa [ha] at hadded

/-- What makes a decomposition exact: which island an output, a gate and an input pin belong to, and
in which order an island has its pins. -/
structure ExactDecomposition (nl : Netlist Gate) (inputs outputs : List NodeId)
    (islands : List Island) : Prop where
  one_island : ∀ o ∈ outputs,
    ∃! k : Nat, ∃ island : Island, islands[k]? = some island ∧ o ∈ island.outputs
  nodes_disjoint : islands.Pairwise fun a b => a.nodes.Disjoint b.nodes
  all_nodes : ∀ id, (∃ island ∈ islands, id ∈ island.nodes) ↔ nl.Behind outputs id
  nodes : ∀ island ∈ islands, ∀ id, id ∈ island.nodes ↔ nl.Behind island.outputs id
  pins : ∀ island ∈ islands, ∀ id, id ∈ island.inputs ↔ nl.role? id = some .input ∧
    ∃ reader, (reader ∈ island.nodes ∨ reader ∈ island.outputs) ∧ nl.Reads reader id
  same_island : ∀ o ∈ outputs, ∀ o' ∈ outputs,
    (∃ island ∈ islands, o ∈ island.outputs ∧ o' ∈ island.outputs) ↔
      ReflTransGen (nl.Share outputs) o o'
  inputs_ascend : ∀ island ∈ islands, island.inputs ⊆ inputs ∧
    island.inputs.Pairwise fun a b => inputs.idxOf a < inputs.idxOf b
  outputs_ascend : ∀ island ∈ islands, island.outputs ⊆ outputs ∧
    island.outputs.Pairwise fun a b => outputs.idxOf a < outputs.idxOf b

theorem pairwise_idxOf_lt {l : List NodeId} (hn : l.Nodup) :
    l.Pairwise fun a b => l.idxOf a < l.idxOf b := by
  apply List.pairwise_iff_getElem.2
  intro i j hi hj hij
  rwa [hn.idxOf_getElem, hn.idxOf_getElem]

theorem IslandsOf.one_island (h : nl.IslandsOf inputs outputs added islands) {o : NodeId}
    (ho : o ∈ added) :
    ∃! k : Nat, ∃ island : Island, islands[k]? = some island ∧ o ∈ island.outputs := by
  obtain ⟨island, hm, hi⟩ := (h.produced o).1 ho
  obtain ⟨k, hk⟩ := List.mem_iff_getElem?.1 hm
  refine ⟨k, ⟨island, hk, hi⟩, ?_⟩
  intro k' hother
  obtain ⟨island', hk', hi'⟩ := hother
  obtain ⟨hlt, rfl⟩ := List.getElem?_eq_some_iff.1 hk
  obtain ⟨hlt', rfl⟩ := List.getElem?_eq_some_iff.1 hk'
  rcases Nat.lt_trichotomy k k' with hkk | hkk | hkk
  · exact absurd hi' (List.pairwise_iff_getElem.1 h.outputs_disjoint k k' hlt hlt' hkk hi)
  · exact hkk.symm
  · exact absurd hi (List.pairwise_iff_getElem.1 h.outputs_disjoint k' k hlt' hlt hkk hi')

/-- Two islands with a common node are one. -/
theorem IslandsOf.eq_of_mem_nodes (h : nl.IslandsOf inputs outputs added islands)
    {a b : Island} (ha : a ∈ islands) (hb : b ∈ islands) {id : NodeId} (hid : id ∈ a.nodes)
    (hid' : id ∈ b.nodes) : a = b := by
  by_contra hne
  exact disjoint_of_ne h.nodes_disjoint ha hb hne hid hid'

theorem IslandsOf.eq_of_mem_outputs (h : nl.IslandsOf inputs outputs added islands)
    {a b : Island} (ha : a ∈ islands) (hb : b ∈ islands) {o : NodeId} (ho : o ∈ a.outputs)
    (ho' : o ∈ b.outputs) : a = b := by
  by_contra hne
  exact disjoint_of_ne h.outputs_disjoint ha hb hne ho ho'

theorem IslandsOf.same_island (h : nl.IslandsOf inputs outputs outputs islands) {o o' : NodeId}
    (hp : ReflTransGen (nl.Share outputs) o o') (ho : o ∈ outputs) :
    ∃ island ∈ islands, o ∈ island.outputs ∧ o' ∈ island.outputs := by
  induction hp with
  | refl =>
    obtain ⟨island, hm, hi⟩ := (h.produced o).1 ho
    exact ⟨island, hm, hi, hi⟩
  | tail _ hs ih =>
    obtain ⟨island, hm, hi, hi'⟩ := ih
    obtain ⟨_, hout, id, hb, hb'⟩ := hs
    obtain ⟨island', hm', hi''⟩ := (h.produced _).1 hout
    have hid := ((h.exact island hm).nodes id).2 (hb.mono (by simpa using hi'))
    have hid' := ((h.exact island' hm').nodes id).2 (hb'.mono (by simpa using hi''))
    obtain rfl := h.eq_of_mem_nodes hm hm' hid hid'
    exact ⟨island, hm, hi, hi''⟩

/-- Islands are made only where there is neither a loop nor a hierarchical gate. -/
theorem IslandsOf.combinational (h : nl.IslandsOf inputs outputs outputs islands) {id : NodeId}
    (hb : nl.Behind outputs id) :
    ¬ TransGen nl.Reads id id ∧ nl.isHierarchical id = false := by
  obtain ⟨hg, o, ho, hp⟩ := hb
  obtain ⟨island, hm, ho⟩ := (h.produced o).1 ho
  have hid := ((h.exact island hm).nodes id).2 ⟨hg, o, ho, hp⟩
  have hgrounded := (h.exact island hm).grounded id (.inl hid)
  exact ⟨hgrounded.not_loop, (h.exact island hm).stateless id hid⟩

/-- The islands that a decomposition answers are exact. -/
theorem Reachable.decompose_exact (hr : nl.Reachable)
    (h : nl.decompose inputs outputs = .ok (.islands islands)) :
    nl.ExactDecomposition inputs outputs islands := by
  have hi := hr.wellFormed.islandsOf_decompose h
  obtain ⟨⟨_, hni⟩, _, hno⟩ := checkBoundary_eq_ok (decompose_eq_islands h).1
  refine ⟨fun o ho => hi.one_island ho, hi.nodes_disjoint, fun id => ⟨?_, ?_⟩,
    fun island hm => (hi.exact island hm).nodes, fun island hm => (hi.exact island hm).pins,
    fun o ho o' ho' => ⟨?_, fun hp => hi.same_island hp ho⟩, ?_, ?_⟩
  · intro hmem
    obtain ⟨island, hm, hid⟩ := hmem
    exact (((hi.exact island hm).nodes id).1 hid).mono (hi.exact island hm).outputs_listed.subset
  · intro hb
    obtain ⟨hg, o, ho, hp⟩ := hb
    obtain ⟨island, hm, ho'⟩ := (hi.produced o).1 ho
    exact ⟨island, hm, ((hi.exact island hm).nodes id).2 ⟨hg, o, ho', hp⟩⟩
  · intro hsame
    obtain ⟨island, hm, hmem, hmem'⟩ := hsame
    exact (hi.exact island hm).connected o hmem o' hmem'
  · intro island hm
    have hs := (hi.exact island hm).inputs_listed
    exact ⟨hs.subset, (pairwise_idxOf_lt hni).sublist hs⟩
  · intro island hm
    have hs := (hi.exact island hm).outputs_listed
    exact ⟨hs.subset, (pairwise_idxOf_lt hno).sublist hs⟩

/-- An inverter that two outputs have behind them, and a third output that shows an input. -/
def inverted : Netlist Gate :=
  let inputs := ((∅ : Netlist Gate).addInput "A").2.addInput "B" |>.2
  let pins := ((inputs.addOutput "X").2.addOutput "Y").2.addOutput "Z" |>.2
  let gates := (pins.place Primitive.not.gate).2.place Primitive.and.gate |>.2
  let inner := ((gates.link 5 0 0 0).2.link 6 0 5 0).2.link 6 1 1 0 |>.2
  ((inner.link 2 0 5 0).2.link 3 0 6 0).2.link 4 0 1 0 |>.2

theorem reachable_inverted : inverted.Reachable := by
  have pins := Reachable.empty.addInput "A" |>.addInput "B" |>.addOutput "X" |>.addOutput "Y"
    |>.addOutput "Z"
  have gates := pins.place Primitive.not.gate |>.place Primitive.and.gate
  have inner := gates.link 5 0 0 0 |>.link 6 0 5 0 |>.link 6 1 1 0
  exact inner.link 2 0 5 0 |>.link 3 0 6 0 |>.link 4 0 1 0

/-- The walk back from the first output meets the gate of the island of the second one. -/
theorem decompose_exact_inverted :
    inverted.Reachable ∧
      inverted.decompose [0, 1] [4, 3, 2] =
        .ok (.islands [⟨[1], [4], []⟩, ⟨[0, 1], [3, 2], [5, 6]⟩]) ∧
      inverted.ExactDecomposition [0, 1] [4, 3, 2] [⟨[1], [4], []⟩, ⟨[0, 1], [3, 2], [5, 6]⟩] := by
  have h : inverted.decompose [0, 1] [4, 3, 2] =
      .ok (.islands [⟨[1], [4], []⟩, ⟨[0, 1], [3, 2], [5, 6]⟩]) := by cbv
  exact ⟨reachable_inverted, h, Reachable.decompose_exact reachable_inverted h⟩

end Netlist

end Breadboard
