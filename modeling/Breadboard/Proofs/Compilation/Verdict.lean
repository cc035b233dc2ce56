import Breadboard.Proofs.Compilation.Islands
import Breadboard.Proofs.Netlist.Embedding
import Mathlib.Data.Set.Card

namespace Breadboard

open Relation

namespace Netlist

/-- Neither a loop nor a hierarchical gate lies behind the listed outputs. -/
structure Combinational (nl : Netlist Gate) (outputs : List NodeId) : Prop where
  acyclic : ∀ id, nl.Behind outputs id → ¬ TransGen nl.Reads id id
  stateless : ∀ id, nl.Behind outputs id → nl.isHierarchical id = false

/-- The outputs that gates connect with `o`, and what lies behind them. -/
def InIsland (nl : Netlist Gate) (outputs : List NodeId) (o id : NodeId) : Prop :=
  ∃ o', ReflTransGen (nl.Share outputs) o o' ∧ (id = o' ∨ nl.Behind [o'] id)

/-- An input pin to which the island of `o` has a link. -/
def IslandReads (nl : Netlist Gate) (outputs : List NodeId) (o pin : NodeId) : Prop :=
  nl.role? pin = some .input ∧ ∃ reader, nl.InIsland outputs o reader ∧ nl.Reads reader pin

/-- The number of input pins that the island of an output reads. -/
noncomputable def islandWidth (nl : Netlist Gate) (outputs : List NodeId) (o : NodeId) : Nat :=
  Set.ncard {pin | nl.IslandReads outputs o pin}

/-- The answers of a decomposition, each with what it says of the netlist. -/
inductive Decomposes (nl : Netlist Gate) (inputs outputs : List NodeId) :
    Except BoundaryError Decomposition → Prop where
  | refused {cause : BoundaryError} (h : nl.checkBoundary inputs outputs = .error cause) :
      Decomposes nl inputs outputs (.error cause)
  | rejected {cause : BoundaryError} (h : nl.checkBoundary inputs outputs = .ok ())
      (hb : nl.Blocked inputs outputs (.rejected cause)) :
      Decomposes nl inputs outputs (.error cause)
  | blocked {reason : Fallback} (h : nl.checkBoundary inputs outputs = .ok ())
      (hb : nl.Blocked inputs outputs (.fallback reason)) :
      Decomposes nl inputs outputs (.ok (.fallback reason))
  | tooLarge {islands : List Island} {island : Island}
      (h : nl.checkBoundary inputs outputs = .ok ())
      (hi : nl.IslandsOf inputs outputs outputs islands) (hm : island ∈ islands)
      (hl : maxTableInputs < island.inputs.length) :
      Decomposes nl inputs outputs (.ok (.fallback (.tableTooLarge island.inputs.length)))
  | split {islands : List Island} (h : nl.checkBoundary inputs outputs = .ok ())
      (hi : nl.IslandsOf inputs outputs outputs islands)
      (hl : ∀ island ∈ islands, island.inputs.length ≤ maxTableInputs) :
      Decomposes nl inputs outputs (.ok (.islands islands))

variable {nl nl' : Netlist Gate} {inputs outputs : List NodeId} {islands : List Island}
  {part : NodeId → Prop} {f : NodeId → NodeId}

theorem WellFormed.decomposes (hw : nl.WellFormed) (inputs outputs : List NodeId) :
    nl.Decomposes inputs outputs (nl.decompose inputs outputs) := by
  unfold decompose
  cases hc : nl.checkBoundary inputs outputs with
  | error cause => exact .refused hc
  | ok _ =>
    have hadded := hw.addIslands_added inputs (checkBoundary_eq_ok hc).2.2
    cases ha : nl.addIslands inputs outputs outputs [] with
    | error obstacle =>
      rw [ha] at hadded
      cases obstacle with
      | rejected cause => exact .rejected hc hadded
      | fallback reason => exact .blocked hc hadded
    | ok islands =>
      rw [ha] at hadded
      dsimp only
      cases hf : islands.find? (maxTableInputs < ·.inputs.length) with
      | some island =>
        have hlarge := List.find?_some hf
        exact .tooLarge hc hadded (List.mem_of_find?_eq_some hf) (of_decide_eq_true hlarge)
      | none =>
        refine .split hc hadded fun island hm => ?_
        simpa using List.find?_eq_none.1 hf island hm

section Width

variable (hi : nl.IslandsOf inputs outputs outputs islands)

include hi

theorem IslandsOf.islandReads_iff {island : Island} (hm : island ∈ islands) {o : NodeId}
    (ho : o ∈ island.outputs) (pin : NodeId) :
    nl.IslandReads outputs o pin ↔ pin ∈ island.inputs := by
  have hx := hi.exact island hm
  rw [hx.pins pin]
  constructor
  · intro hreads
    obtain ⟨hr, reader, ⟨o', hshare, hreader⟩, hread⟩ := hreads
    obtain ⟨island', hm', ho₁, ho₂⟩ := hi.same_island hshare (hx.outputs_listed.subset ho)
    obtain rfl := hi.eq_of_mem_outputs hm' hm ho₁ ho
    refine ⟨hr, reader, ?_, hread⟩
    rcases hreader with rfl | hb
    · exact .inr ho₂
    · exact .inl ((hx.nodes reader).2 (hb.mono (by simpa using ho₂)))
  · intro hpin
    obtain ⟨hr, reader, hreader, hread⟩ := hpin
    rcases hreader with hn | hout
    · obtain ⟨hg, o', ho', hp⟩ := (hx.nodes reader).1 hn
      have hbehind : nl.Behind [o'] reader := ⟨hg, o', List.mem_singleton_self o', hp⟩
      exact ⟨hr, reader, ⟨o', hx.connected o ho o' ho', .inr hbehind⟩, hread⟩
    · exact ⟨hr, reader, ⟨reader, hx.connected o ho reader hout, .inl rfl⟩, hread⟩

theorem IslandsOf.islandWidth_eq (hn : inputs.Nodup) {island : Island} (hm : island ∈ islands)
    {o : NodeId} (ho : o ∈ island.outputs) :
    nl.islandWidth outputs o = island.inputs.length := by
  have hset : {pin | nl.IslandReads outputs o pin} = ↑island.inputs.toFinset := by
    ext pin
    simp [hi.islandReads_iff hm ho]
  have hnodup : island.inputs.Nodup := hn.sublist (hi.exact island hm).inputs_listed
  rw [islandWidth, hset, Set.ncard_coe_finset, List.toFinset_card_of_nodup hnodup]

/-- An island that reads an input pin produces an output. -/
theorem IslandsOf.exists_output {island : Island} (hm : island ∈ islands)
    (hpos : 0 < island.inputs.length) : ∃ o ∈ outputs, o ∈ island.outputs := by
  have hx := hi.exact island hm
  obtain ⟨pin, hpin⟩ := List.exists_mem_of_length_pos hpos
  obtain ⟨_, reader, hreader, _⟩ := (hx.pins pin).1 hpin
  have hout : ∃ o, o ∈ island.outputs := by
    rcases hreader with hn | ho
    · obtain ⟨_, o, ho, _⟩ := (hx.nodes reader).1 hn
      exact ⟨o, ho⟩
    · exact ⟨reader, ho⟩
  obtain ⟨o, ho⟩ := hout
  exact ⟨o, hx.outputs_listed.subset ho, ho⟩

theorem IslandsOf.isCombinational : nl.Combinational outputs :=
  ⟨fun _ hb => (hi.combinational hb).1, fun _ hb => (hi.combinational hb).2⟩

end Width

/-- What blocks a walk is not there when all behind the outputs is combinational. -/
theorem Combinational.not_blocked (h : nl.Combinational outputs) {reason : Fallback} :
    ¬ nl.Blocked inputs outputs (.fallback reason) := by
  intro hb
  cases hb with
  | feedback hb hl => exact h.acyclic _ hb hl
  | stateful hb hh => exact Bool.false_ne_true ((h.stateless _ hb).symm.trans hh)

/-- A decomposition splits the netlist exactly when all behind the outputs is combinational and no
island is too wide. -/
theorem Decomposes.split_iff {verdict : Decomposition}
    (h : nl.Decomposes inputs outputs (.ok verdict)) :
    (∃ islands, verdict = .islands islands) ↔
      nl.Combinational outputs ∧ ∀ o ∈ outputs, nl.islandWidth outputs o ≤ maxTableInputs := by
  cases h with
  | blocked hc hb =>
    constructor
    · rintro ⟨islands, ⟨⟩⟩
    · intro hcomb
      exact absurd hb hcomb.1.not_blocked
  | @tooLarge islands island hc hi hm hl =>
    constructor
    · rintro ⟨islands, ⟨⟩⟩
    · intro hcomb
      obtain ⟨o, ho, ho'⟩ := hi.exists_output hm (by omega)
      have hwidth := hi.islandWidth_eq (checkBoundary_eq_ok hc).1.2 hm ho'
      have hsmall := hcomb.2 o ho
      omega
  | @split islands hc hi hl =>
    refine ⟨fun _ => ⟨hi.isCombinational, fun o ho => ?_⟩, fun _ => ⟨islands, rfl⟩⟩
    obtain ⟨island, hm, ho'⟩ := (hi.produced o).1 ho
    rw [hi.islandWidth_eq (checkBoundary_eq_ok hc).1.2 hm ho']
    exact hl island hm

theorem mem_of_share_path {o o' : NodeId} (h : ReflTransGen (nl.Share outputs) o o')
    (ho : o ∈ outputs) : o' ∈ outputs := by
  induction h with
  | refl => exact ho
  | tail _ hs => exact hs.2.1

namespace Embeds

/-- A part has with an output all that lies behind it. -/
theorem part_of_behind (h : nl.Embeds nl' part f) (hp : ∀ o ∈ outputs, part o) {id : NodeId}
    (hb : nl.Behind outputs id) : part id := by
  obtain ⟨_, o, ho, hpath⟩ := hb
  exact (h.transGen (hp o ho) hpath).2

/-- A copy of what lies behind the outputs is as combinational as the original. -/
theorem combinational_iff (h : nl.Embeds nl' part f) (hp : ∀ o ∈ outputs, part o) :
    nl'.Combinational (outputs.map f) ↔ nl.Combinational outputs := by
  constructor
  · intro hc
    constructor
    · intro id hb hl
      have hid := h.part_of_behind hp hb
      have hb' := (h.behind_iff hp).2 ⟨id, hid, hb, rfl⟩
      exact hc.acyclic _ hb' ((h.loop_iff hid).2 hl)
    · intro id hb
      have hid := h.part_of_behind hp hb
      have hb' := (h.behind_iff hp).2 ⟨id, hid, hb, rfl⟩
      rw [← h.isHierarchical hid hb.1]
      exact hc.stateless _ hb'
  · intro hc
    constructor
    · intro id' hb'
      obtain ⟨id, hid, hb, rfl⟩ := (h.behind_iff hp).1 hb'
      rw [h.loop_iff hid]
      exact hc.acyclic id hb
    · intro id' hb'
      obtain ⟨id, hid, hb, rfl⟩ := (h.behind_iff hp).1 hb'
      rw [h.isHierarchical hid hb.1]
      exact hc.stateless id hb

section Island

variable (h : nl.Embeds nl' part f) (hp : ∀ o ∈ outputs, part o) {o q : NodeId}

include hp in
theorem part_of_output (ho : o ∈ outputs) : ∀ id ∈ [o], part id := by
  intro id hid
  rw [List.mem_singleton.1 hid]
  exact hp o ho

include h hp

theorem part_of_inIsland (ho : o ∈ outputs) {id : NodeId} (hin : nl.InIsland outputs o id) :
    part id := by
  obtain ⟨o', hpath, hid⟩ := hin
  have ho' := mem_of_share_path hpath ho
  rcases hid with rfl | hb
  · exact hp id ho'
  · exact h.part_of_behind (part_of_output hp ho') hb

theorem share_iff (ho : o ∈ outputs) :
    nl'.Share (outputs.map f) (f o) q ↔ ∃ o', nl.Share outputs o o' ∧ f o' = q := by
  have hpo := part_of_output hp ho
  constructor
  · intro hs
    obtain ⟨_, hq, id', hb, hb'⟩ := hs
    obtain ⟨o', ho', rfl⟩ := List.mem_map.1 hq
    obtain ⟨id, hid, hbehind, rfl⟩ := (h.behind_iff hpo).1 hb
    obtain ⟨id₂, hid₂, hbehind₂, he⟩ := (h.behind_iff (part_of_output hp ho')).1 hb'
    obtain rfl := h.injective hid₂ hid he
    exact ⟨o', ⟨ho, ho', id₂, hbehind, hbehind₂⟩, rfl⟩
  · intro hs
    obtain ⟨o', ⟨_, ho', id, hb, hb'⟩, rfl⟩ := hs
    have hid := h.part_of_behind hpo hb
    have hcopy := (h.behind_iff hpo).2 ⟨id, hid, hb, rfl⟩
    have hcopy' := (h.behind_iff (part_of_output hp ho')).2 ⟨id, hid, hb', rfl⟩
    exact ⟨List.mem_map_of_mem ho, List.mem_map_of_mem ho', f id, hcopy, hcopy'⟩

theorem share_path_iff (ho : o ∈ outputs) :
    ReflTransGen (nl'.Share (outputs.map f)) (f o) q ↔
      ∃ o', ReflTransGen (nl.Share outputs) o o' ∧ f o' = q := by
  constructor
  · intro hpath
    induction hpath with
    | refl => exact ⟨o, .refl, rfl⟩
    | tail _ hs ih =>
      obtain ⟨b, hpath, rfl⟩ := ih
      obtain ⟨c, hshare, rfl⟩ := (h.share_iff hp (mem_of_share_path hpath ho)).1 hs
      exact ⟨c, hpath.tail hshare, rfl⟩
  · intro hpath
    obtain ⟨o', hpath, rfl⟩ := hpath
    exact hpath.lift f fun a b hs => (h.share_iff hp hs.1).2 ⟨b, hs, rfl⟩

theorem inIsland_iff (ho : o ∈ outputs) :
    nl'.InIsland (outputs.map f) (f o) q ↔
      ∃ id, part id ∧ nl.InIsland outputs o id ∧ f id = q := by
  constructor
  · intro hin
    obtain ⟨p, hcopies, hq⟩ := hin
    obtain ⟨o', hpath, rfl⟩ := (h.share_path_iff hp ho).1 hcopies
    have ho' := mem_of_share_path hpath ho
    rcases hq with rfl | hb
    · exact ⟨o', hp o' ho', ⟨o', hpath, .inl rfl⟩, rfl⟩
    · obtain ⟨id, hid, hbehind, rfl⟩ := (h.behind_iff (part_of_output hp ho')).1 hb
      exact ⟨id, hid, ⟨o', hpath, .inr hbehind⟩, rfl⟩
  · intro hin
    obtain ⟨id, hid, ⟨o', hpath, hq⟩, rfl⟩ := hin
    refine ⟨f o', (h.share_path_iff hp ho).2 ⟨o', hpath, rfl⟩, ?_⟩
    rcases hq with rfl | hb
    · exact .inl rfl
    · have hpo := part_of_output hp (mem_of_share_path hpath ho)
      exact .inr ((h.behind_iff hpo).2 ⟨id, hid, hb, rfl⟩)

/-- The island of a copy reads the copies of the pins that the island of the output reads. -/
theorem islandReads_iff (ho : o ∈ outputs) :
    nl'.IslandReads (outputs.map f) (f o) q ↔
      ∃ pin, part pin ∧ nl.IslandReads outputs o pin ∧ f pin = q := by
  constructor
  · intro hreads
    obtain ⟨hrole, reader', hin', hread'⟩ := hreads
    obtain ⟨reader, hr, hin, rfl⟩ := (h.inIsland_iff hp ho).1 hin'
    obtain ⟨pin, hpin, hread, rfl⟩ := h.exists_of_reads hr hread'
    exact ⟨pin, hpin, ⟨(h.role hpin).symm.trans hrole, reader, hin, hread⟩, rfl⟩
  · intro hcopy
    obtain ⟨pin, hpin, ⟨hrole, reader, hin, hread⟩, rfl⟩ := hcopy
    have hr := h.part_of_inIsland hp ho hin
    have hin' := (h.inIsland_iff hp ho).2 ⟨reader, hr, hin, rfl⟩
    exact ⟨(h.role hpin).trans hrole, f reader, hin', h.reads hr hread⟩

theorem islandWidth_eq (ho : o ∈ outputs) :
    nl'.islandWidth (outputs.map f) (f o) = nl.islandWidth outputs o := by
  have himage : {q | nl'.IslandReads (outputs.map f) (f o) q} =
      f '' {pin | part pin ∧ nl.IslandReads outputs o pin} := by
    ext q
    simp [h.islandReads_iff hp ho, and_assoc]
  have hpart : {pin | part pin ∧ nl.IslandReads outputs o pin} =
      {pin | nl.IslandReads outputs o pin} := by
    ext pin
    refine ⟨fun hpin => hpin.2, fun hreads => ⟨?_, hreads⟩⟩
    obtain ⟨_, reader, hin, hread⟩ := hreads
    exact h.closed (h.part_of_inIsland hp ho hin) hread
  have hinj : Set.InjOn f {pin | part pin ∧ nl.IslandReads outputs o pin} := by
    intro a ha b hb he
    exact h.injective ha.1 hb.1 he
  rw [islandWidth, islandWidth, himage, hinj.ncard_image, hpart]

end Island

end Embeds

section Order

variable {outputs' : List NodeId}

theorem Share.mono {o o' : NodeId} (h : nl.Share outputs o o') (hs : outputs ⊆ outputs') :
    nl.Share outputs' o o' := by
  obtain ⟨ho, ho', id, hb, hb'⟩ := h
  exact ⟨hs ho, hs ho', id, hb, hb'⟩

theorem IslandReads.mono {o pin : NodeId} (h : nl.IslandReads outputs o pin)
    (hs : outputs ⊆ outputs') : nl.IslandReads outputs' o pin := by
  obtain ⟨hr, reader, ⟨o', hpath, hreader⟩, hread⟩ := h
  have hpath' : ReflTransGen (nl.Share outputs') o o' :=
    ReflTransGen.mono (fun _ _ hshare => hshare.mono hs) o o' hpath
  exact ⟨hr, reader, ⟨o', hpath', hreader⟩, hread⟩

theorem Combinational.mono (h : nl.Combinational outputs) (hs : outputs' ⊆ outputs) :
    nl.Combinational outputs' :=
  ⟨fun id hb => h.acyclic id (hb.mono hs), fun id hb => h.stateless id (hb.mono hs)⟩

/-- The width of an island does not depend on the order in which the outputs are listed. -/
theorem islandWidth_perm (h : outputs'.Perm outputs) (o : NodeId) :
    nl.islandWidth outputs' o = nl.islandWidth outputs o := by
  unfold islandWidth
  congr 1
  ext pin
  exact ⟨fun hreads => hreads.mono h.subset, fun hreads => hreads.mono h.symm.subset⟩

theorem combinational_perm (h : outputs'.Perm outputs) :
    nl.Combinational outputs' ↔ nl.Combinational outputs :=
  ⟨fun hc => hc.mono h.symm.subset, fun hc => hc.mono h.subset⟩

/-- A copy, with its outputs listed in any order, is split exactly when the original is. -/
theorem Decomposes.split_copy_iff {inputs' : List NodeId} {verdict verdict' : Decomposition}
    (h : nl.Decomposes inputs outputs (.ok verdict))
    (h' : nl'.Decomposes inputs' outputs' (.ok verdict')) (he : nl.Embeds nl' part f)
    (hp : ∀ o ∈ outputs, part o) (hperm : outputs'.Perm (outputs.map f)) :
    (∃ islands, verdict' = .islands islands) ↔ ∃ islands, verdict = .islands islands := by
  have widths : (∀ o' ∈ outputs', nl'.islandWidth outputs' o' ≤ maxTableInputs) ↔
      ∀ o ∈ outputs, nl.islandWidth outputs o ≤ maxTableInputs := by
    constructor
    · intro hsmall o ho
      have hcopy := hsmall (f o) (hperm.symm.subset (List.mem_map_of_mem ho))
      rwa [islandWidth_perm hperm, he.islandWidth_eq hp ho] at hcopy
    · intro hsmall o' ho'
      obtain ⟨o, ho, rfl⟩ := List.mem_map.1 (hperm.subset ho')
      rw [islandWidth_perm hperm, he.islandWidth_eq hp ho]
      exact hsmall o ho
  rw [h.split_iff, h'.split_iff, combinational_perm hperm, he.combinational_iff hp, widths]

end Order

/-- What the verdict of a decomposition tells: it splits exactly the netlists that are
combinational behind the outputs and whose islands are narrow enough for tables, and its reason for
not splitting is one that is there. The order in which outputs are listed and nodes were made has no
part in it. -/
theorem Reachable.decompose_verdict (hr : nl.Reachable) {verdict : Decomposition}
    (h : nl.decompose inputs outputs = .ok verdict) :
    ((∃ islands, verdict = .islands islands) ↔
      nl.Combinational outputs ∧ ∀ o ∈ outputs, nl.islandWidth outputs o ≤ 16) ∧
    (∀ id, verdict = .fallback (.feedback id) →
      nl.Behind outputs id ∧ TransGen nl.Reads id id) ∧
    (∀ id, verdict = .fallback (.statefulGate id) →
      nl.Behind outputs id ∧ nl.isHierarchical id = true) ∧
    (∀ k, verdict = .fallback (.tableTooLarge k) →
      nl.Combinational outputs ∧ 16 < k ∧ ∃ o ∈ outputs, nl.islandWidth outputs o = k) ∧
    ∀ {nl' : Netlist Gate} {part : NodeId → Prop} {f : NodeId → NodeId}
      {inputs' outputs' : List NodeId} {verdict' : Decomposition}, nl'.Reachable →
      nl.Embeds nl' part f → (∀ o ∈ outputs, part o) → outputs'.Perm (outputs.map f) →
      nl'.decompose inputs' outputs' = .ok verdict' →
      ((∃ islands, verdict' = .islands islands) ↔ ∃ islands, verdict = .islands islands) := by
  have hd := hr.wellFormed.decomposes inputs outputs
  rw [h] at hd
  refine ⟨hd.split_iff, ?_, ?_, ?_, ?_⟩
  · rintro id rfl
    cases hd with
    | blocked _ hb =>
      cases hb with
      | feedback hbehind hloop => exact ⟨hbehind, hloop⟩
  · rintro id rfl
    cases hd with
    | blocked _ hb =>
      cases hb with
      | stateful hbehind hh => exact ⟨hbehind, hh⟩
  · rintro k rfl
    cases hd with
    | blocked _ hb => nomatch hb
    | tooLarge hc hi hm hl =>
      obtain ⟨o, ho, ho'⟩ := hi.exists_output hm (Nat.zero_lt_of_lt hl)
      exact ⟨hi.isCombinational, hl, o, ho, hi.islandWidth_eq (checkBoundary_eq_ok hc).1.2 hm ho'⟩
  · intro nl' part f inputs' outputs' verdict' hr' he hp hperm h'
    have hd' := hr'.wellFormed.decomposes inputs' outputs'
    rw [h'] at hd'
    exact hd.split_copy_iff hd' he hp hperm

/-- The latch with one more output, which shows its input. -/
def watchedLatch : Netlist Gate := ((latch.addOutput "B").2.link 3 0 0 0).2

theorem reachable_watchedLatch : watchedLatch.Reachable :=
  (reachable_latch.addOutput "B").link 3 0 0 0

/-- The loop of the latch blocks a split wherever its output is listed, and only then. -/
theorem decompose_verdict_watchedLatch :
    watchedLatch.Reachable ∧
      watchedLatch.decompose [0] [1, 3] = .ok (.fallback (.feedback 2)) ∧
      watchedLatch.decompose [0] [3] = .ok (.islands [⟨[0], [3], []⟩]) ∧
      watchedLatch.Behind [1, 3] 2 ∧ TransGen watchedLatch.Reads 2 2 ∧
      watchedLatch.Combinational [3] ∧ ¬ watchedLatch.Combinational [1, 3] ∧
      ∀ verdict, watchedLatch.decompose [0] [3, 1] = .ok verdict →
        ¬ ∃ islands, verdict = .islands islands := by
  have hloop : watchedLatch.decompose [0] [1, 3] = .ok (.fallback (.feedback 2)) := by cbv
  have hpart : watchedLatch.decompose [0] [3] = .ok (.islands [⟨[0], [3], []⟩]) := by cbv
  obtain ⟨_, hfeedback, _, _, hperm⟩ := Reachable.decompose_verdict reachable_watchedLatch hloop
  obtain ⟨hsplit, _⟩ := Reachable.decompose_verdict reachable_watchedLatch hpart
  obtain ⟨hbehind, hcycle⟩ := hfeedback 2 rfl
  refine ⟨reachable_watchedLatch, hloop, hpart, hbehind, hcycle, (hsplit.1 ⟨_, rfl⟩).1,
    fun hc => hc.acyclic 2 hbehind hcycle, ?_⟩
  intro verdict hv hislands
  have hself : watchedLatch.Embeds watchedLatch (fun _ => True) id :=
    (Alike.refl watchedLatch).embeds fun _ _ => trivial
  obtain ⟨_, hne⟩ := (hperm reachable_watchedLatch hself (fun _ _ => trivial)
    (List.Perm.swap 1 3 []) hv).1 hislands
  cases hne

end Netlist

end Breadboard
