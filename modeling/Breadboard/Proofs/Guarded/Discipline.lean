import Breadboard.Proofs.Evaluation.Acyclic
import Breadboard.Proofs.Guarded.Gates

namespace Breadboard

open Netlist

namespace Guarded

/-- What the gates answer in a scope, and nothing where one commits a fault. -/
def Scope.answers (t : Scope) (id : NodeId) (inputs : Bits) (inner : Context)
    (before : Option Context) : Outcome Bits :=
  (t.respond id inputs inner before).toOption.getD ⟨[], ∅, []⟩

/-- The surroundings without checks in which the gates answer what they do in the scope. -/
def Scope.settled (t : Scope) : Surroundings := t.plain t.answers

/-- The gates of the scope answer one value for each output, if they answer at all, and leave what
they leave when they compute alone, if their parts fit. -/
structure Scope.Checked (t : Scope) : Prop where
  wellFormed : t.netlist.WellFormed
  count : ∀ {id g inputs before answer}, t.netlist.role? id = some (.gate g) →
    t.respond id inputs ∅ before = .ok answer → answer.value.length = g.outputs.length
  leaves : ∀ {id g inputs before answer}, t.netlist.role? id = some (.gate g) →
    inputs.length = g.inputs.length → t.respond id inputs ∅ before = .ok answer → g.Sound →
    g.Leaves answer.context

/-- The states in which the loop of an evaluation stands, with the number of its iterations. Each
iteration is a step of which all checks hold. -/
inductive Scope.Reaches (t : Scope) (ctx : Context) (root : NodeId) : Nat → Walk → Prop where
  | start : Reaches t ctx root 0 (Walk.start ctx root)
  | step {k : Nat} {w w' : Walk} (h : Reaches t ctx root k w) (hw : w.frames ≠ [])
      (hs : Guarded.step t w = .ok w') : Reaches t ctx root (k + 1) w'

/-- The gate of the latest node was given one value for each of its inputs, and commits a fault
when it computes with them in a fresh context. -/
def Scope.Fails (t : Scope) (w : Walk) (fault : Fault) : Prop :=
  ∃ frame below g before, w.frames = frame :: below ∧
    t.netlist.role? frame.node = some (.gate g) ∧ frame.resolved.length = g.inputs.length ∧
    t.respond frame.node frame.resolved ∅ before = .error fault

/-- A state of the loop. The stack holds the waiting nodes, and what was cached when the evaluation
was called is cached still. If no node waits the evaluation answers what the state holds. Else there
is a next iteration, one of those that `Walk.Turn` lists, which lowers the work that is left, or the
evaluation ends with the fault of a gate. -/
structure Scope.Disciplined (t : Scope) (ctx : Context) (root : NodeId) (k : Nat) (w : Walk) :
    Prop where
  stacked : w.Stacked t.netlist
  kept : ∀ {id outputs}, ctx.cached.get? id = some outputs → w.context.cached.get? id = some outputs
  bounded : k + w.work t.settled ≤ t.netlist.walkBound
  ended : w.frames = [] → evalNode t ctx root =
    .ok ⟨(w.context.cached.get? root).getD [], w.context, w.calls⟩
  next : ∀ frame below, w.frames = frame :: below →
    (∃ w', step t w = .ok w' ∧ w.Turn t.settled frame below w' ∧
      w'.work t.settled < w.work t.settled) ∨
    ∃ fault, t.Fails w fault ∧ step t w = .error fault ∧ evalNode t ctx root = .error fault

/-- The context that one call of an evaluation leaves. -/
def call (t : Scope) (ctx : Context) : Call → Except Fault Context
  | .node id => do .ok (← evalNode t ctx id).context
  | .pin id => do .ok (← readPin t ctx id).context
  | .link link => do .ok (← evalLink t ctx link).context

end Guarded

namespace Context

/-- No walk is under way. -/
structure Idle (ctx : Context) : Prop where
  nodes : ctx.processing.nodes = []
  coherent : ctx.processing.Coherent

/-- A context that was used with one netlist only: for evaluations that committed no fault, after
any tick before, with pins overridden and the netlist edited between them. -/
inductive UsedWith : Netlist Gate → Context → Prop where
  | fresh {nl : Netlist Gate} (h : nl.Reachable) (pins : NodeMap Bool) : UsedWith nl { pins }
  | setPin {nl : Netlist Gate} {ctx : Context} (h : UsedWith nl ctx) (id : NodeId) (value : Bool) :
      UsedWith nl (ctx.setPin id value)
  | edit {nl : Netlist Gate} {ctx : Context} (h : UsedWith nl ctx) (e : Edit) :
      UsedWith (nl.edit e) ctx
  | call {nl : Netlist Gate} {ctx ctx' : Context} (h : UsedWith nl ctx) (previous : Option Context)
      (c : Call) (hc : Guarded.call (Guarded.within nl previous) ctx c = .ok ctx') :
      UsedWith nl ctx'

end Context

namespace Guarded

variable {t : Scope} {ctx ctx' : Context} {w w' : Walk} {frame : Frame} {below : List Frame}
  {root : NodeId} {k : Nat}

section checked

variable (ht : t.Checked)

include ht

/-- An iteration makes a step of the walk without checks, or the gate of the latest node has
failed. -/
theorem Scope.Checked.step (hi : w.Stacked t.netlist) (hm : w.context.Matches t.netlist)
    (hf : w.frames = frame :: below) :
    (Guarded.step t w = .ok (w.step t.settled) ∧
      (w.step t.settled).context.Matches t.netlist) ∨
    ∃ fault, t.Fails w fault ∧ Guarded.step t w = .error fault := by
  have hmem : frame ∈ w.frames := hf ▸ List.mem_cons_self
  obtain ⟨g, hg⟩ := hi.gate frame hmem
  have hslots := ht.wellFormed.slotCount hg
  cases hr : t.respond frame.node frame.resolved ∅ (t.before frame.node g) with
  | ok answer =>
    refine .inl (step_eq ht.wellFormed hi hm hf hg fun hlength => ?_)
    have hanswer : t.answers frame.node frame.resolved ∅ (t.before frame.node g) = answer := by
      rw [Scope.answers, hr]
      rfl
    exact ⟨by rw [hr, hanswer], hanswer ▸ ht.count hg hr,
      fun hs => hanswer ▸ ht.leaves hg (hlength.trans hslots) hr hs⟩
  | error fault =>
    by_cases hlength : frame.resolved.length = (t.netlist.slots frame.node).length
    · refine .inr ⟨fault, ⟨frame, below, g, _, hf, hg, hlength.trans hslots, hr⟩, ?_⟩
      have hnone : (t.netlist.slots frame.node)[frame.resolved.length]? = none :=
        List.getElem?_eq_none_iff.2 (Nat.le_of_eq hlength.symm)
      have hfire : fire t frame.node g frame.resolved w.context = .error fault := by
        rw [fire_eq (hm.nested (hi.fresh frame hmem)), hr]
        rfl
      simp only [Guarded.step, hf, gate?_eq_some_iff.2 hg, hnone, hfire]
      rfl
    · exact .inl (step_eq ht.wellFormed hi hm hf hg fun h => absurd h hlength)

/-- What is cached, and which runs are left, at a state of the loop. -/
structure Scope.Loop (t : Scope) (ctx : Context) (root : NodeId) (k : Nat) (w : Walk) : Prop where
  stacked : w.Stacked t.netlist
  matching : w.context.Matches t.netlist
  kept : ∀ {id outputs}, ctx.cached.get? id = some outputs → w.context.cached.get? id = some outputs
  bounded : k + w.work t.settled ≤ t.netlist.walkBound
  run : run t t.netlist.walkBound (Walk.start ctx root) = run t (t.netlist.walkBound - k) w

omit ht in
theorem Scope.loop_start (hu : ctx.Usable t.netlist) (hg : t.netlist.IsGate root)
    (hc : ctx.cached.get? root = none) : t.Loop ctx root 0 (Walk.start ctx root) where
  stacked := Walk.stacked_start hu.idle hu.coherent hg hc
  matching := ⟨hu.known, hu.width, hu.nested, hu.left⟩
  kept ho := ho
  bounded := by
    have hwork : (Walk.start ctx root).work t.settled ≤ t.settled.netlist.walkBound :=
      Walk.work_start_le hg
    rwa [Nat.zero_add]
  run := rfl

omit ht in
/-- Fuel is left for an iteration, as some work is left. -/
theorem Scope.Loop.run_eq (h : t.Loop ctx root k w) (hf : w.frames = frame :: below) :
    Guarded.run t t.netlist.walkBound (Walk.start ctx root) =
      Guarded.step t w >>= Guarded.run t (t.netlist.walkBound - (k + 1)) := by
  have hturn : w.Turn t.settled frame below (w.step t.settled) := h.stacked.turn hf
  have hlt := hturn.work_lt h.stacked hf
  have hbounded := h.bounded
  have hfuel : t.netlist.walkBound - k = t.netlist.walkBound - (k + 1) + 1 := by omega
  rw [h.run, hfuel, Guarded.run, hf, List.isEmpty_cons, if_neg Bool.false_ne_true]

theorem Scope.Loop.step (h : t.Loop ctx root k w) (hw : w.frames ≠ [])
    (hs : Guarded.step t w = .ok w') : t.Loop ctx root (k + 1) w' := by
  obtain ⟨frame, below, hf⟩ := List.exists_cons_of_ne_nil hw
  have hturn : w.Turn t.settled frame below (w.step t.settled) := h.stacked.turn hf
  have hlt := hturn.work_lt h.stacked hf
  have hbounded := h.bounded
  rcases ht.step h.stacked h.matching hf with ⟨hstep, hm⟩ | ⟨fault, -, hstep⟩
  · obtain rfl := Except.ok.inj (hstep.symm.trans hs)
    refine ⟨hturn.stacked h.stacked hf, hm, ?_, by omega, ?_⟩
    · exact fun ho => (hturn.extends_of h.stacked hf).cached (h.kept ho)
    · rw [h.run_eq hf, hs, ok_bind]
  · cases hstep.symm.trans hs

section walk

variable (hu : ctx.Usable t.netlist) (hg : t.netlist.IsGate root)
  (hc : ctx.cached.get? root = none)

include hu hg hc

theorem Scope.Reaches.loop (h : t.Reaches ctx root k w) : t.Loop ctx root k w := by
  induction h with
  | start => exact Scope.loop_start hu hg hc
  | step h hw hs ih => exact ih.step ht hw hs

omit ht hu in
theorem evalNode_eq_run : evalNode t ctx root = (do
    let w ← run t t.netlist.walkBound (Walk.start ctx root)
    .ok ⟨(w.context.cached.get? root).getD [], w.context, w.calls⟩) := by
  obtain ⟨g, hg⟩ := hg
  have hk : t.netlist.kind? root = some (.gate g) := kind?_eq_gate_iff.2 hg
  simp only [evalNode, hc, hk]

/-- Every state of the loop keeps the discipline of the stack. -/
theorem Scope.Reaches.disciplined (h : t.Reaches ctx root k w) : t.Disciplined ctx root k w := by
  have hloop := h.loop ht hu hg hc
  refine ⟨hloop.stacked, hloop.kept, hloop.bounded, ?_, ?_⟩
  · intro hf
    have hrun : run t (t.netlist.walkBound - k) w = .ok w := by
      cases t.netlist.walkBound - k <;> rw [run, hf, List.isEmpty_nil, if_pos rfl]
    rw [evalNode_eq_run hg hc, hloop.run, hrun, ok_bind]
  · intro frame below hf
    have hturn : w.Turn t.settled frame below (w.step t.settled) := hloop.stacked.turn hf
    rcases ht.step hloop.stacked hloop.matching hf with ⟨hstep, -⟩ | ⟨fault, hfails, hstep⟩
    · exact .inl ⟨_, hstep, hturn, hturn.work_lt hloop.stacked hf⟩
    · refine .inr ⟨fault, hfails, hstep, ?_⟩
      rw [evalNode_eq_run hg hc, hloop.run_eq hf, hstep]
      rfl

/-- The loop comes to an end, as each iteration lowers the work that is left. -/
theorem Scope.Reaches.exists_end (h : t.Reaches ctx root k w) :
    ∃ n last, t.Reaches ctx root n last ∧ (last.frames = [] ∨
      ∃ fault, t.Fails last fault ∧ evalNode t ctx root = .error fault) := by
  induction hwork : w.work t.settled using Nat.strong_induction_on generalizing k w with
  | h work ih =>
    cases hf : w.frames with
    | nil => exact ⟨k, w, h, .inl hf⟩
    | cons frame below =>
      have hw : w.frames ≠ [] := hf ▸ List.cons_ne_nil frame below
      rcases (h.disciplined ht hu hg hc).next frame below hf with
        ⟨w', hs, -, hlt⟩ | ⟨fault, hfails, -, he⟩
      · exact ih _ (hwork ▸ hlt) (h.step hw hs) rfl
      · exact ⟨k, w, h, .inr ⟨fault, hfails, he⟩⟩

end walk

omit ht in
/-- An evaluation walks, or it answers at once and caches an input pin at most. -/
theorem evalNode_cases (t : Scope) (ctx : Context) (root : NodeId) :
    t.netlist.IsGate root ∧ ctx.cached.get? root = none ∨
    ∃ answer, evalNode t ctx root = .ok answer ∧ (answer.context = ctx ∨
      t.netlist.role? root = some .input ∧
        ∃ value, ctx.Caches answer.context root [value] ∧
          answer.context.processing = ctx.processing) := by
  unfold evalNode
  cases hc : ctx.cached.get? root with
  | some outputs => exact .inr ⟨_, rfl, .inl rfl⟩
  | none =>
    cases hk : t.netlist.kind? root with
    | none => exact .inr ⟨_, rfl, .inl rfl⟩
    | some kind =>
      cases kind with
      | output pin => exact .inr ⟨_, rfl, .inl rfl⟩
      | gate g => exact .inl ⟨⟨g, kind?_eq_gate_iff.1 hk⟩, rfl⟩
      | input pin =>
        have hr : t.netlist.role? root = some .input := by simp [role?, hk, NodeKind.role]
        simp only [cache_eq hc, ok_bind]
        exact .inr ⟨_, rfl, .inr ⟨hr, _, Context.caches_cache _ hc, rfl⟩⟩

/-- An evaluation that commits no fault leaves a context that can be used again, in which all is
cached that was. -/
theorem usable_evalNode (hu : ctx.Usable t.netlist) {answer : Outcome Bits}
    (h : evalNode t ctx root = .ok answer) :
    answer.context.Usable t.netlist ∧ ∀ {id outputs}, ctx.cached.get? id = some outputs →
      answer.context.cached.get? id = some outputs := by
  rcases evalNode_cases t ctx root with ⟨hg, hc⟩ | ⟨answer', he, hanswer⟩
  · obtain ⟨n, w, hreaches, hf | ⟨fault, -, he⟩⟩ := Scope.Reaches.exists_end ht hu hg hc .start
    · have hloop := hreaches.loop ht hu hg hc
      have hended := (hreaches.disciplined ht hu hg hc).ended hf
      obtain rfl := Except.ok.inj (hended.symm.trans h)
      refine ⟨⟨hloop.matching, ?_, hloop.stacked.coherent⟩, hloop.kept⟩
      rw [hloop.stacked.stack, hf, List.map_nil]
    · cases he.symm.trans h
  · obtain rfl := Except.ok.inj (he.symm.trans h)
    rcases hanswer with hsame | ⟨hr, value, hcaches, hp⟩
    · rw [hsame]
      exact ⟨hu, fun ho => ho⟩
    · exact ⟨⟨hu.toMatches.caches_input hcaches hr, hp ▸ hu.idle, hp ▸ hu.coherent⟩,
        fun ho => hcaches.extends_of.cached ho⟩

theorem usable_evalLink (hu : ctx.Usable t.netlist) {link : Option Link} {answer : Outcome Bool}
    (h : evalLink t ctx link = .ok answer) : answer.context.Usable t.netlist := by
  cases link with
  | none =>
    obtain rfl := Except.ok.inj h
    exact hu
  | some link =>
    rw [evalLink] at h
    split at h
    · obtain ⟨first, he, h⟩ := exists_of_bind h
      obtain rfl := Except.ok.inj h
      exact (usable_evalNode ht hu he).1
    · obtain rfl := Except.ok.inj h
      exact hu

theorem usable_call (hu : ctx.Usable t.netlist) {c : Call} (h : call t ctx c = .ok ctx') :
    ctx'.Usable t.netlist := by
  cases c with
  | node id =>
    obtain ⟨answer, he, h⟩ := exists_of_bind h
    exact Except.ok.inj h ▸ (usable_evalNode ht hu he).1
  | pin id =>
    obtain ⟨answer, he, h⟩ := exists_of_bind h
    exact Except.ok.inj h ▸ usable_evalLink ht hu he
  | link link =>
    obtain ⟨answer, he, h⟩ := exists_of_bind h
    exact Except.ok.inj h ▸ usable_evalLink ht hu he

end checked

theorem checked_within {nl : Netlist Gate} (hw : nl.WellFormed) (previous : Option Context) :
    (within nl previous).Checked where
  wellFormed := hw
  count {id g inputs before answer} hg h := by
    have hgate : nl.gate? id = some g := gate?_eq_some_iff.2 hg
    simp only [within, respond, hgate] at h
    exact length_of_compute h
  leaves {id g inputs before answer} hg hi h hs := by
    have hgate : nl.gate? id = some g := gate?_eq_some_iff.2 hg
    simp only [within, respond, hgate] at h
    have hanswer := (hs.answers hi (Context.serves_empty g) before).eq
    exact ⟨inputs, before, hi, congrArg Outcome.context (Except.ok.inj (h.symm.trans hanswer))⟩

end Guarded

open Guarded

variable {nl : Netlist Gate} {ctx : Context} {root : NodeId}

namespace Context.UsedWith

theorem wellFormed (h : ctx.UsedWith nl) : nl.WellFormed := by
  induction h with
  | fresh h pins => exact h.wellFormed
  | setPin _ id value ih => exact ih
  | edit _ e ih => exact ih.edit e
  | call _ previous c hc ih => exact ih

/-- The netlist may be edited, as no handle is given out again. -/
theorem usable (h : ctx.UsedWith nl) : ctx.Usable nl := by
  induction h with
  | fresh h pins => exact usable_fresh _ pins
  | setPin _ id value ih => exact ih.setPin id value
  | edit _ e ih => exact ih.later (later_edit _ e)
  | call h previous c hc ih => exact usable_call (checked_within h.wellFormed previous) ih hc

/-- Evaluating a node of a netlist in a context that was used with it only. The stack is empty
before and after, and nothing that was cached changes. If the node is a gate that is not cached, the
evaluation is a loop, each state of which keeps the discipline of the stack; it comes to an end, at
which no node waits or a gate has committed a fault. No other evaluation commits one, and none does
over gates whose parts fit. -/
theorem walk_disciplined (hu : ctx.UsedWith nl) (previous : Option Context) (root : NodeId) :
    let t := Guarded.within nl previous
    ctx.Idle ∧
    (∀ answer, Guarded.evalNode t ctx root = .ok answer → answer.context.Idle ∧
      ∀ id outputs, ctx.cached.get? id = some outputs →
        answer.context.cached.get? id = some outputs) ∧
    (nl.IsGate root → ctx.cached.get? root = none →
      (∀ k w, t.Reaches ctx root k w → t.Disciplined ctx root k w) ∧
      ∃ n w, t.Reaches ctx root n w ∧ (w.frames = [] ∨ ∃ fault, t.Fails w fault) ∧
        (nl.MadeOf Gate.Sound → w.frames = [])) ∧
    ∀ fault, Guarded.evalNode t ctx root = .error fault →
      nl.IsGate root ∧ ctx.cached.get? root = none ∧ ¬ nl.MadeOf Gate.Sound := by
  intro t
  have ht : t.Checked := checked_within hu.wellFormed previous
  have hsound (hm : nl.MadeOf Gate.Sound) : ∃ answer, Guarded.evalNode t ctx root = .ok answer :=
    have hsafe := Netlist.Sound.safe ⟨hu.wellFormed, hm⟩ previous
    ⟨_, (runs_evalNode hsafe hu.usable root).eq⟩
  refine ⟨⟨hu.usable.idle, hu.usable.coherent⟩, ?_, ?_, ?_⟩
  · intro answer h
    obtain ⟨hafter, hkept⟩ := usable_evalNode ht hu.usable h
    exact ⟨⟨hafter.idle, hafter.coherent⟩, fun _ _ ho => hkept ho⟩
  · intro hg hc
    obtain ⟨n, w, hreaches, hend⟩ := Scope.Reaches.exists_end ht hu.usable hg hc .start
    refine ⟨fun k w h => h.disciplined ht hu.usable hg hc, n, w, hreaches, ?_, fun hm => ?_⟩
    · exact hend.imp_right fun ⟨fault, hfails, _⟩ => ⟨fault, hfails⟩
    · obtain ⟨answer, ha⟩ := hsound hm
      exact hend.resolve_right fun ⟨_, _, he⟩ => by cases he.symm.trans ha
  · intro fault he
    rcases evalNode_cases t ctx root with ⟨hg, hc⟩ | ⟨answer, ha, -⟩
    · refine ⟨hg, hc, fun hm => ?_⟩
      obtain ⟨answer, ha⟩ := hsound hm
      cases he.symm.trans ha
    · cases he.symm.trans ha

end Context.UsedWith

namespace Netlist

theorem madeOf_invertedLatch {P : Gate → Prop} (hor : P Primitive.or.gate)
    (hnot : P Primitive.not.gate) : invertedLatch.MadeOf P := by
  change Netlist.MadeOf P ((∅ : Netlist Gate).edits [.addInput "A", .addOutput "Q",
    .place Primitive.or.gate, .link 2 0 0 0, .link 2 1 2 0, .link 1 0 2 0,
    .place Primitive.not.gate, .link 3 0 0 0, .link 2 0 3 0])
  refine (madeOf_empty P).edits ?_
  intro g hg
  obtain rfl | rfl : g = Primitive.or.gate ∨ g = Primitive.not.gate := by simpa using hg
  · exact hor
  · exact hnot

/-- A gate that answers no value for the output that it declares. -/
def mute : Gate where
  name := "MUTE"
  inputs := []
  outputs := ["X"]
  logic := .primitive ⟨0, fun _ => []⟩
  metadata := ∅

/-- An inverter that reads the gate. -/
def muted : Netlist Gate :=
  (∅ : Netlist Gate).edits [.place mute, .place Primitive.not.gate, .link 1 0 0 0]

/-- The pin of the latch is cached before it is driven low, so its inverter reads a high value above
the gate that entered it, and the walk ends with low outputs. Over the gate that answers too few
values a walk ends with a fault. -/
theorem walk_disciplined_invertedLatch :
    let nl := invertedLatch.edits [.drive 0 true, .drive 0 false]
    let ctx := (∅ : Context).cache 0 [true]
    let t := Guarded.within nl none
    let silent := Guarded.within muted none
    ctx.UsedWith nl ∧ nl.MadeOf Gate.Sound ∧ (∅ : Context).UsedWith muted ∧
      (∃ w, t.Reaches ctx 2 2 w ∧ t.Disciplined ctx 2 2 w ∧
        w.frames = [⟨3, [true]⟩, ⟨2, []⟩]) ∧
      (∃ n w, t.Reaches ctx 2 n w ∧ t.Disciplined ctx 2 n w ∧ w.frames = [] ∧
        w.context.Idle ∧ (w.context.cached.get? 2).getD [] = [false]) ∧
      Guarded.evalNode silent ∅ 1 = .error (.outputCount "MUTE" 1 0) ∧
      ∃ n w fault, silent.Reaches ∅ 1 n w ∧ silent.Disciplined ∅ 1 n w ∧ silent.Fails w fault := by
  intro nl ctx t silent
  have hcall : Guarded.call (Guarded.within (invertedLatch.edit (.drive 0 true)) none) ∅
      (.node 0) = .ok ctx := by cbv
  have hu : ctx.UsedWith nl :=
    (((Context.UsedWith.fresh reachable_invertedLatch ∅).edit (.drive 0 true)).call none (.node 0)
      hcall).edit (.drive 0 false)
  have hm : nl.MadeOf Gate.Sound :=
    (madeOf_invertedLatch (Primitive.sound .or) (Primitive.sound .not)).edits (by simp)
  have hu' : (∅ : Context).UsedWith muted := .fresh (Reachable.empty.edits _) ∅
  have hlow : (Guarded.evalNode t ctx 2).toOption.map (·.value) = some [false] := by
    decide +kernel
  have hfault : Guarded.evalNode silent ∅ 1 = .error (.outputCount "MUTE" 1 0) := by cbv
  obtain ⟨-, hexit, hwalk, -⟩ := hu.walk_disciplined none 2
  obtain ⟨hstates, n, w, hn, -, hdone⟩ := hwalk ⟨_, rfl⟩ rfl
  obtain ⟨-, -, hwalk', -⟩ := hu'.walk_disciplined none 1
  obtain ⟨hstates', n', w', hn', hend', -⟩ := hwalk' ⟨_, rfl⟩ rfl
  refine ⟨hu, hm, hu', ?_, ⟨n, w, hn, hstates n w hn, hdone hm, ?_⟩, hfault, ?_⟩
  · have htwo : t.Reaches ctx 2 2 _ :=
      .step (.step .start (List.cons_ne_nil _ _) rfl) (List.cons_ne_nil _ _) rfl
    exact ⟨_, htwo, hstates 2 _ htwo, rfl⟩
  · have hended := (hstates n w hn).ended (hdone hm)
    refine ⟨(hexit _ hended).1, ?_⟩
    rw [hended] at hlow
    exact Option.some.inj hlow
  · rcases hend' with hf | ⟨fault, hfails⟩
    · cases ((hstates' n' w' hn').ended hf).symm.trans hfault
    · exact ⟨n', w', fault, hn', hstates' n' w' hn', hfails⟩

end Netlist

end Breadboard
