import Breadboard.Proofs.Evaluation.Settled

namespace Breadboard

open Relation Netlist Surroundings

/-- A gate node that computed, with the values of its slots. -/
structure Firing where
  node : NodeId
  inputs : Bits
  deriving DecidableEq, Repr

namespace Walk

/-- The gate that computes in the next step, when that step is not about a slot. -/
def firing? (s : Surroundings) (w : Walk) : Option Firing :=
  match w.frames with
  | [] => none
  | frame :: _ =>
    if (s.netlist.slots frame.node)[frame.resolved.length]?.isSome then none
    else some ⟨frame.node, frame.resolved⟩

/-- The gates that compute in a run. -/
def firings (s : Surroundings) : Nat → Walk → List Firing
  | 0, _ => []
  | fuel + 1, w =>
    if w.frames.isEmpty then [] else (w.firing? s).toList ++ firings s fuel (w.step s)

end Walk

namespace Surroundings

def nodeLog (s : Surroundings) (ctx : Context) (root : NodeId) : List Firing :=
  match ctx.cached.get? root, s.netlist.kind? root with
  | none, some (.gate _) => (Walk.start ctx root).firings s s.netlist.walkBound
  | _, _ => []

def linkLog (s : Surroundings) (ctx : Context) : Option Link → List Firing
  | none => []
  | some link => if s.netlist.isLive link.node then s.nodeLog ctx link.node else []

def pinLog (s : Surroundings) (ctx : Context) (pin : NodeId) : List Firing :=
  s.linkLog ctx (s.netlist.source? pin 0)

def pinsLog (s : Surroundings) (ctx : Context) : List NodeId → List Firing
  | [] => []
  | pin :: pins => s.pinLog ctx pin ++ pinsLog s (s.readPin ctx pin).context pins

def nodesLog (s : Surroundings) (ctx : Context) : List NodeId → List Firing
  | [] => []
  | id :: ids => s.nodeLog ctx id ++ nodesLog s (s.evalNode ctx id).context ids

/-- What a gate answers when it computes for the first time in a tick. -/
def answer (s : Surroundings) (f : Firing) : Outcome Bits := s.fire f.node f.inputs ∅

/-- What lies between two contexts is what a log says. -/
structure Recorded (s : Surroundings) (ctx ctx' : Context) (log : List Firing)
    (calls : List Nat) : Prop where
  order : s.gateOrder ctx' = s.gateOrder ctx ++ log.map (·.node)
  arity : ∀ f ∈ log, f.inputs.length = (s.netlist.slots f.node).length
  cached : ∀ f ∈ log, ctx'.cached.get? f.node = some (s.answer f).value
  nested : ∀ f ∈ log, ctx'.nested.get? f.node = (s.answer f).context.nested.get? f.node
  calls : calls = log.reverse.flatMap fun f => (s.answer f).calls

variable {s : Surroundings} {ctx ctx' ctx'' : Context} {log log' : List Firing}
  {tags tags' : List Nat}

theorem Recorded.refl (s : Surroundings) (ctx : Context) : Recorded s ctx ctx [] [] :=
  ⟨by simp, nofun, nofun, nofun, rfl⟩

/-- A context with the same gates cached has the same record. -/
theorem Recorded.of_gateOrder (ho : s.gateOrder ctx' = s.gateOrder ctx) :
    Recorded s ctx ctx' [] [] := ⟨by simp [ho], nofun, nofun, nofun, rfl⟩

theorem Recorded.trans (h : Recorded s ctx ctx' log tags) (he : ctx'.Extends ctx'')
    (h' : Recorded s ctx' ctx'' log' tags') :
    Recorded s ctx ctx'' (log ++ log') (tags' ++ tags) where
  order := by rw [h'.order, h.order, List.map_append, List.append_assoc]
  arity f hf := (List.mem_append.1 hf).elim (h.arity f) (h'.arity f)
  cached f hf := by
    rcases List.mem_append.1 hf with hf | hf
    · exact he.cached (h.cached f hf)
    · exact h'.cached f hf
  nested f hf := by
    rcases List.mem_append.1 hf with hf | hf
    · rw [he.nested (by simp [h.cached f hf]), h.nested f hf]
    · exact h'.nested f hf
  calls := by rw [h'.calls, h.calls, List.reverse_append, List.flatMap_append]

theorem calls_fire {id : NodeId} (values : Bits) (hn : ctx.nested.get? id = none) :
    (s.fire id values ctx).calls = (s.fire id values ∅).calls := by
  unfold fire
  rw [hn]
  split <;> rfl

end Surroundings

variable {s : Surroundings} {w w' : Walk} {ctx : Context} {frame : Frame} {below : List Frame}

namespace Walk

theorem firing?_slot (hf : w.frames = frame :: below) {slot : Option Link}
    (hs : (s.netlist.slots frame.node)[frame.resolved.length]? = some slot) :
    w.firing? s = none := by simp [firing?, hf, hs]

theorem firing?_done (hf : w.frames = frame :: below)
    (hs : (s.netlist.slots frame.node).length = frame.resolved.length) :
    w.firing? s = some ⟨frame.node, frame.resolved⟩ := by simp [firing?, hf, hs]

theorem Move.recorded (h : Move s w frame below w') (hi : w.Inv s)
    (hf : w.frames = frame :: below) :
    ∃ calls, w'.calls = calls ++ w.calls ∧
      Recorded s w.context w'.context (w.firing? s).toList calls := by
  cases h with
  | known slot hs hk =>
    rw [firing?_slot hf hs]
    exact ⟨[], rfl, .refl s _⟩
  | pin link pin hs hp hc =>
    rw [firing?_slot hf hs]
    refine ⟨[], rfl, .of_gateOrder (gateOrder_caches_input (Context.caches_cache _ hc) ?_)⟩
    intro hg
    exact hg.role?_ne_input (role?_of_inputPin? hp)
  | descend link hs hg hc hp =>
    rw [firing?_slot hf hs]
    exact ⟨[], rfl, .of_gateOrder rfl⟩
  | fire hs =>
    rw [firing?_done hf hs]
    have hwait : Waiting s w.context (frame :: below) := hf ▸ hi.waiting
    have hc := Context.caches_fire (s := s) frame.resolved hwait.1.fresh
    have hn := hi.context.nested hwait.1.fresh
    refine ⟨_, rfl, gateOrder_caches_gate hc hwait.1.gate, ?_, ?_, ?_, ?_⟩
    · simpa using hs.symm
    · simpa [answer, hc.get?_self] using value_fire frame.resolved hn
    · simp only [Option.toList_some, List.mem_singleton, forall_eq]
      exact nested_fire_self frame.resolved hn
    · simpa [answer] using calls_fire frame.resolved hn

theorem run_recorded (hw : s.netlist.WellFormed) (hi : w.Inv s) (fuel : Nat) :
    ∃ calls, (w.run s fuel).calls = calls ++ w.calls ∧
      w.context.Extends (w.run s fuel).context ∧
      Recorded s w.context (w.run s fuel).context (w.firings s fuel) calls := by
  induction fuel generalizing w with
  | zero => exact ⟨[], rfl, .refl _, .refl s _⟩
  | succ fuel ih =>
    cases hf : w.frames with
    | nil =>
      rw [run_of_done hf, firings, hf, List.isEmpty_nil, if_pos rfl]
      exact ⟨[], rfl, .refl _, .refl s _⟩
    | cons frame below =>
      have hm := hi.move hw hf
      obtain ⟨calls, hcalls, hr⟩ := hm.recorded hi hf
      obtain ⟨calls', hcalls', he, hr'⟩ := ih (hm.inv hw hi hf)
      rw [run_succ hf, firings, hf, List.isEmpty_cons, if_neg Bool.false_ne_true]
      refine ⟨calls' ++ calls, ?_, (hm.turn.extends_of hi.stacked hf).trans he, hr.trans he hr'⟩
      rw [hcalls', hcalls, List.append_assoc]

end Walk

namespace Surroundings

theorem evalNode_recorded (hw : s.netlist.WellFormed) (h : ctx.Settled s) (root : NodeId) :
    Recorded s ctx (s.evalNode ctx root).context (s.nodeLog ctx root)
      (s.evalNode ctx root).calls := by
  unfold evalNode nodeLog
  cases hc : ctx.cached.get? root with
  | some outputs => exact .refl s ctx
  | none =>
    cases hk : s.netlist.kind? root with
    | none => exact .refl s ctx
    | some kind =>
      cases kind with
      | gate g =>
        have hi := inv_start h ⟨g, kind?_eq_gate_iff.1 hk⟩ hc
        obtain ⟨calls, hcalls, _, hr⟩ := Walk.run_recorded hw hi s.netlist.walkBound
        dsimp only
        rw [hcalls, show (Walk.start ctx root).calls = [] from rfl, List.append_nil]
        exact ⟨hr.order, hr.arity, hr.cached, hr.nested, hr.calls⟩
      | input pin =>
        refine .of_gateOrder (gateOrder_caches_input (Context.caches_cache _ hc) ?_)
        intro hg
        exact hg.role?_ne_input (by simp [role?, hk, NodeKind.role])
      | output pin => exact .refl s ctx

theorem evalLink_recorded (hw : s.netlist.WellFormed) (h : ctx.Settled s) (link : Option Link) :
    Recorded s ctx (s.evalLink ctx link).context (s.linkLog ctx link)
      (s.evalLink ctx link).calls := by
  cases link with
  | none => exact .refl s ctx
  | some link =>
    unfold evalLink linkLog
    dsimp only
    split
    · exact evalNode_recorded hw h link.node
    · exact .refl s ctx

theorem readPin_recorded (hw : s.netlist.WellFormed) (h : ctx.Settled s) (pin : NodeId) :
    Recorded s ctx (s.readPin ctx pin).context (s.pinLog ctx pin) (s.readPin ctx pin).calls :=
  evalLink_recorded hw h (s.netlist.source? pin 0)

theorem readPins_recorded (hw : s.netlist.WellFormed) (h : ctx.Settled s) (pins : List NodeId) :
    Recorded s ctx (s.readPins ctx pins).context (s.pinsLog ctx pins)
      (s.readPins ctx pins).calls := by
  induction pins generalizing ctx with
  | nil => exact .refl s ctx
  | cons pin pins ih =>
    have hs := (readPin_settled hw h pin).1
    exact (readPin_recorded hw h pin).trans (readPins_settled hw hs pins).2.1 (ih hs)

theorem evalNodes_recorded (hw : s.netlist.WellFormed) (h : ctx.Settled s) (ids : List NodeId) :
    Recorded s ctx (s.evalNodes ctx ids).context (s.nodesLog ctx ids)
      (s.evalNodes ctx ids).calls := by
  induction ids generalizing ctx with
  | nil => exact .refl s ctx
  | cons id ids ih =>
    have hs := (evalNode_settled hw h id).1
    exact (evalNode_recorded hw h id).trans (evalNodes_settled hw hs ids).2.1 (ih hs)

@[simp] theorem gateOrder_fresh (s : Surroundings) (pins : NodeMap Bool) :
    s.gateOrder { pins := pins } = [] := rfl

/-- The log from a fresh context on lists the cached gates, each once. -/
theorem Recorded.nodes_eq {pins : NodeMap Bool} (h : Recorded s { pins := pins } ctx log tags) :
    log.map (·.node) = s.gateOrder ctx := by rw [h.order, gateOrder_fresh, List.nil_append]

theorem Recorded.nodup {pins : NodeMap Bool} (h : Recorded s { pins := pins } ctx log tags)
    (hs : ctx.Settled s) : (log.map (·.node)).Nodup := by
  rw [h.nodes_eq]
  exact List.nodup_reverse.2 (hs.inv.nodup.filter _)

/-- When every gate is cached, the log lists the gates of the netlist, each once. -/
theorem Recorded.perm_gates {pins : NodeMap Bool}
    (h : Recorded s { pins := pins } ctx log tags) (hs : ctx.Settled s)
    (hall : ∀ id, s.netlist.IsGate id → ctx.cached.get? id ≠ none) :
    (log.map (·.node)).Perm (s.netlist.gates.map (·.1)) := by
  apply (List.perm_ext_iff_of_nodup (h.nodup hs) s.netlist.nodup_gates).2
  intro id
  rw [h.nodes_eq, mem_gateOrder, mem_map_gates]
  exact ⟨fun hm => hm.1, fun hg => ⟨hg, hall id hg⟩⟩

end Surroundings

end Breadboard
