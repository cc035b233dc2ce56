import Breadboard.Proofs.Evaluation.Settled
import Breadboard.Simulator

namespace Breadboard

open Relation Surroundings

/-- One evaluation in a context. -/
inductive Call where
  | node (id : NodeId)
  | pin (id : NodeId)
  | link (link : Option Link)

namespace Surroundings

def call (s : Surroundings) (ctx : Context) : Call → Context
  | .node id => (s.evalNode ctx id).context
  | .pin id => (s.readPin ctx id).context
  | .link link => (s.evalLink ctx link).context

/-- The context after evaluations that are made one after another. -/
def calls (s : Surroundings) (ctx : Context) (cs : List Call) : Context := cs.foldl s.call ctx

variable {s : Surroundings} {ctx : Context}

theorem calls_settled (hw : s.netlist.WellFormed) (h : ctx.Settled s) (cs : List Call) :
    (s.calls ctx cs).Settled s ∧ ctx.Extends (s.calls ctx cs) := by
  induction cs generalizing ctx with
  | nil => exact ⟨h, .refl ctx⟩
  | cons c cs ih =>
    have first : (s.call ctx c).Settled s ∧ ctx.Extends (s.call ctx c) := by
      cases c with
      | node id => exact ⟨(evalNode_settled hw h id).1, (evalNode_settled hw h id).2.1⟩
      | pin id => exact ⟨(readPin_settled hw h id).1, (readPin_settled hw h id).2.1⟩
      | link link => exact ⟨(evalLink_settled hw h link).1, (evalLink_settled hw h link).2.1⟩
    obtain ⟨hs, he⟩ := ih first.1
    exact ⟨hs, first.2.trans he⟩

theorem calls_append (s : Surroundings) (ctx : Context) (cs cs' : List Call) :
    s.calls ctx (cs ++ cs') = s.calls (s.calls ctx cs) cs' := List.foldl_append

theorem context_readPins (s : Surroundings) (ctx : Context) (pins : List NodeId) :
    (s.readPins ctx pins).context = s.calls ctx (pins.map .pin) := by
  induction pins generalizing ctx with
  | nil => rfl
  | cons pin pins ih => exact ih (s.readPin ctx pin).context

theorem context_evalNodes (s : Surroundings) (ctx : Context) (ids : List NodeId) :
    (s.evalNodes ctx ids).context = s.calls ctx (ids.map .node) := by
  induction ids generalizing ctx with
  | nil => rfl
  | cons id ids ih => exact ih (s.evalNode ctx id).context

end Surroundings

namespace Netlist

/-- What a gate has cached, when the gates in `before` were cached earlier. -/
structure Determined (nl : Netlist Gate) (previous : Option Context) (ctx : Context)
    (before : List NodeId) (id : NodeId) (g : Gate) : Prop where
  stateless : g.isHierarchical = false → ctx.cached.get? id =
    some (g.compute ((nl.within previous).slotValues ctx before id) ∅ none).value
  stateful : g.isHierarchical = true →
    let answer := g.compute ((nl.within previous).slotValues ctx before id) ∅
      (previous.bind (·.nested.get? id))
    ctx.cached.get? id = some answer.value ∧ ctx.nested.get? id = some answer.context
  feedback : ∀ link, some link ∈ nl.slots id → nl.inputPin? link.node = none →
    link.node ∉ before → link.node = id ∨ TransGen nl.Reads link.node id

/-- The cached gates in their order are determined one after another, under the given overrides of
pin states. -/
structure Meaning (nl : Netlist Gate) (previous : Option Context) (pins : NodeMap Bool)
    (ctx : Context) : Prop where
  pins : ctx.pins = pins
  nodup : ((nl.within previous).gateOrder ctx).Nodup
  mem_iff : ∀ id, id ∈ (nl.within previous).gateOrder ctx ↔
    (nl.gate? id).isSome ∧ ctx.cached.contains id
  determined : ∀ before id after g, (nl.within previous).gateOrder ctx = before ++ id :: after →
    nl.gate? id = some g → nl.Determined previous ctx before id g

variable {nl : Netlist Gate} {previous : Option Context} {ctx : Context}

theorem fire_within {id : NodeId} {g : Gate} (hg : nl.gate? id = some g) (values : Bits) :
    (nl.within previous).fire id values ∅ =
      if g.isHierarchical then
        let answer := g.compute values ∅ (previous.bind (·.nested.get? id))
        ⟨answer.value, (∅ : Context).setNested id answer.context, answer.calls⟩
      else
        let answer := g.compute values ∅ none
        ⟨answer.value, ∅, answer.calls⟩ := by
  have hh : nl.isHierarchical id = g.isHierarchical := by simp [isHierarchical, hg]
  have hr : nl.respond id = g.compute := by
    funext inputs inner before
    simp [respond, hg]
  simp only [fire, within, hh, hr]
  rfl

theorem determined_of_explained {before : List NodeId} {id : NodeId} {g : Gate}
    (hg : nl.gate? id = some g) (h : (nl.within previous).Explained ctx before id) :
    nl.Determined previous ctx before id g := by
  obtain ⟨hv, hn, hf⟩ := h
  rw [fire_within hg] at hv hn
  refine ⟨?_, ?_, ?_⟩
  · intro hh
    rw [hv, if_neg (Bool.eq_false_iff.1 hh)]
  · intro hh
    rw [if_pos hh] at hv hn
    exact ⟨hv, hn.trans (NodeMap.get?_insert_self ..)⟩
  · intro link hl hp hm
    rcases (reflTransGen_iff_eq_or_transGen.1 (hf link hl hp hm)) with he | ht
    · exact .inl he.symm
    · exact .inr ht

theorem meaning_of_settled {pins : NodeMap Bool} (h : ctx.Settled (nl.within previous))
    (hp : ctx.pins = pins) : nl.Meaning previous pins ctx where
  pins := hp
  nodup := List.nodup_reverse.2 (h.inv.nodup.filter _)
  mem_iff id := by
    rw [mem_gateOrder, gate?_isSome_iff, NodeMap.contains, Option.isSome_iff_ne_none]
    exact Iff.rfl
  determined _ _ _ _ ho hg := determined_of_explained hg (h.inv.explained ho)

theorem tick_eq_calls (sim : Simulator) :
    sim.tick.value.current = (sim.netlist.within sim.tick.value.previous).calls ∅
      (sim.netlist.outputs.map .pin ++ sim.netlist.live.map fun entry => .node entry.1) := by
  unfold Simulator.tick
  dsimp only
  rw [context_evalNodes, context_readPins, calls_append, List.map_map]
  rfl

/-- Every sequence of evaluations in a fresh context, and every tick of a simulator, caches what the
order of caching determines. -/
theorem Reachable.evaluations_determined (hr : nl.Reachable) :
    (∀ previous pins cs,
      nl.Meaning previous pins ((nl.within previous).calls { pins : Context } cs)) ∧
    ∀ sim : Simulator, sim.netlist = nl →
      nl.Meaning sim.tick.value.previous ∅ sim.tick.value.current := by
  have all : ∀ previous pins cs,
      nl.Meaning previous pins ((nl.within previous).calls { pins : Context } cs) := by
    intro previous pins cs
    obtain ⟨hs, he⟩ := calls_settled (s := nl.within previous) hr.wellFormed
      (Context.settled_fresh _ pins) cs
    exact meaning_of_settled hs he.pins
  refine ⟨all, ?_⟩
  intro sim hsim
  subst hsim
  rw [tick_eq_calls]
  exact all _ ∅ _

/-- In its second tick the latch reads itself as it was when it was set, though its input is low. -/
theorem evaluations_determined_latch :
    let before := (latch.within none).calls (.withPins [(0, true)]) [.pin 1]
    let ctx := (latch.within (some before)).calls ∅ [.pin 1, .node 2, .link (some ⟨0, 0⟩)]
    latch.Reachable ∧ latch.Meaning (some before) ∅ ctx ∧ before.cached.get? 2 = some [true] ∧
      ctx.cached.get? 0 = some [false] ∧ ctx.cached.get? 2 = some [true] :=
  ⟨reachable_latch, (Reachable.evaluations_determined reachable_latch).1 _ ∅ _, by decide +kernel,
    by decide +kernel, by decide +kernel⟩

end Netlist

end Breadboard
