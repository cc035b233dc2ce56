import Breadboard.Proofs.Evaluation.Firings
import Breadboard.Proofs.Netlist.Edits
import Breadboard.Proofs.Simulation.Bench

namespace Breadboard

open Surroundings

/-- What can happen to a simulator. -/
inductive Event where
  | tick
  | edit (e : Edit)

namespace Simulator

open Netlist

def apply (sim : Simulator) : Event → Simulator
  | .tick => sim.tick.value
  | .edit e => (sim.edit fun nl => ((), nl.edit e)).2

def after (sim : Simulator) (events : List Event) : Simulator := events.foldl apply sim

/-- The gates that compute in the next tick. -/
def firings (sim : Simulator) : List Firing :=
  let surroundings := sim.netlist.within sim.before
  let first := surroundings.readPins ∅ sim.netlist.outputs
  surroundings.pinsLog ∅ sim.netlist.outputs ++
    surroundings.nodesLog first.context (sim.netlist.live.map (·.1))

variable {sim : Simulator}

theorem after_append (sim : Simulator) (events events' : List Event) :
    sim.after (events ++ events') = (sim.after events).after events' := List.foldl_append

theorem later_apply (sim : Simulator) (e : Event) : Later sim.netlist (sim.apply e).netlist := by
  cases e with
  | tick => exact .refl _
  | edit e => exact later_edit sim.netlist e

theorem later_after (sim : Simulator) (events : List Event) :
    Later sim.netlist (sim.after events).netlist := by
  induction events generalizing sim with
  | nil => exact .refl _
  | cons e events ih => exact (sim.later_apply e).trans (ih _)

/-- What holds of a simulator in every session. -/
structure Sound (sim : Simulator) : Prop where
  reachable : sim.netlist.Reachable
  memory : ∀ {id}, sim.before.bind (·.nested.get? id) ≠ none → id < sim.netlist.next

theorem sound_ofNetlist {nl : Netlist Gate} (h : nl.Reachable) : (ofNetlist nl).Sound :=
  ⟨h, fun hm => absurd rfl hm⟩

/-- Only handles that were given out have a context after a tick. -/
theorem lt_next_of_nested (hw : sim.netlist.WellFormed) {id : NodeId}
    (hn : sim.tick.value.current.nested.get? id ≠ none) : id < sim.netlist.next := by
  have ht := sim.ticked hw
  have hc : sim.tick.value.current.cached.get? id ≠ none := mt ht.settled.inv.nested hn
  rcases ht.settled.inv.role hc with ⟨g, hg⟩ | hi
  · exact lt_next_of_role? hg
  · exact lt_next_of_role? hi

theorem Sound.apply (h : sim.Sound) (e : Event) : (sim.apply e).Sound := by
  cases e with
  | tick => exact ⟨h.reachable, fun hm => lt_next_of_nested h.reachable.wellFormed hm⟩
  | edit e =>
    refine ⟨h.reachable.edit e, fun hm => ?_⟩
    exact Nat.lt_of_lt_of_le (h.memory hm) (later_edit sim.netlist e).next_le

theorem Sound.after (h : sim.Sound) (events : List Event) : (sim.after events).Sound := by
  induction events generalizing sim with
  | nil => exact h
  | cons e events ih => exact ih (h.apply e)

/-- A tick caches the gates of its log and calls their cells. -/
theorem tick_recorded (hw : sim.netlist.WellFormed) :
    Recorded (sim.netlist.within sim.before) ∅ sim.tick.value.current sim.firings
      sim.tick.calls := by
  have hfresh := Context.settled_fresh (sim.netlist.within sim.before) ∅
  obtain ⟨hs, _⟩ := readPins_settled (s := sim.netlist.within sim.before) hw hfresh
    sim.netlist.outputs
  obtain ⟨_, he, _⟩ := evalNodes_settled (s := sim.netlist.within sim.before) hw hs
    (sim.netlist.live.map (·.1))
  exact (readPins_recorded (s := sim.netlist.within sim.before) hw hfresh sim.netlist.outputs).trans
    he (evalNodes_recorded (s := sim.netlist.within sim.before) hw hs _)

theorem perm_firings (hw : sim.netlist.WellFormed) :
    (sim.firings.map (·.node)).Perm (sim.netlist.gates.map (·.1)) := by
  have ht := sim.ticked hw
  exact (tick_recorded hw).perm_gates ht.settled fun id hg => ht.cached id (.inl hg)

theorem filter_firings {log : List Firing} (hn : (log.map (·.node)).Nodup) {f : Firing}
    (hf : f ∈ log) : (log.filter fun f' => f'.node = f.node) = [f] := by
  obtain ⟨earlier, later, rfl⟩ := List.append_of_mem hf
  have hother : ∀ f' ∈ earlier ++ later, f'.node ≠ f.node := by
    intro f' hf' he
    rw [List.map_append, List.map_cons, List.nodup_middle, ← List.map_append] at hn
    exact (List.nodup_cons.1 hn).1 (he ▸ List.mem_map_of_mem hf')
  have hnone : ∀ {part : List Firing}, (∀ f' ∈ part, f'.node ≠ f.node) →
      (part.filter fun f' => f'.node = f.node) = [] := by
    intro part hpart
    apply List.filter_eq_nil_iff.2
    intro f' hf'
    simpa using hpart f' hf'
  rw [List.filter_append, List.filter_cons, hnone fun f' hf' => hother f' (by simp [hf']),
    hnone fun f' hf' => hother f' (by simp [hf'])]
  simp

/-- What a tick does at a placement: it computes once, in the context that it had in the tick
before. -/
theorem tick_placement (hw : sim.netlist.WellFormed) {id : NodeId} {g : Gate}
    (hg : sim.netlist.gate? id = some g) {memory : Option Context}
    (hm : g.isHierarchical = true → sim.before.bind (·.nested.get? id) = memory) :
    ∃ row, row.length = g.inputs.length ∧
      (sim.firings.filter fun f => f.node = id) = [⟨id, row⟩] ∧
      sim.tick.value.current.cached.get? id = some (g.compute row ∅ memory).value ∧
      (g.isHierarchical = true → sim.tick.value.before.bind (·.nested.get? id) =
        some (g.compute row ∅ memory).context) := by
  have hr := tick_recorded hw
  have ht := sim.ticked hw
  have hrole := gate?_eq_some_iff.1 hg
  obtain ⟨f, hf, rfl⟩ : ∃ f ∈ sim.firings, f.node = id := by
    have hmem := (perm_firings hw).mem_iff.2 (mem_map_gates.2 ⟨g, hrole⟩)
    simpa using hmem
  have hcached := hr.cached f hf
  have hnested := hr.nested f hf
  rw [answer, fire_within hg] at hcached hnested
  refine ⟨f.inputs, ?_, filter_firings (hr.nodup ht.settled) hf, ?_, ?_⟩
  · exact (hr.arity f hf).trans (hw.slotCount hrole)
  · cases hh : g.isHierarchical with
    | true =>
      rw [if_pos hh, hm hh] at hcached
      exact hcached
    | false =>
      rw [if_neg (Bool.eq_false_iff.1 hh)] at hcached
      rw [hcached, g.value_compute_stateless hh f.inputs memory]
  · intro hh
    rw [if_pos hh, hm hh] at hnested
    rw [ht.before]
    exact hnested.trans (NodeMap.get?_insert_self ..)

end Simulator

end Breadboard
