import Breadboard.Proofs.Compilation.Internals
import Breadboard.Proofs.Simulation.Session

namespace Breadboard

open Surroundings

namespace Simulator

open Netlist

/-- The next tick lets every placement compute once and leaves nothing undone. Cells are counted
when hierarchical gates were compiled, and values when every gate answers as many as it declares. -/
structure Exact (sim : Simulator) : Prop where
  fired : (sim.firings.map (·.node)).Perm (sim.netlist.gates.map (·.1))
  calls : sim.netlist.MadeOf Gate.Made → ∀ tag,
    sim.tick.calls.count tag = sim.netlist.placements tag
  cached : ∀ id, sim.tick.value.current.cached.contains id = true ↔
    (sim.netlist.gate? id).isSome ∨ (sim.netlist.inputPin? id).isSome
  width : sim.netlist.MadeOf Gate.Sized → ∀ {id node outputs}, sim.netlist.node? id = some node →
    sim.tick.value.current.cached.get? id = some outputs → outputs.length = node.outputCount
  idle : sim.tick.value.current.processing.nodes = [] ∧
    ∀ id, sim.tick.value.current.processing.contains id = false
  shown : sim.netlist.outputs.map sim.tick.value.readPin =
    ((sim.netlist.within sim.before).readPins ∅ sim.netlist.outputs).value

variable {sim : Simulator}

/-- Every cell is called as often as it is placed. -/
theorem count_calls_tick (hw : sim.netlist.WellFormed) (hm : sim.netlist.MadeOf Gate.Made)
    (tag : Nat) : sim.tick.calls.count tag = sim.netlist.placements tag := by
  have ht := sim.ticked hw
  refine (tick_recorded hw).count_calls ht.settled hw (fun id hg => ht.cached id (.inl hg)) ?_
  intro id g hr row before _
  exact (hm id g hr).count_calls tag row before

/-- A tick caches exactly the live gates and input pins. -/
theorem cached_tick_iff (hw : sim.netlist.WellFormed) (id : NodeId) :
    sim.tick.value.current.cached.contains id = true ↔
      (sim.netlist.gate? id).isSome ∨ (sim.netlist.inputPin? id).isSome := by
  have ht := sim.ticked hw
  rw [NodeMap.contains, Option.isSome_iff_ne_none, gate?_isSome_iff, inputPin?_isSome_iff]
  exact ⟨ht.settled.inv.role, ht.cached id⟩

/-- What a tick caches has one value for each output of its node. -/
theorem length_cached_tick (hw : sim.netlist.WellFormed) (hs : sim.netlist.MadeOf Gate.Sized)
    {id : NodeId} {node : Node Gate} {outputs : Bits} (hn : sim.netlist.node? id = some node)
    (hc : sim.tick.value.current.cached.get? id = some outputs) :
    outputs.length = node.outputCount := by
  have hrole : sim.netlist.role? id = some node.kind.role := by simp [role?_eq_map, hn]
  have hcached : sim.tick.value.current.cached.contains id = true :=
    Option.isSome_iff_exists.2 ⟨outputs, hc⟩
  rw [node.outputCount_eq]
  rcases (cached_tick_iff hw id).1 hcached with hg | hi
  · obtain ⟨g, hg⟩ := Option.isSome_iff_exists.1 hg
    have hgate := gate?_eq_some_iff.1 hg
    obtain ⟨row, hlength, _, hvalue, _⟩ := tick_placement hw hg fun _ => rfl
    rw [hrole] at hgate
    injection hgate with hgate
    rw [hc] at hvalue
    injection hvalue with hvalue
    rw [hvalue, hgate]
    exact hs id g (hrole.trans (congrArg some hgate)) row _ hlength
  · obtain ⟨pin, hp⟩ := Option.isSome_iff_exists.1 hi
    have hin := role?_of_inputPin? hp
    rw [hrole] at hin
    injection hin with hin
    rw [(sim.ticked hw).settled.inv.pins hp hc, hin]
    rfl

/-- Boundary outputs show what the tick read at them before it evaluated the other nodes. -/
theorem readPins_tick (hw : sim.netlist.WellFormed) :
    sim.netlist.outputs.map sim.tick.value.readPin =
      ((sim.netlist.within sim.before).readPins ∅ sim.netlist.outputs).value := by
  have ht := sim.ticked hw
  obtain ⟨_, _, hvalue, hsource⟩ := readPins_settled (s := sim.netlist.within sim.before) hw
    (Context.settled_fresh _ ∅) sim.netlist.outputs
  refine Eq.trans (List.map_congr_left ?_) hvalue.symm
  intro pin hp
  rw [readPin_eq_shown, ht.netlist]
  exact ht.extends_outputs.shown fun source hs => hsource pin hp source hs

theorem Sound.exact (h : sim.Sound) : sim.Exact :=
  have hw := h.reachable.wellFormed
  { fired := perm_firings hw
    calls := count_calls_tick hw
    cached := cached_tick_iff hw
    width := length_cached_tick hw
    idle := ⟨(sim.ticked hw).settled.idle, (sim.ticked hw).settled.contains_eq_false⟩
    shown := readPins_tick hw }

/-- A session that places gates with a property has no others. -/
theorem madeOf_after {P : Gate → Prop} {events : List Event} (hm : sim.netlist.MadeOf P)
    (hp : ∀ g, .edit (.place g) ∈ events → P g) : (sim.after events).netlist.MadeOf P := by
  induction events generalizing sim with
  | nil => exact hm
  | cons e events ih =>
    have hrest : ∀ g, .edit (.place g) ∈ events → P g :=
      fun g hg => hp g (List.mem_cons_of_mem _ hg)
    cases e with
    | tick => exact ih hm hrest
    | edit e =>
      refine ih (hm.edit ?_) hrest
      intro g he
      exact hp g (List.mem_cons.2 (.inl (by rw [he])))

theorem before_after_edits (sim : Simulator) (es : List Edit) :
    (sim.after (es.map .edit)).before = sim.before := by
  induction es generalizing sim with
  | nil => rfl
  | cons e es ih => exact ih (sim.apply (.edit e))

/-- Edits do not part a tick from the context of the tick before. -/
theorem previous_tick_after (sim : Simulator) (hw : sim.netlist.WellFormed) (es : List Edit) :
    ((sim.tick.value.after (es.map .edit)).tick.value.previous) = some sim.tick.value.current := by
  change (sim.tick.value.after (es.map .edit)).before = _
  rw [before_after_edits, (sim.ticked hw).before]

end Simulator

namespace Netlist

/-- In every session the next tick is exact, and its previous context is the one that the last tick
made, or none when there was no tick. -/
theorem Reachable.ticks_exact {nl : Netlist Gate} (hr : nl.Reachable) :
    (∀ events, ((Simulator.ofNetlist nl).after events).Exact) ∧
    (∀ es : List Edit, ((Simulator.ofNetlist nl).after (es.map .edit)).tick.value.previous = none) ∧
    ∀ (events : List Event) (es : List Edit), ((Simulator.ofNetlist nl).after
        (events ++ .tick :: es.map .edit)).tick.value.previous =
      some ((Simulator.ofNetlist nl).after events).tick.value.current := by
  have hs := Simulator.sound_ofNetlist hr
  refine ⟨fun events => (hs.after events).exact, Simulator.before_after_edits _, ?_⟩
  intro events es
  rw [Simulator.after_append]
  exact Simulator.previous_tick_after _ (hs.after events).reachable.wellFormed es

theorem madeOf_latch {P : Gate → Prop} (hp : P Primitive.or.gate) : latch.MadeOf P := by
  change Netlist.MadeOf P ((∅ : Netlist Gate).edits [.addInput "A", .addOutput "Q",
    .place Primitive.or.gate, .link 2 0 0 0, .link 2 1 2 0, .link 1 0 2 0])
  refine (madeOf_empty P).edits ?_
  intro g hg
  obtain rfl : g = Primitive.or.gate := by simpa using hg
  exact hp

/-- When the compiled latch was placed beside the latch after a tick, the next tick calls the cell
of the two as often as it is placed, and every node caches one value for each output. -/
theorem ticks_exact_latch : latch.Reachable ∧ ∃ g, (latch.compile "LATCH" ∅).value = .ok g ∧
    let sim := (Simulator.ofNetlist latch).after [.tick, .edit (.place g), .edit (.link 3 0 0 0)]
    sim.Exact ∧ sim.netlist.MadeOf Gate.Made ∧ sim.netlist.MadeOf Gate.Sized ∧
      sim.tick.calls.count Primitive.or.index = sim.netlist.placements Primitive.or.index ∧
      ∀ {id node outputs}, sim.netlist.node? id = some node →
        sim.tick.value.current.cached.get? id = some outputs →
        outputs.length = node.outputCount := by
  have hcompiled : (latch.compile "LATCH" ∅).value.toBool = true := by cbv
  cases hg : (latch.compile "LATCH" ∅).value with
  | error cause => simp [hg, Except.toBool] at hcompiled
  | ok g =>
    have hmade : g.Made :=
      .compiled reachable_latch (fun hr => madeOf_latch (.cell rfl) _ _ hr) hg
    have hsized : g.Sized := sized_compileBetween reachable_latch.wellFormed hg
    have hexact := (Reachable.ticks_exact reachable_latch).1
      [.tick, .edit (.place g), .edit (.link 3 0 0 0)]
    have hplaced : ∀ {P : Gate → Prop}, P Primitive.or.gate → P g →
        ((Simulator.ofNetlist latch).after
          [.tick, .edit (.place g), .edit (.link 3 0 0 0)]).netlist.MadeOf P := by
      intro P hor hP
      refine Simulator.madeOf_after (madeOf_latch hor) ?_
      intro g' hm
      obtain rfl : g' = g := by simpa using hm
      exact hP
    have hmadeOf := hplaced (.cell rfl) hmade
    have hsizedOf := hplaced Primitive.or.sized hsized
    exact ⟨reachable_latch, g, rfl, hexact, hmadeOf, hsizedOf, hexact.calls hmadeOf _,
      hexact.width hsizedOf⟩

end Netlist

end Breadboard
