import Breadboard.Proofs.Simulation.Session

namespace Breadboard

open Surroundings

namespace Simulator

open Netlist

/-- The ticks in which a handle names a live node: the inputs that it computed with in each of them,
and the outputs that were cached for it. -/
def life (id : NodeId) : Simulator → List Event → List (List Bits × Option Bits)
  | _, [] => []
  | sim, .edit e :: events => life id (sim.apply (.edit e)) events
  | sim, .tick :: events =>
    let rest := life id (sim.apply .tick) events
    if sim.netlist.isLive id then
      ((sim.firings.filter fun f => f.node = id).map (·.inputs),
        sim.tick.value.current.cached.get? id) :: rest
    else rest

/-- The same of a gate on its own that starts with some memory: one computation in each tick. -/
def alone (g : Gate) (memory : Option Context) (rows : List Bits) :
    List (List Bits × Option Bits) :=
  (rows.zip (g.trace memory rows)).map fun (row, outputs) => ([row], some outputs)

theorem alone_cons (g : Gate) (memory : Option Context) (row : Bits) (rows : List Bits) :
    alone g memory (row :: rows) = ([row], some (g.compute row ∅ memory).value) ::
      alone g (some (g.compute row ∅ memory).context) rows := rfl

variable {sim : Simulator} {id : NodeId} {g : Gate} {events : List Event}

/-- A handle that was given out and names nothing has no life any more. -/
theorem life_dead (hlt : id < sim.netlist.next) (hr : sim.netlist.role? id = none) :
    sim.life id events = [] := by
  induction events generalizing sim with
  | nil => rfl
  | cons e events ih =>
    have hlater := sim.later_apply e
    have hrest := ih (Nat.lt_of_lt_of_le hlt hlater.next_le) (hlater.role?_eq_none hlt hr)
    cases e with
    | edit e => exact hrest
    | tick => simp [life, isLive_eq_isSome_role?, hr, hrest]

/-- A live placement goes on as its gate does with the memory that it has. -/
theorem life_live (hs : sim.Sound) (hg : sim.netlist.gate? id = some g) {memory : Option Context}
    (hm : g.isHierarchical = true → sim.before.bind (·.nested.get? id) = memory) :
    ∃ rows, (∀ row ∈ rows, row.length = g.inputs.length) ∧
      sim.life id events = alone g memory rows := by
  induction events generalizing sim memory with
  | nil => exact ⟨[], nofun, rfl⟩
  | cons e events ih =>
    cases e with
    | edit e =>
      have hrole := gate?_eq_some_iff.1 hg
      have hlater := sim.later_apply (.edit e)
      rcases hlater.role id (lt_next_of_role? hrole) with hkept | hgone
      · exact ih (hs.apply (.edit e)) (gate?_eq_some_iff.2 (hkept.trans hrole)) hm
      · refine ⟨[], nofun, ?_⟩
        change (sim.apply (.edit e)).life id events = []
        exact life_dead (Nat.lt_of_lt_of_le (lt_next_of_role? hrole) hlater.next_le) hgone
    | tick =>
      obtain ⟨row, hlength, hfired, hcached, hnext⟩ :=
        tick_placement hs.reachable.wellFormed hg hm
      obtain ⟨rows, hrows, hlife⟩ := ih (hs.apply .tick) hg hnext
      have hlive : sim.netlist.isLive id = true := by
        rw [isLive_eq_isSome_role?, gate?_eq_some_iff.1 hg]
        rfl
      refine ⟨row :: rows, List.forall_mem_cons.2 ⟨hlength, hrows⟩, ?_⟩
      rw [life, if_pos hlive, hfired, hcached, hlife, alone_cons]
      rfl

/-- The life of a placement starts without memory, whenever it is placed. -/
theorem life_placed (hs : sim.Sound) (hm : sim.before.bind (·.nested.get? id) = none)
    {placed later : List Event} (hg : (sim.after placed).netlist.gate? id = some g) :
    ∃ rows, (∀ row ∈ rows, row.length = g.inputs.length) ∧
      sim.life id (placed ++ later) = alone g none rows := by
  induction placed generalizing sim with
  | nil => exact life_live hs hg fun _ => hm
  | cons e placed ih =>
    have hend := gate?_eq_some_iff.1 hg
    cases hr : sim.netlist.role? id with
    | some r =>
      -- a node that is live at the start is the gate that it is at the end
      have hrole : sim.netlist.role? id = some (.gate g) := by
        rcases (sim.later_after (e :: placed)).role id (lt_next_of_role? hr) with hkept | hgone
        · rw [← hkept, hend]
        · rw [hend] at hgone
          cases hgone
      exact life_live hs (gate?_eq_some_iff.2 hrole) fun _ => hm
    | none =>
      have hfresh : sim.netlist.next ≤ id := by
        apply Nat.le_of_not_lt
        intro hlt
        rw [(sim.later_after (e :: placed)).role?_eq_none hlt hr] at hend
        cases hend
      cases e with
      | edit e => exact ih (hs.apply (.edit e)) hm hg
      | tick =>
        have hnone : sim.tick.value.current.nested.get? id = none := by
          by_contra hn
          exact Nat.not_lt.2 hfresh (lt_next_of_nested hs.reachable.wellFormed hn)
        have hskip : sim.life id (.tick :: (placed ++ later)) =
            (sim.apply .tick).life id (placed ++ later) := by
          simp [life, isLive_eq_isSome_role?, hr]
        rw [List.cons_append, hskip]
        exact ih (hs.apply .tick) hnone hg

end Simulator

namespace Netlist

/-- In every session, and for every handle that ever names a placement of a gate, the inputs and
outputs of its ticks are those of the gate on its own, which starts without memory. -/
theorem Reachable.placement_isolated {nl : Netlist Gate} (hr : nl.Reachable) {placed : List Event}
    {id : NodeId} {g : Gate}
    (hg : ((Simulator.ofNetlist nl).after placed).netlist.gate? id = some g)
    (later : List Event) :
    ∃ rows : List Bits, (∀ row ∈ rows, row.length = g.inputs.length) ∧
      (Simulator.ofNetlist nl).life id (placed ++ later) =
        (rows.zip (g.trace none rows)).map fun (row, outputs) => ([row], some outputs) :=
  Simulator.life_placed (Simulator.sound_ofNetlist hr) rfl hg

/-- The latch as a gate. -/
def latchGate : Gate := ⟨"LATCH", ["A"], ["Q"], .hierarchical latch, ∅⟩

/-- A latch that is placed after a tick, set by a pulse, stays set as it does on its own. -/
theorem placement_isolated_latch :
    let placed := [.tick, .edit (.place latchGate), .edit (.link 3 0 0 0)]
    let later := [.edit (.drive 0 true), .tick, .edit (.drive 0 false), .tick]
    latch.Reachable ∧
      ((Simulator.ofNetlist latch).after placed).netlist.gate? 3 = some latchGate ∧
      (Simulator.ofNetlist latch).life 3 (placed ++ later) =
        [([[true]], some [true]), ([[false]], some [true])] ∧
      ∃ rows : List Bits, (∀ row ∈ rows, row.length = latchGate.inputs.length) ∧
        (Simulator.ofNetlist latch).life 3 (placed ++ later) =
          (rows.zip (latchGate.trace none rows)).map fun (row, outputs) => ([row], some outputs) :=
  ⟨reachable_latch, rfl, by decide +kernel, Reachable.placement_isolated reachable_latch rfl _⟩

end Netlist

end Breadboard
