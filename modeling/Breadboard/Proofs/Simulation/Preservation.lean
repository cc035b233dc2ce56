import Breadboard.Proofs.Compilation.Internals
import Breadboard.Proofs.Simulation.Bench

namespace Breadboard.Netlist

open Surroundings

variable {nl part : Netlist Gate} {inputs outputs nodes : List NodeId} {g : Gate} {name : String}
  {metadata : Metadata} {before before' : Option Context} {rows : List Bits}

theorem trace_tabledGate (hw : nl.WellFormed) (hn : inputs.Nodup)
    (hout : ∀ o ∈ outputs, nl.role? o = some .output) {islands : List Island}
    (hi : nl.IslandsOf inputs outputs outputs islands)
    (hg : (nl.tabledGate name inputs outputs metadata islands).value = .ok g)
    (hrows : ∀ row ∈ rows, row.length = inputs.length) :
    nl.trace inputs outputs before rows = g.trace before' rows := by
  induction rows generalizing before before' with
  | nil => rfl
  | cons row rows ih =>
    obtain ⟨hrow, hrows⟩ := List.forall_mem_cons.1 hrows
    rw [Netlist.trace, Gate.trace, tabledGate_readPins hw hn hout hi hg hrow ∅ before' before,
      ih hrows]

/-- One tick of a netlist and one computation of the gate that holds a copy of it. -/
theorem CopiedBetween.tick (hc : nl.CopiedBetween part inputs outputs nodes) (hw : nl.WellFormed)
    (hn : inputs.Nodup) (hlogic : g.logic = .hierarchical part)
    (hb : nl.SameBefore (· ∈ nodes) nodes.idxOf before before') {row : Bits}
    (hrow : row.length = inputs.length) :
    (g.compute row ∅ before').value =
        ((nl.within before).readPins (Context.withPins (inputs.zip row)) outputs).value ∧
      nl.SameBefore (· ∈ nodes) nodes.idxOf
        (some ((nl.within before).readPins (Context.withPins (inputs.zip row)) outputs).context)
        (some (g.compute row ∅ before').context) := by
  have hn' : (inputs.map nodes.idxOf).Nodup := hc.inputs_eq ▸ hc.wellFormed.nodup_inputs
  rw [Gate.compute_hierarchical hlogic, Context.setPins_empty, hc.inputs_eq, hc.outputs_eq]
  exact readPins_overridden hc.embeds hw hc.wellFormed hb hn hn' hc.inputs_iff hc.outputs_mem hrow

theorem CopiedBetween.trace_eq (hc : nl.CopiedBetween part inputs outputs nodes)
    (hw : nl.WellFormed) (hn : inputs.Nodup) (hlogic : g.logic = .hierarchical part)
    (hb : nl.SameBefore (· ∈ nodes) nodes.idxOf before before')
    (hrows : ∀ row ∈ rows, row.length = inputs.length) :
    nl.trace inputs outputs before rows = g.trace before' rows := by
  induction rows generalizing before before' with
  | nil => rfl
  | cons row rows ih =>
    obtain ⟨hrow, hrows⟩ := List.forall_mem_cons.1 hrows
    obtain ⟨hvalue, hnext⟩ := hc.tick hw hn hlogic hb hrow
    rw [Netlist.trace, Gate.trace, hvalue, ih hnext hrows]

/-- The bench of a compiled gate shows, tick after tick, what the netlist shows when the listed
inputs are overridden. -/
theorem trace_compileBetween (hw : nl.WellFormed)
    (hg : (nl.compileBetween name inputs outputs metadata).value = .ok g) :
    ∃ bench, Bench.ofGate g = .ok bench ∧ ∀ rows, (∀ row ∈ rows, row.length = inputs.length) →
      nl.trace inputs outputs none rows =
        (Simulator.ofNetlist bench.netlist).trace bench.inputs bench.outputs rows := by
  obtain ⟨hb, ⟨hnames, _⟩, hform⟩ := compileBetween_eq_ok hw hg
  obtain ⟨⟨_, hn⟩, hout, _⟩ := checkBoundary_eq_ok hb
  obtain ⟨bench, hbench, hwired⟩ := Bench.ofGate_wired g
  have hinputs : g.inputs.length = inputs.length := by rw [hnames, pinNames, List.length_map]
  refine ⟨bench, hbench, ?_⟩
  intro rows hrows
  rw [← hinputs] at hrows
  rw [hwired.trace_eq (sized_compileBetween hw hg) hrows]
  rcases hform with ⟨islands, hi, ht⟩ | ⟨part, nodes, hlogic, hc⟩
  · exact trace_tabledGate hw hn hout hi ht (hinputs ▸ hrows)
  · exact hc.trace_eq hw hn hlogic (fun _ _ _ => ⟨rfl, rfl⟩) (hinputs ▸ hrows)

/-- A compiled gate on a bench shows what the netlist shows, tick after tick: what a simulator over
the netlist shows, or with listed pins what these show when the inputs are overridden. -/
theorem Reachable.compile_preserves_runs (hr : nl.Reachable) :
    (∀ name metadata g, (nl.compile name metadata).value = .ok g →
      ∃ bench, Bench.ofGate g = .ok bench ∧
        ∀ rows, (∀ row ∈ rows, row.length = nl.inputs.length) →
          (Simulator.ofNetlist nl).trace nl.inputs nl.outputs rows =
            (Simulator.ofNetlist bench.netlist).trace bench.inputs bench.outputs rows) ∧
    ∀ name inputs outputs metadata g,
      (nl.compileBetween name inputs outputs metadata).value = .ok g →
        ∃ bench, Bench.ofGate g = .ok bench ∧
          ∀ rows, (∀ row ∈ rows, row.length = inputs.length) →
            nl.trace inputs outputs none rows =
              (Simulator.ofNetlist bench.netlist).trace bench.inputs bench.outputs rows := by
  refine ⟨?_, fun name inputs outputs metadata g hg =>
    trace_compileBetween hr.wellFormed hg⟩
  intro name metadata g hg
  obtain ⟨bench, hbench, htrace⟩ := trace_compileBetween hr.wellFormed hg
  refine ⟨bench, hbench, ?_⟩
  intro rows hrows
  rw [trace_ofNetlist hr.wellFormed hrows, htrace rows hrows]

/-- The gate that the latch compiles to stays set as the latch does. -/
theorem compile_preserves_runs_latch :
    latch.Reachable ∧ ∃ g bench, (latch.compile "LATCH" ∅).value = .ok g ∧
      Bench.ofGate g = .ok bench ∧
        (Simulator.ofNetlist bench.netlist).trace bench.inputs bench.outputs
          [[false], [true], [false]] = [[false], [true], [true]] := by
  have hcompiled : (latch.compile "LATCH" ∅).value.toBool = true := by cbv
  have hlatch : (Simulator.ofNetlist latch).trace latch.inputs latch.outputs
      [[false], [true], [false]] = [[false], [true], [true]] := by cbv
  cases hg : (latch.compile "LATCH" ∅).value with
  | error cause => simp [hg, Except.toBool] at hcompiled
  | ok g =>
    obtain ⟨bench, hbench, htrace⟩ :=
      (Reachable.compile_preserves_runs reachable_latch).1 "LATCH" ∅ g hg
    have hrows : ∀ row ∈ [[false], [true], [false]], row.length = latch.inputs.length := by decide
    exact ⟨reachable_latch, g, bench, rfl, hbench, (htrace _ hrows).symm.trans hlatch⟩

end Breadboard.Netlist
