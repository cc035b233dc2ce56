import Breadboard.Proofs.Compilation.Renumbering
import Breadboard.Proofs.Project.Rehydration
import Breadboard.Proofs.Simulation.Preservation

namespace Breadboard

/-- Two gates with the same pins that are made of the same tables, or that both interpret a netlist
and have the same outputs in every run. -/
structure Gate.Interchangeable (g g' : Gate) : Prop where
  inputs : g'.inputs = g.inputs
  outputs : g'.outputs = g.outputs
  logic : (∃ tables, g.logic = .tables tables ∧ g'.logic = .tables tables) ∨
    g.isHierarchical = true ∧ g'.isHierarchical = true ∧
      ∀ rows : List Bits, (∀ row ∈ rows, row.length = g.inputs.length) →
        g'.trace none rows = g.trace none rows

namespace Netlist

variable {nl nl' : Netlist Gate} {f : NodeId → NodeId} {g : Gate} {name : String}
  {metadata : Metadata} {before before' : Option Context} {rows : List Bits}

/-- Under other handles, a netlist shows the same tick after tick. -/
theorem Isomorphic.trace_eq (h : nl.Isomorphic nl' f) (hw : nl.WellFormed) (hw' : nl'.WellFormed)
    (hb : nl.SameBefore (fun _ => True) f before before')
    (hrows : ∀ row ∈ rows, row.length = nl.inputs.length) :
    nl'.trace nl'.inputs nl'.outputs before' rows = nl.trace nl.inputs nl.outputs before rows := by
  have he : nl.Embeds nl' (fun _ => True) f := h.embeds fun _ _ => trivial
  have hn' : (nl.inputs.map f).Nodup := hw.nodup_inputs.map h.injective
  rw [h.inputs, h.outputs]
  induction rows generalizing before before' with
  | nil => rfl
  | cons row rows ih =>
    obtain ⟨hrow, hrows⟩ := List.forall_mem_cons.1 hrows
    obtain ⟨hvalue, hnext⟩ := readPins_overridden he hw hw' hb hw.nodup_inputs hn'
      (fun a _ => (hw.mem_inputs a).2) (fun _ _ => trivial) hrow
    rw [Netlist.trace, Netlist.trace, hvalue, ih hnext hrows]

/-- The gate that holds a copy of a netlist shows what the netlist shows. -/
theorem trace_hierarchicalGate (hw : nl.WellFormed)
    (hg : nl.hierarchicalGate name nl.inputs nl.outputs metadata = .ok g) :
    g.isHierarchical = true ∧ ∀ rows : List Bits, (∀ row ∈ rows, row.length = nl.inputs.length) →
      g.trace none rows = nl.trace nl.inputs nl.outputs none rows := by
  obtain ⟨_, part, nodes, hlogic, hc⟩ := hierarchicalGate_eq_ok hw hw.checkBoundary_own hg
  constructor
  · simp [Gate.isHierarchical, Gate.internals?, hlogic]
  · intro rows hrows
    exact (hc.trace_eq hw hw.nodup_inputs hlogic (fun _ _ _ => ⟨rfl, rfl⟩) hrows).symm

/-- Under other handles, a netlist compiles to an interchangeable gate. -/
theorem Isomorphic.compile (h : nl.Isomorphic nl' f) (hw : nl.WellFormed) (hw' : nl'.WellFormed)
    (name : String) (metadata : Metadata) :
    ∃ g g', (nl.compile name metadata).value = .ok g ∧ (nl'.compile name metadata).value = .ok g' ∧
      g.Interchangeable g' := by
  obtain ⟨g, g', hg, hg', hform⟩ := h.compile_cases hw hw' name metadata
  obtain ⟨_, ⟨hin, hout⟩, _⟩ := compileBetween_eq_ok hw hg
  obtain ⟨_, ⟨hin', hout'⟩, _⟩ := compileBetween_eq_ok hw' hg'
  refine ⟨g, g', hg, hg', ?_, ?_, ?_⟩
  · rw [hin', hin, h.inputs, h.pinNames_map]
  · rw [hout', hout, h.outputs, h.pinNames_map]
  · rcases hform with ⟨rfl, tables, hlogic⟩ | ⟨hh, hh'⟩
    · exact .inl ⟨tables, hlogic, hlogic⟩
    · have hlength : g.inputs.length = nl.inputs.length := by
        rw [hin, pinNames, List.length_map]
      have hlength' : nl'.inputs.length = nl.inputs.length := by
        rw [h.inputs, List.length_map]
      obtain ⟨hierarchical, htrace⟩ := trace_hierarchicalGate hw hh
      obtain ⟨hierarchical', htrace'⟩ := trace_hierarchicalGate hw' hh'
      refine .inr ⟨hierarchical, hierarchical', ?_⟩
      intro rows hrows
      rw [hlength] at hrows
      rw [htrace rows hrows, htrace' rows (hlength'.symm ▸ hrows)]
      exact h.trace_eq hw hw' (fun _ _ _ => ⟨rfl, rfl⟩) hrows

/-- A netlist is kept whole. With its own gates in the registry it is rehydrated to the same netlist
under other handles, which compiles to an interchangeable gate. -/
theorem Reachable.rehydration_exact (hr : nl.Reachable) {registry : Registry}
    (hres : nl.ResolvedBy registry) (name : String) (metadata : Metadata) :
    ∃ nl', (GateDef.ofNetlist name nl metadata).toNetlist registry = .ok nl' ∧
      nl.Isomorphic nl' nl.renumber ∧
      ∀ name metadata, ∃ g g', (nl.compile name metadata).value = .ok g ∧
        (nl'.compile name metadata).value = .ok g' ∧ g.Interchangeable g' := by
  obtain ⟨nl', hmade, h⟩ := hr.wellFormed.rehydrates hres name metadata
  exact ⟨nl', hmade, h, h.compile hr.wellFormed (reachable_toNetlist hmade).wellFormed⟩

/-- A latch in a netlist with a removed node, with two pins of each name and with a gate that has
an empty slot. -/
def wornLatch : Netlist Gate :=
  (∅ : Netlist Gate).edits
    [.place Primitive.not.gate, .addInput "A", .addOutput "Q", .place Primitive.or.gate,
      .link 3 0 1 0, .link 3 1 3 0, .link 2 0 3 0, .addInput "A", .addOutput "Q",
      .place Primitive.nand.gate, .link 6 1 3 0, .link 5 0 6 0, .remove 0]

/-- The latch comes back under the handle 4 and reads itself still; the gate with the empty slot
comes back under 5. -/
theorem rehydration_exact_wornLatch :
    wornLatch.Reachable ∧ wornLatch.ResolvedBy (.standard .reject) ∧
      ∃ nl', (GateDef.ofNetlist "LATCH" wornLatch ∅).toNetlist (.standard .reject) = .ok nl' ∧
        wornLatch.Isomorphic nl' wornLatch.renumber ∧
        nl'.slots 4 = [some ⟨0, 0⟩, some ⟨4, 0⟩] ∧ nl'.slots 5 = [none, some ⟨4, 0⟩] ∧
        ∃ g g', (wornLatch.compile "LATCH" ∅).value = .ok g ∧
          (nl'.compile "LATCH" ∅).value = .ok g' ∧ g.Interchangeable g' := by
  have hreachable : wornLatch.Reachable := Reachable.empty.edits _
  have hgates : wornLatch.gates = [(3, Primitive.or.gate), (6, Primitive.nand.gate)] := by cbv
  have hresolved : wornLatch.ResolvedBy (.standard .reject) := by
    intro id g hg
    rw [← mem_gates, hgates] at hg
    rcases List.mem_pair.1 hg with he | he
    · obtain ⟨rfl, rfl⟩ := Prod.mk.inj he
      exact ⟨_, rfl, rfl⟩
    · obtain ⟨rfl, rfl⟩ := Prod.mk.inj he
      exact ⟨_, rfl, rfl⟩
  obtain ⟨nl', hmade, h, hcompiled⟩ :=
    Reachable.rehydration_exact hreachable hresolved "LATCH" ∅
  have hor : wornLatch.slots 3 = [some ⟨1, 0⟩, some ⟨3, 0⟩] := by decide +kernel
  have hnand : wornLatch.slots 6 = [none, some ⟨3, 0⟩] := by decide +kernel
  have hmoved : wornLatch.renumber 1 = 0 ∧ wornLatch.renumber 3 = 4 ∧ wornLatch.renumber 6 = 5 := by
    decide +kernel
  have hslots := h.slots 3
  have hslots' := h.slots 6
  simp only [hor, hnand, List.map_cons, List.map_nil, Option.map_some, Option.map_none, Link.rename,
    hmoved] at hslots hslots'
  exact ⟨hreachable, hresolved, nl', hmade, h, hslots, hslots', hcompiled "LATCH" ∅⟩

end Netlist

end Breadboard
