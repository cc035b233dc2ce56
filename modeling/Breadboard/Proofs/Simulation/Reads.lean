import Breadboard.Proofs.Simulation.Session

namespace Breadboard

/-- The edit leaves the link that feeds a boundary output alone: it is not about the slot of the
pin, and it removes neither the pin nor the source. -/
def Edit.Spares (pin : NodeId) (source : Option Link) : Edit → Prop
  | .link dest _ _ _ => dest ≠ pin
  | .unlink dest _ => dest ≠ pin
  | .remove id => id ≠ pin ∧ ∀ link, source = some link → link.node ≠ id
  | _ => True

namespace Netlist

variable {nl : Netlist Gate} {pin : NodeId} {e : Edit}

/-- The only slot of a boundary output holds its source. -/
theorem WellFormed.source?_of_mem (hw : nl.WellFormed) (hr : nl.role? pin = some .output)
    {link : Link} (hl : some link ∈ nl.slots pin) : nl.source? pin 0 = some link := by
  have hlength : (nl.slots pin).length = 1 := hw.slotCount hr
  obtain ⟨slot, hs⟩ := List.length_eq_one_iff.1 hlength
  rw [hs, List.mem_singleton] at hl
  rw [hw.source?_eq, hs, ← hl]
  rfl

theorem insert_kept (node : Node Gate) (hr : nl.role? pin = some .output) :
    (nl.insert node).2.role? pin = some .output ∧ (nl.insert node).2.slots pin = nl.slots pin := by
  have hne := Nat.ne_of_lt (lt_next_of_role? hr)
  rw [role?_insert, slots_insert, if_neg hne, if_neg hne]
  exact ⟨hr, rfl⟩

/-- An edit that spares a boundary output keeps the pin and its slot. -/
theorem edit_kept (hw : nl.WellFormed) (hr : nl.role? pin = some .output)
    (hs : e.Spares pin (nl.source? pin 0)) :
    (nl.edit e).role? pin = some .output ∧ (nl.edit e).slots pin = nl.slots pin := by
  cases e with
  | place g => exact insert_kept _ hr
  | addInput name => exact insert_kept _ hr
  | addOutput name => exact insert_kept _ hr
  | link dest slot source output =>
    exact ⟨(role?_link ..).trans hr, nl.slots_link_of_ne hs slot source output⟩
  | unlink dest slot => exact ⟨(role?_unlink ..).trans hr, nl.slots_unlink_of_ne hs slot⟩
  | remove id =>
    obtain ⟨hne, hsource⟩ := hs
    refine ⟨?_, nl.slots_remove hne fun link hl => hsource link (hw.source?_of_mem hr hl)⟩
    rw [edit, role?_remove, if_neg hne, hr]
  | drive id value =>
    have ha := alike_drive nl id value
    exact ⟨(ha.role pin).trans hr, ha.slots pin⟩
  | toggle id =>
    have ha := alike_updatePin nl id not
    exact ⟨(ha.role pin).trans hr, ha.slots pin⟩
  | duplicate ids withPins =>
    have hlt := lt_next_of_role? hr
    exact ⟨(nl.role?_duplicate ids withPins hlt).trans hr, nl.slots_duplicate ids withPins hlt⟩

/-- Edits that spare a boundary output leave it linked as it is. -/
theorem source?_edits (h : nl.Reachable) (hr : nl.role? pin = some .output) {es : List Edit}
    (hs : ∀ e ∈ es, e.Spares pin (nl.source? pin 0)) :
    (nl.edits es).source? pin 0 = nl.source? pin 0 := by
  induction es generalizing nl with
  | nil => rfl
  | cons e es ih =>
    obtain ⟨he, hs⟩ := List.forall_mem_cons.1 hs
    obtain ⟨hr', hslots⟩ := edit_kept h.wellFormed hr he
    have hsource : (nl.edit e).source? pin 0 = nl.source? pin 0 := by
      rw [(h.edit e).wellFormed.source?_eq, h.wellFormed.source?_eq, hslots]
    rw [← hsource] at hs
    exact (ih (h.edit e) hr' hs).trans hsource

end Netlist

namespace Simulator

theorem current_after_edits (sim : Simulator) (es : List Edit) :
    (sim.after (es.map .edit)).current = sim.current := by
  induction es generalizing sim with
  | nil => rfl
  | cons e es ih => exact ih (sim.apply (.edit e))

theorem netlist_after_edits (sim : Simulator) (es : List Edit) :
    (sim.after (es.map .edit)).netlist = sim.netlist.edits es := by
  induction es generalizing sim with
  | nil => rfl
  | cons e es ih => exact ih (sim.apply (.edit e))

end Simulator

namespace Netlist

/-- Between two ticks the outputs of nodes read as they did, and a boundary output reads what the
last tick cached for the source that it is linked to now, so it reads as it did under edits that
spare it. -/
theorem Reachable.reads_between_ticks {nl : Netlist Gate} (hr : nl.Reachable)
    (events : List Event) (es : List Edit) :
    let sim := (Simulator.ofNetlist nl).after events
    let sim' := sim.after (es.map .edit)
    (∀ id output, sim'.readOutput id output = sim.readOutput id output) ∧
    (∀ pin, sim'.readPin pin = match sim'.netlist.source? pin 0 with
      | some source => sim.readOutput source.node source.output
      | none => false) ∧
    ∀ pin, sim.netlist.role? pin = some .output →
      (∀ e ∈ es, e.Spares pin (sim.netlist.source? pin 0)) → sim'.readPin pin = sim.readPin pin := by
  intro sim sim'
  have houtput : ∀ id output, sim'.readOutput id output = sim.readOutput id output := by
    intro id output
    rw [Simulator.readOutput, Simulator.readOutput, sim.current_after_edits es]
  refine ⟨houtput, ?_, ?_⟩
  · intro pin
    rw [Simulator.readPin]
    cases sim'.netlist.source? pin 0 with
    | none => rfl
    | some source => exact houtput source.node source.output
  · intro pin hrole hspared
    have hsound := (Simulator.sound_ofNetlist hr).after events
    have hsource := source?_edits hsound.reachable hrole hspared
    rw [Simulator.readPin_eq_shown, Simulator.readPin_eq_shown, Context.shown, Context.shown,
      sim.current_after_edits es, sim.netlist_after_edits es, hsource]

/-- An input that is linked to an output. -/
def wire : Netlist Gate :=
  ((((∅ : Netlist Gate).addInput "A").2.addOutput "Q").2.link 1 0 0 0).2

theorem reachable_wire : wire.Reachable := .link (.addOutput (.addInput .empty "A") "Q") 1 0 0 0

/-- A wire that is high keeps its output high when its input is driven low and its pins are
duplicated. -/
theorem reads_between_ticks_wire :
    let sim := (Simulator.ofNetlist wire).after [.edit (.drive 0 true), .tick]
    wire.Reachable ∧ sim.readPin 1 = true ∧
      (sim.after ([.drive 0 false, .duplicate [0, 1] true].map .edit)).readPin 1 = true := by
  intro sim
  have hread : sim.readPin 1 = true := by decide +kernel
  have hkept := (Reachable.reads_between_ticks reachable_wire [.edit (.drive 0 true), .tick]
    [.drive 0 false, .duplicate [0, 1] true]).2.2 1 rfl (by simp [Edit.Spares])
  exact ⟨reachable_wire, hread, hkept.trans hread⟩

/-- The output of a wire that is high falls as soon as it is unlinked, before the next tick. -/
theorem wire_falls_when_unlinked :
    let sim := (Simulator.ofNetlist wire).after [.edit (.drive 0 true), .tick]
    let sim' := sim.after [.edit (.unlink 1 0)]
    (sim.netlist.unlink 1 0).1 = .ok (some ⟨0, 0⟩) ∧ sim.netlist.outputs = [1] ∧
      sim'.netlist.outputs = [1] ∧ sim.readPin 1 = true ∧ sim'.readPin 1 = false :=
  ⟨rfl, rfl, rfl, by decide +kernel, by decide +kernel⟩

end Netlist

end Breadboard
