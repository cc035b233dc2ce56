import Breadboard.Proofs.Netlist.Keeping
import Breadboard.Proofs.Simulation.Session

namespace Breadboard

open Relation Surroundings

namespace Netlist

/-- A node in the backward cone of the boundary outputs, these included. -/
def Observed (nl : Netlist Gate) (id : NodeId) : Prop := nl.Feeds nl.outputs id

/-- A node that is new since the handle `first` was the next one, or that is not observed. -/
def Spare (nl : Netlist Gate) (first id : NodeId) : Prop := first ≤ id ∨ ¬ nl.Observed id

end Netlist

/-- An edit of unobserved logic: it adds gates, input pins or copies without pins, or it drives,
links, unlinks or removes a spare node. -/
def Edit.Unobserved (nl : Netlist Gate) (first : NodeId) : Edit → Prop
  | .place _ => True
  | .addInput _ => True
  | .addOutput _ => False
  | .link dest _ _ _ => nl.Spare first dest
  | .unlink dest _ => nl.Spare first dest
  | .remove id => nl.Spare first id
  | .drive id _ => nl.Spare first id
  | .toggle id => nl.Spare first id
  | .duplicate _ withPins => withPins = false

/-- An edit that sets nothing but the state of a pin. -/
def Edit.Drives : Edit → Prop
  | .drive _ _ => True
  | .toggle _ => True
  | _ => False

namespace Simulator

open Netlist

/-- A run with edits of unobserved logic, and the run without them: ticks and drives. -/
inductive Woven (first : NodeId) : Simulator → (extended plain : List Event) → Prop where
  | done (sim : Simulator) : Woven first sim [] []
  | tick {sim : Simulator} {extended plain : List Event}
      (rest : Woven first (sim.apply .tick) extended plain) :
      Woven first sim (.tick :: extended) (.tick :: plain)
  | drive {sim : Simulator} {e : Edit} {extended plain : List Event} (he : e.Drives)
      (rest : Woven first (sim.apply (.edit e)) extended plain) :
      Woven first sim (.edit e :: extended) (.edit e :: plain)
  | extra {sim : Simulator} {e : Edit} {extended plain : List Event}
      (he : e.Unobserved sim.netlist first)
      (rest : Woven first (sim.apply (.edit e)) extended plain) :
      Woven first sim (.edit e :: extended) plain

/-- The boundary outputs, each with what it reads. -/
def readings (sim : Simulator) : List (NodeId × Bool) :=
  sim.netlist.outputs.map fun o => (o, sim.readPin o)

/-- What the boundary outputs read after every tick of a run. -/
def history (sim : Simulator) : List Event → List (List (NodeId × Bool))
  | [] => []
  | .tick :: events => (sim.apply .tick).readings :: history (sim.apply .tick) events
  | .edit e :: events => history (sim.apply (.edit e)) events

end Simulator

namespace Netlist

variable {nl nl' : Netlist Gate} {first a : NodeId} {e : Edit}

theorem Observed.of_reads {b : NodeId} (h : nl.Observed a) (hr : nl.Reads a b) :
    nl.Observed b := by
  obtain ⟨o, ho, hp⟩ := h
  exact ⟨o, ho, hp.tail hr⟩

theorem Observed.lt_next (h : nl.Observed a) (hw : nl.WellFormed) : a < nl.next := by
  obtain ⟨o, ho, hp⟩ := h
  rcases reflTransGen_iff_eq_or_transGen.1 hp with rfl | hp
  · exact lt_next_of_role? ((hw.mem_outputs _).1 ho)
  · obtain ⟨b, _, hr⟩ := TransGen.tail'_iff.1 hp
    rcases hw.role?_of_reads hr with ⟨g, hg⟩ | hi
    · exact lt_next_of_role? hg
    · exact lt_next_of_role? hi

theorem Alike.observed_eq (h : Alike nl nl') : nl'.Observed = nl.Observed := by
  unfold Observed Feeds
  rw [h.outputs, h.reads_eq]

@[simp] theorem outputs_link (nl : Netlist Gate) (dest : NodeId) (slot : Nat) (source : NodeId)
    (output : Nat) : (nl.link dest slot source output).2.outputs = nl.outputs := by
  rcases nl.link_cases dest slot source output with h | h <;> rw [h]
  rfl

theorem outputs_linkAll (nl : Netlist Gate) (links : List (NodeId × Nat × Link)) :
    (nl.linkAll links).2.outputs = nl.outputs :=
  linkAll_induction (P := fun nl' => nl'.outputs = nl.outputs) rfl fun _ h _ _ _ _ =>
    (outputs_link ..).trans h

theorem outputs_duplicate (nl : Netlist Gate) (ids : List NodeId) :
    (nl.duplicate ids false).2.outputs = nl.outputs := by
  unfold duplicate
  split
  · rfl
  · next set hs =>
    have hnone : set.filter (fun id => (nl.outputPin? id).isSome) = [] := by
      apply List.filter_eq_nil_iff.2
      intro id hid hpin
      have hgate : (nl.gate? id).isSome = true := ((mem_copySet hs).1 hid).2
      exact (gate?_isSome_iff.1 hgate).role?_ne_output (outputPin?_isSome_iff.1 hpin)
    refine (outputs_linkAll _ _).trans ?_
    rw [(copied_copySet hs nl).outputs, hnone, List.map_nil, List.append_nil]

/-- Removing what is not an output keeps the outputs. -/
theorem outputs_remove (hr : nl.role? a ≠ some .output) :
    (nl.remove a).2.outputs = nl.outputs := by
  unfold remove
  split
  · rfl
  · next node hn =>
    dsimp only
    split
    · rfl
    · exact (alike_reindex _).outputs
    · next hk =>
      rw [role?_eq_map, hn, Option.map_some, hk] at hr
      exact absurd rfl hr

/-- When the cone has no new nodes, an unobserved edit keeps the boundary outputs. -/
theorem outputs_of_unobserved (h : e.Unobserved nl first) (hw : nl.WellFormed)
    (hlt : ∀ a, nl.Observed a → a < first) : (nl.edit e).outputs = nl.outputs := by
  cases e with
  | place g => exact outputs_insert nl _
  | addInput name => exact outputs_insert nl _
  | addOutput name => exact h.elim
  | link dest slot source output => exact outputs_link ..
  | unlink dest slot =>
    rw [edit]
    rcases nl.unlink_cases dest slot with he | he <;> rw [he]
    rfl
  | remove id =>
    apply outputs_remove
    intro hr
    have hid : nl.Observed id := ⟨id, (hw.mem_outputs id).2 hr, .refl⟩
    rcases h with hle | hn
    · exact Nat.not_le.2 (hlt id hid) hle
    · exact hn hid
  | drive id value => exact (alike_drive nl id value).outputs
  | toggle id => exact (alike_updatePin nl id not).outputs
  | duplicate ids withPins =>
    obtain rfl : withPins = false := h
    exact outputs_duplicate nl ids

/-- When the cone has no new nodes, an unobserved edit is about no node of it. -/
theorem avoids_of_unobserved (h : e.Unobserved nl first)
    (hlt : ∀ a, nl.Observed a → a < first) (ha : nl.Observed a) : e.Avoids nl a := by
  have hne {other : NodeId} (hs : nl.Spare first other) : other ≠ a := by
    intro he
    rcases hs with hle | hn
    · exact Nat.not_le.2 (hlt a ha) (he ▸ hle)
    · exact hn (he ▸ ha)
  cases e with
  | link dest slot source output => exact hne h
  | unlink dest slot => exact hne h
  | remove removed =>
    refine ⟨hne h, fun hr => ?_⟩
    have hsource := ha.of_reads hr
    rcases h with hle | hn
    · exact Nat.not_le.2 (hlt removed hsource) hle
    · exact hn hsource
  | drive pin value => exact hne h
  | toggle pin => exact hne h
  | _ => trivial

/-- The cone of the boundary outputs lies unchanged in another netlist with the same outputs. -/
structure SameCone (nl nl' : Netlist Gate) : Prop where
  outputs : nl'.outputs = nl.outputs
  keeps : ∀ {a}, nl.Observed a → Keeps nl nl' a

namespace SameCone

theorem embeds (h : nl.SameCone nl') : nl.Embeds nl' nl.Observed id :=
  embeds_of_kept (fun ha => (h.keeps ha).role) (fun ha => (h.keeps ha).slots) .of_reads

theorem of_observed (h : nl.SameCone nl') (ha : nl'.Observed a) : nl.Observed a := by
  obtain ⟨o, ho, hp⟩ := ha
  rw [h.outputs] at ho
  induction hp with
  | refl => exact ⟨o, ho, .refl⟩
  | tail _ hr ih => exact ih.of_reads ((h.keeps ih).reads.1 hr)

theorem observed (h : nl.SameCone nl') (ha : nl.Observed a) : nl'.Observed a := by
  obtain ⟨o, ho, hp⟩ := ha
  suffices hboth : nl.Observed a ∧ nl'.Observed a from hboth.2
  induction hp with
  | refl => exact ⟨⟨o, ho, .refl⟩, ⟨o, h.outputs ▸ ho, .refl⟩⟩
  | tail _ hr ih => exact ⟨ih.1.of_reads hr, ih.2.of_reads ((h.keeps ih.1).reads.2 hr)⟩

/-- An unobserved edit leaves the cone as it is. -/
theorem extra (h : nl.SameCone nl') (hw : nl.WellFormed) (hw' : nl'.WellFormed)
    (hnext : nl.next = first) (he : e.Unobserved nl' first) : nl.SameCone (nl'.edit e) := by
  have hlt : ∀ a, nl'.Observed a → a < first := fun a ha =>
    hnext ▸ (h.of_observed ha).lt_next hw
  refine ⟨(outputs_of_unobserved he hw' hlt).trans h.outputs, fun ha => (h.keeps ha).trans ?_⟩
  have ha' := h.observed ha
  exact keeps_edit (ha'.lt_next hw') (avoids_of_unobserved he hlt ha')

/-- A pin that is driven in both netlists leaves the cones the same. -/
theorem updatePin (h : nl.SameCone nl') (pin : NodeId) (f : Bool → Bool) :
    (nl.updatePin pin f).2.SameCone (nl'.updatePin pin f).2 := by
  have halike := alike_updatePin nl pin f
  have halike' := alike_updatePin nl' pin f
  refine ⟨(halike'.outputs.trans h.outputs).trans halike.outputs.symm, fun {a} ha => ?_⟩
  have hk := h.keeps (halike.observed_eq ▸ ha)
  refine ⟨?_, ?_, ?_⟩
  · rw [halike'.role, halike.role, hk.role]
  · rw [halike'.slots, halike.slots, hk.slots]
  · by_cases he : pin = a
    · subst he
      rw [state?_updatePin_self, state?_updatePin_self, hk.state]
    · rw [state?_updatePin_of_ne nl' he, state?_updatePin_of_ne nl he, hk.state]

end SameCone

end Netlist

namespace Simulator

open Netlist

/-- Two simulators whose cones agree, also in what the last tick left there. -/
structure Agrees (sim sim' : Simulator) : Prop where
  sound : sim.Sound
  sound' : sim'.Sound
  cone : sim.netlist.SameCone sim'.netlist
  before : sim.netlist.SameBefore sim.netlist.Observed id sim.before sim'.before

variable {sim sim' : Simulator} {first : NodeId} {extended plain : List Event}

theorem Sound.agrees (h : sim.Sound) : sim.Agrees sim :=
  ⟨h, h, ⟨rfl, fun {_} _ => .refl _ _⟩, fun _ _ _ => ⟨rfl, rfl⟩⟩

/-- The outputs read the same after a tick, and the cones still agree. -/
theorem Agrees.tick (h : sim.Agrees sim') :
    (sim.apply .tick).Agrees (sim'.apply .tick) ∧
      (sim'.apply .tick).readings = (sim.apply .tick).readings := by
  have hw := h.sound.reachable.wellFormed
  have hw' := h.sound'.reachable.wellFormed
  have he := h.cone.embeds
  have hstart : sim.netlist.Tracks sim'.netlist sim.netlist.Observed id ∅ ∅ := by
    apply tracks_fresh
    intro a pin pin' ha hp hp'
    have hstate := (h.cone.keeps ha).state
    rw [id_eq] at hp'
    rw [state?_of_inputPin? hp, state?_of_inputPin? hp'] at hstate
    exact Option.some.inj hstate
  have hs := Context.settled_fresh (sim.netlist.within sim.before) ∅
  have hs' := Context.settled_fresh (sim'.netlist.within sim'.before) ∅
  have houtputs : ∀ o ∈ sim.netlist.outputs, sim.netlist.Observed o := fun o ho => ⟨o, ho, .refl⟩
  obtain ⟨hvalue, htracks⟩ := readPins_rename he hw hw' h.before hstart hs hs' houtputs
  obtain ⟨hsettled, _, hshown, hsource⟩ := readPins_settled (s := sim.netlist.within sim.before)
    hw hs sim.netlist.outputs
  obtain ⟨_, _, hshown', hsource'⟩ := readPins_settled (s := sim'.netlist.within sim'.before)
    hw' hs' sim.netlist.outputs
  have hticked := sim.ticked hw
  have hticked' := sim'.ticked hw'
  have hext := hticked.extends_outputs
  have hext' := hticked'.extends_outputs
  rw [h.cone.outputs] at hext'
  rw [List.map_id] at hvalue htracks
  refine ⟨⟨h.sound.apply .tick, h.sound'.apply .tick, h.cone, ?_⟩, ?_⟩
  · change sim.netlist.SameBefore sim.netlist.Observed id (some _) (some _)
    apply htracks.sameBefore hext hext'
    intro a ha hg
    exact ha.cached hw hg hsettled (fun o ho => (hw.mem_outputs o).1 ho) hsource
  · have hread : ∀ o ∈ sim.netlist.outputs,
        (sim'.apply .tick).readPin o = (sim.apply .tick).readPin o := by
      intro o ho
      have hsame := List.map_inj_left.1 ((hshown'.symm.trans hvalue).trans hshown) o ho
      refine ((readPin_eq_shown _ o).trans ?_).trans (readPin_eq_shown _ o).symm
      refine ((hext'.shown fun source h => hsource' o ho source h).trans hsame).trans ?_
      exact (hext.shown fun source h => hsource o ho source h).symm
    change sim'.netlist.outputs.map _ = sim.netlist.outputs.map _
    rw [h.cone.outputs]
    exact List.map_congr_left fun o ho => congrArg (Prod.mk o) (hread o ho)

theorem Agrees.drive (h : sim.Agrees sim') {e : Edit} (he : e.Drives) :
    (sim.apply (.edit e)).Agrees (sim'.apply (.edit e)) := by
  have hbefore (pin : NodeId) (f : Bool → Bool) :
      (sim.netlist.updatePin pin f).2.SameBefore (sim.netlist.updatePin pin f).2.Observed id
        sim.before sim'.before := by
    have halike := alike_updatePin sim.netlist pin f
    intro a ha hg
    obtain ⟨g, hg⟩ := hg
    exact h.before a (halike.observed_eq ▸ ha) ⟨g, (halike.role a).symm.trans hg⟩
  cases e with
  | drive pin value =>
    exact ⟨h.sound.apply _, h.sound'.apply _, h.cone.updatePin pin fun _ => value,
      hbefore pin fun _ => value⟩
  | toggle pin =>
    exact ⟨h.sound.apply _, h.sound'.apply _, h.cone.updatePin pin not, hbefore pin not⟩
  | _ => exact he.elim

theorem Agrees.extra (h : sim.Agrees sim') (hnext : sim.netlist.next = first) {e : Edit}
    (he : e.Unobserved sim'.netlist first) : sim.Agrees (sim'.apply (.edit e)) :=
  ⟨h.sound, h.sound'.apply _, h.cone.extra h.sound.reachable.wellFormed
    h.sound'.reachable.wellFormed hnext he, h.before⟩

theorem next_drive_event {e : Edit} (he : e.Drives) :
    (sim.apply (.edit e)).netlist.next = sim.netlist.next := by
  cases e with
  | drive pin value => exact next_drive ..
  | toggle pin => exact next_updatePin ..
  | _ => exact he.elim

theorem Woven.history_eq (hwoven : Woven first sim' extended plain) (h : sim.Agrees sim')
    (hnext : sim.netlist.next = first) : sim'.history extended = sim.history plain := by
  induction hwoven generalizing sim with
  | done sim' => rfl
  | tick rest ih =>
    obtain ⟨hagrees, hread⟩ := h.tick
    rw [history, history, hread, ih hagrees hnext]
  | drive he rest ih => exact ih (h.drive he) ((next_drive_event he).trans hnext)
  | extra he rest ih => exact ih (h.extra hnext he) hnext

end Simulator

namespace Netlist

/-- From any state of a session on, a run of ticks and drives shows the same on every boundary
output when unobserved logic is edited between its ticks, also with loops and memory in the cone. -/
theorem Reachable.unobserved_edits_hidden {nl : Netlist Gate} (hr : nl.Reachable)
    (earlier : List Event) {extended plain : List Event} :
    let sim := (Simulator.ofNetlist nl).after earlier
    Simulator.Woven sim.netlist.next sim extended plain →
      sim.history extended = sim.history plain := by
  intro sim hwoven
  have hsound : sim.Sound := (Simulator.sound_ofNetlist hr).after earlier
  exact hwoven.history_eq hsound.agrees rfl

/-- A latch shows that it was set, whatever a gate that reads it and itself does besides, and
whatever happens to a copy of the latch. -/
theorem unobserved_edits_hidden_latch :
    let extended : List Event :=
      [.edit (.drive 0 true), .edit (.place Primitive.nand.gate), .edit (.link 3 0 2 0), .tick,
        .edit (.link 3 1 3 0), .edit (.addInput "B"), .edit (.drive 4 true),
        .edit (.drive 0 false), .tick, .edit (.duplicate [2] false), .edit (.link 5 0 4 0),
        .edit (.remove 3), .tick]
    let plain : List Event := [.edit (.drive 0 true), .tick, .edit (.drive 0 false), .tick, .tick]
    latch.Reachable ∧ Simulator.Woven 3 (.ofNetlist latch) extended plain ∧
      (Simulator.ofNetlist latch).history extended = [[(1, true)], [(1, true)], [(1, true)]] := by
  intro extended plain
  have hnew (nl : Netlist Gate) {id : NodeId} (hid : 3 ≤ id) : nl.Spare 3 id := .inl hid
  have hwoven : Simulator.Woven 3 (.ofNetlist latch) extended plain :=
    .drive trivial <| .extra trivial <| .extra (hnew _ (by decide)) <| .tick <|
      .extra (hnew _ (by decide)) <| .extra trivial <| .extra (hnew _ (by decide)) <|
      .drive trivial <| .tick <| .extra rfl <| .extra (hnew _ (by decide)) <|
      .extra (hnew _ (by decide)) <| .tick <| .done _
  have hplain : (Simulator.ofNetlist latch).history plain =
      [[(1, true)], [(1, true)], [(1, true)]] := by decide +kernel
  exact ⟨reachable_latch, hwoven,
    (Reachable.unobserved_edits_hidden reachable_latch [] hwoven).trans hplain⟩

end Netlist

end Breadboard
