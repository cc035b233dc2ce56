import Breadboard.Proofs.Evaluation.Lockstep
import Breadboard.Proofs.Simulation.Unobserved

namespace Breadboard

open Relation Surroundings

theorem Edit.Drives.alike {e : Edit} (he : e.Drives) (nl : Netlist Gate) :
    nl.Alike (nl.edit e) := by
  cases e with
  | drive pin value => exact nl.alike_drive pin value
  | toggle pin => exact nl.alike_updatePin pin not
  | _ => exact he.elim

namespace Simulator

open Netlist

/-- The simulators that the ticks of a drive history lead to; before each tick some edits are
made. -/
def states (sim : Simulator) : List (List Edit) → List Simulator
  | [] => []
  | edits :: rounds =>
    let ticked := (sim.after (edits.map .edit)).apply .tick
    ticked :: ticked.states rounds

/-- A simulator over a netlist of which only the pins were driven. -/
structure Over (nl : Netlist Gate) (sim : Simulator) : Prop where
  alike : nl.Alike sim.netlist
  next : sim.netlist.next = nl.next

variable {nl : Netlist Gate} {part : NodeId → Prop} {sim sim' : Simulator} {edits : List Edit}

theorem Over.tick (h : sim.Over nl) : (sim.apply .tick).Over nl := ⟨h.alike, h.next⟩

theorem Over.drives (h : sim.Over nl) (he : ∀ e ∈ edits, e.Drives) :
    (sim.after (edits.map .edit)).Over nl ∧ (sim.after (edits.map .edit)).before = sim.before := by
  induction edits generalizing sim with
  | nil => exact ⟨h, rfl⟩
  | cons e edits ih =>
    obtain ⟨he, hedits⟩ := List.forall_mem_cons.1 he
    exact ih ⟨h.alike.trans (he.alike _), (next_drive_event he).trans h.next⟩ hedits

end Simulator

namespace Netlist

variable {nl nl' : Netlist Gate}

/-- Ticks over netlists that differ in the data of pins make the same evaluations. -/
theorem Alike.tick_calls (h : Alike nl nl') (hn : nl'.next = nl.next) :
    (nl'.outputs.map .pin ++ nl'.live.map fun entry => Call.node entry.1) =
      nl.outputs.map .pin ++ nl.live.map fun entry => Call.node entry.1 := by
  have hids : nl'.live.map (·.1) = nl.live.map (·.1) := by
    simp only [map_live, hn, h.role]
  have hnodes := congrArg (List.map Call.node) hids
  rw [List.map_map, List.map_map] at hnodes
  rw [h.outputs]
  exact congrArg (nl.outputs.map .pin ++ ·) hnodes

end Netlist

namespace Simulator

open Netlist

variable {nl : Netlist Gate} {part : NodeId → Prop} {sim sim' : Simulator}

/-- The contexts of two ticks are in lock step, when the pins of a part and what the last tick left
there are the same. -/
theorem Over.lockstep_current (h : sim.Over nl) (h' : sim'.Over nl) (hw : sim.netlist.WellFormed)
    (he : sim.netlist.Embeds sim'.netlist part id)
    (hb : sim.netlist.SameBefore part id sim.before sim'.before)
    (hp : ∀ pin, part pin → sim'.netlist.pinState pin = sim.netlist.pinState pin) :
    sim.netlist.Lockstep sim'.netlist part sim.tick.value.current sim'.tick.value.current := by
  have halike := h.alike.symm.trans h'.alike
  have hstart : sim.netlist.Lockstep sim'.netlist part ∅ ∅ := by
    refine ⟨fun _ => Iff.rfl, rfl, tracks_fresh ?_⟩
    intro a pin pin' ha hpin hpin'
    have hstate := hp a ha
    rw [id_eq] at hpin'
    simp only [pinState, hpin, hpin'] at hstate
    exact Except.ok.inj hstate
  have hs : (∅ : Context).Settled (sim.netlist.within sim.before) := Context.settled_fresh _ ∅
  have hs' : (∅ : Context).Settled (sim'.netlist.within sim'.before) := Context.settled_fresh _ ∅
  have hcalls := hstart.calls halike he hw hb hs hs'
  rw [tick_eq_calls, tick_eq_calls, halike.tick_calls (h'.next.trans h.next.symm)]
  exact hcalls _

/-- A tick reads the same in a part that is closed backward, when the pins of the part and what the
last tick left there are the same. -/
theorem Over.lockstep_tick (h : sim.Over nl) (h' : sim'.Over nl) (hw : nl.WellFormed)
    (hclosed : ∀ {a b}, part a → nl.Reads a b → part b)
    (hb : nl.SameBefore part id sim.before sim'.before)
    (hp : ∀ pin, part pin → sim'.netlist.pinState pin = sim.netlist.pinState pin) :
    nl.SameBefore part id (sim.apply .tick).before (sim'.apply .tick).before ∧
      ∀ q, part q → (sim'.apply .tick).readPin q = (sim.apply .tick).readPin q := by
  have hwell := hw.alike h.alike
  have he : sim.netlist.Embeds sim'.netlist part id := by
    apply (h.alike.symm.trans h'.alike).embeds
    intro a b ha hr
    exact hclosed ha (h.alike.reads_eq ▸ hr)
  have hbefore : sim.netlist.SameBefore part id sim.before sim'.before := by
    intro a ha hg
    obtain ⟨g, hg⟩ := hg
    exact hb a ha ⟨g, (h.alike.role a).symm.trans hg⟩
  have hlock := h.lockstep_current h' hwell he hbefore hp
  constructor
  · intro a ha _
    exact ⟨hlock.tracks.cached ha, hlock.tracks.nested ha⟩
  · intro q hq
    rw [readPin_eq_shown, readPin_eq_shown]
    exact hlock.tracks.shown he hwell (hw.alike h'.alike) hq

/-- Two histories that agree on the pins of a part that is closed backward read the same in it. -/
theorem Over.lockstep_states (h : sim.Over nl) (h' : sim'.Over nl) (hw : nl.WellFormed)
    (hclosed : ∀ {a b}, part a → nl.Reads a b → part b)
    (hb : nl.SameBefore part id sim.before sim'.before) {rounds rounds' : List (List Edit)}
    (hd : ∀ edits ∈ rounds, ∀ e ∈ edits, e.Drives) (hd' : ∀ edits ∈ rounds', ∀ e ∈ edits, e.Drives)
    (hp : List.Forall₂ (fun sim sim' : Simulator => ∀ pin, part pin →
      sim'.netlist.pinState pin = sim.netlist.pinState pin)
      (sim.states rounds) (sim'.states rounds'))
    {q : NodeId} (hq : part q) :
    (sim'.states rounds').map (·.readPin q) = (sim.states rounds).map (·.readPin q) := by
  induction rounds generalizing sim sim' rounds' with
  | nil =>
    rw [states, List.forall₂_nil_left_iff] at hp
    rw [hp]
    rfl
  | cons edits rounds ih =>
    cases rounds' with
    | nil => cases hp
    | cons edits' rounds' =>
      obtain ⟨hedits, hd⟩ := List.forall_mem_cons.1 hd
      obtain ⟨hedits', hd'⟩ := List.forall_mem_cons.1 hd'
      obtain ⟨hfirst, hp⟩ := List.forall₂_cons.1 hp
      obtain ⟨hover, hsame⟩ := h.drives hedits
      obtain ⟨hover', hsame'⟩ := h'.drives hedits'
      have hb' : nl.SameBefore part id (sim.after (edits.map .edit)).before
          (sim'.after (edits'.map .edit)).before := by rwa [hsame, hsame']
      obtain ⟨hnext, hread⟩ := hover.lockstep_tick hover' hw hclosed hb' hfirst
      simp only [states, List.map_cons, hread q hq, ih hover.tick hover'.tick hnext hd hd' hp]

end Simulator

namespace Netlist

/-- Two simulators over one netlist read the same on a pin after every tick, if their drive
histories agree at every tick on the states of the input pins behind it. -/
theorem Reachable.cones_isolated {nl : Netlist Gate} (hr : nl.Reachable) (q : NodeId)
    {rounds rounds' : List (List Edit)} (hd : ∀ edits ∈ rounds, ∀ e ∈ edits, e.Drives)
    (hd' : ∀ edits ∈ rounds', ∀ e ∈ edits, e.Drives)
    (hsame : List.Forall₂ (fun sim sim' : Simulator => ∀ pin, ReflTransGen nl.Reads q pin →
      sim'.netlist.pinState pin = sim.netlist.pinState pin)
      ((Simulator.ofNetlist nl).states rounds) ((Simulator.ofNetlist nl).states rounds')) :
    ((Simulator.ofNetlist nl).states rounds').map (·.readPin q) =
      ((Simulator.ofNetlist nl).states rounds).map (·.readPin q) := by
  have hover : (Simulator.ofNetlist nl).Over nl := ⟨.refl nl, rfl⟩
  exact hover.lockstep_states hover hr.wellFormed (fun ha hr => ha.tail hr)
    (fun _ _ _ => ⟨rfl, rfl⟩) hd hd' hsame .refl

/-- The latch with a second input, and a second output that shows the `NAND` of this input and the
latch. -/
def tappedLatch : Netlist Gate :=
  let pins := ((latch.addInput "B").2.addOutput "P").2
  let gates := (pins.place Primitive.nand.gate).2
  (((gates.link 5 0 3 0).2.link 5 1 2 0).2.link 4 0 5 0).2

theorem reachable_tappedLatch : tappedLatch.Reachable :=
  .link (.link (.link (.place (.addOutput (.addInput reachable_latch "B") "P")
    Primitive.nand.gate) 5 0 3 0) 5 1 2 0) 4 0 5 0

/-- The latch shows that it was set, whatever the second input is driven with; the second output
shows the difference. -/
theorem cones_isolated_tappedLatch :
    let rounds := [[.drive 0 true], [.drive 0 false, .drive 3 true]]
    let rounds' := [[.drive 3 true, .toggle 0], [.toggle 3, .toggle 0]]
    let states := (Simulator.ofNetlist tappedLatch).states rounds
    let states' := (Simulator.ofNetlist tappedLatch).states rounds'
    tappedLatch.Reachable ∧ (∀ edits ∈ rounds, ∀ e ∈ edits, e.Drives) ∧
      (∀ edits ∈ rounds', ∀ e ∈ edits, e.Drives) ∧
      List.Forall₂ (fun sim sim' : Simulator => ∀ pin, ReflTransGen tappedLatch.Reads 1 pin →
        sim'.netlist.pinState pin = sim.netlist.pinState pin) states states' ∧
      states.map (·.readPin 4) = [true, false] ∧ states'.map (·.readPin 4) = [false, true] ∧
      states'.map (·.readPin 1) = states.map (·.readPin 1) := by
  intro rounds rounds' states states'
  have hd : ∀ edits ∈ rounds, ∀ e ∈ edits, e.Drives := by simp [rounds, Edit.Drives]
  have hd' : ∀ edits ∈ rounds', ∀ e ∈ edits, e.Drives := by simp [rounds', Edit.Drives]
  have hslots : tappedLatch.slots 0 = [] ∧ tappedLatch.slots 1 = [some ⟨2, 0⟩] ∧
      tappedLatch.slots 2 = [some ⟨0, 0⟩, some ⟨2, 0⟩] := by decide +kernel
  obtain ⟨hslots0, hslots1, hslots2⟩ := hslots
  have hcone : ∀ pin, ReflTransGen tappedLatch.Reads 1 pin → pin = 0 ∨ pin = 1 ∨ pin = 2 := by
    intro pin hpath
    induction hpath with
    | refl => exact .inr (.inl rfl)
    | tail _ hread ih =>
      obtain ⟨link, hl, rfl⟩ := hread
      rcases ih with rfl | rfl | rfl
      · simp [hslots0] at hl
      · simp [hslots1] at hl
        simp [hl]
      · simp [hslots2] at hl
        rcases hl with rfl | rfl <;> simp
  have hsame : List.Forall₂ (fun sim sim' : Simulator => ∀ pin,
      ReflTransGen tappedLatch.Reads 1 pin →
        sim'.netlist.pinState pin = sim.netlist.pinState pin) states states' := by
    refine .cons ?_ (.cons ?_ .nil)
    all_goals
      intro pin hpin
      rcases hcone pin hpin with rfl | rfl | rfl <;> decide +kernel
  exact ⟨reachable_tappedLatch, hd, hd', hsame, by decide +kernel, by decide +kernel,
    Reachable.cones_isolated reachable_tappedLatch 1 hd hd' hsame⟩

end Netlist

end Breadboard
