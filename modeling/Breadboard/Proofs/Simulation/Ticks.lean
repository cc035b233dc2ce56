import Breadboard.Proofs.Evaluation.Agreement
import Breadboard.Simulator

namespace Breadboard

open Relation Surroundings

namespace Netlist

/-- Drive pins, one value after another. -/
def driveEach (nl : Netlist Gate) (pins : List NodeId) (values : Bits) : Netlist Gate :=
  (pins.zip values).foldl (fun nl (pin, value) => (nl.drive pin value).2) nl

/-- What outputs show tick after tick, when in every tick the inputs are overridden with a row of
values and the context of a tick is the previous one of the next. -/
def trace (nl : Netlist Gate) (inputs outputs : List NodeId) :
    Option Context → List Bits → List Bits
  | _, [] => []
  | previous, row :: rows =>
    let tick := (nl.within previous).readPins (Context.withPins (inputs.zip row)) outputs
    tick.value :: nl.trace inputs outputs (some tick.context) rows

variable {nl nl' : Netlist Gate} {id : NodeId} {pins : List NodeId} {values : Bits}

theorem alike_driveEach (nl : Netlist Gate) (pins : List NodeId) (values : Bits) :
    Alike nl (nl.driveEach pins values) := by
  unfold driveEach
  generalize pins.zip values = drives
  induction drives generalizing nl with
  | nil => exact .refl nl
  | cons d drives ih => exact (alike_drive nl d.1 d.2).trans (ih _)

theorem inputPin?_drive (nl : Netlist Gate) (id : NodeId) (value : Bool) (id' : NodeId) :
    (nl.drive id value).2.inputPin? id' =
      if id = id' then (nl.inputPin? id').map fun pin => { pin with state := value }
      else nl.inputPin? id' := by
  by_cases he : id = id'
  · subst he
    rw [if_pos rfl]
    cases hk : nl.kind? id with
    | none => simp [drive, updatePin, hk, inputPin?]
    | some kind =>
      cases kind with
      | gate g => simp [drive, updatePin, hk, inputPin?, NodeKind.inputPin?]
      | output pin => simp [drive, updatePin, hk, inputPin?, NodeKind.inputPin?]
      | input pin =>
        obtain ⟨node, hn, hnode⟩ := Option.map_eq_some_iff.1 hk
        simp [drive, updatePin, inputPin?, kind?, node?_modifyNode, hn, hnode,
          NodeKind.inputPin?, NodeKind.withState]
  · rw [if_neg he]
    change (nl.updatePin id fun _ => value).2.inputPin? id' = nl.inputPin? id'
    unfold updatePin
    split
    · rfl
    · simp [inputPin?, kind?, node?_modifyNode, he]
    · rfl

theorem inputPin?_driveEach_of_notMem (h : id ∉ pins) :
    (nl.driveEach pins values).inputPin? id = nl.inputPin? id := by
  induction pins generalizing nl values with
  | nil => rfl
  | cons pin pins ih =>
    cases values with
    | nil => rfl
    | cons value values =>
      obtain ⟨hne, hn⟩ := List.ne_and_not_mem_of_not_mem_cons h
      refine (ih hn).trans ?_
      rw [inputPin?_drive, if_neg hne.symm]

/-- Driven pins have the values that they were driven with. -/
theorem state_driveEach (hn : pins.Nodup) (hl : values.length = pins.length) {k : Nat}
    (hk : pins[k]? = some id) {pin : InputPin}
    (hp : (nl.driveEach pins values).inputPin? id = some pin) : values[k]? = some pin.state := by
  induction pins generalizing nl values k with
  | nil => cases hk
  | cons first pins ih =>
    obtain ⟨hfirst, hn⟩ := List.nodup_cons.1 hn
    cases values with
    | nil => cases hl
    | cons value values =>
      cases k with
      | succ k => exact ih hn (Nat.succ.inj hl) hk hp
      | zero =>
        obtain rfl := Option.some.inj hk
        change ((nl.drive first value).2.driveEach pins values).inputPin? first = some pin at hp
        rw [inputPin?_driveEach_of_notMem hfirst, inputPin?_drive, if_pos rfl] at hp
        obtain ⟨pin', _, rfl⟩ := Option.map_eq_some_iff.1 hp
        rfl

end Netlist

namespace Simulator

open Netlist

def driveEach (sim : Simulator) (pins : List NodeId) (values : Bits) : Simulator :=
  (sim.edit fun nl => ((), nl.driveEach pins values)).2

/-- What outputs show after every tick, when the inputs are driven with a row of values before. -/
def trace (inputs outputs : List NodeId) : Simulator → List Bits → List Bits
  | _, [] => []
  | sim, row :: rows =>
    let sim := (sim.driveEach inputs row).tick.value
    outputs.map sim.readPin :: trace inputs outputs sim rows

/-- The context that is the previous one of the next tick. -/
def before (sim : Simulator) : Option Context :=
  if sim.ticks = 0 then sim.previous else some sim.current

/-- What a tick leaves behind: a context in which everything is evaluated, the outputs first. -/
structure Ticked (sim sim' : Simulator) : Prop where
  netlist : sim'.netlist = sim.netlist
  before : sim'.before = some sim'.current
  settled : sim'.current.Settled (sim.netlist.within sim.before)
  pins : sim'.current.pins = ∅
  extends_outputs :
    ((sim.netlist.within sim.before).readPins ∅ sim.netlist.outputs).context.Extends sim'.current
  cached : ∀ id, sim.netlist.IsGate id ∨ sim.netlist.role? id = some .input →
    sim'.current.cached.get? id ≠ none

theorem ticked (sim : Simulator) (hw : sim.netlist.WellFormed) : sim.Ticked sim.tick.value := by
  obtain ⟨hs, he, _, _⟩ := readPins_settled (s := sim.netlist.within sim.before) hw
    (Context.settled_fresh _ ∅) sim.netlist.outputs
  obtain ⟨hs', he', hc'⟩ := evalNodes_settled (s := sim.netlist.within sim.before) hw hs
    (sim.netlist.live.map (·.1))
  refine ⟨rfl, rfl, hs', he'.pins.trans he.pins, he', fun id hid => hc' id ?_ hid⟩
  have hlive : ∃ node, sim.netlist.node? id = some node := by
    rw [← isLive_iff, isLive_eq_isSome_role?, Option.isSome_iff_exists]
    rcases hid with ⟨g, hg⟩ | hi
    · exact ⟨_, hg⟩
    · exact ⟨_, hi⟩
  obtain ⟨node, hn⟩ := hlive
  exact List.mem_map.2 ⟨(id, node), mem_live.2 hn, rfl⟩

theorem readPin_eq_shown (sim : Simulator) (pin : NodeId) :
    sim.readPin pin = sim.current.shown sim.netlist pin := by
  unfold readPin Context.shown
  cases sim.netlist.source? pin 0 <;> rfl

@[simp] theorem netlist_driveEach (sim : Simulator) (pins : List NodeId) (values : Bits) :
    (sim.driveEach pins values).netlist = sim.netlist.driveEach pins values := rfl

@[simp] theorem before_driveEach (sim : Simulator) (pins : List NodeId) (values : Bits) :
    (sim.driveEach pins values).before = sim.before := rfl

end Simulator

namespace Netlist

variable {nl nl' : Netlist Gate} {part : NodeId → Prop} {f : NodeId → NodeId}
  {before before' : Option Context} {ctx ctx' : Context}

theorem tracks_fresh {pins pins' : NodeMap Bool}
    (hp : ∀ {a pin pin'}, part a → nl.inputPin? a = some pin → nl'.inputPin? (f a) = some pin' →
      pinValue { pins := pins' } (f a) pin' = pinValue { pins } a pin) :
    nl.Tracks nl' part f { pins } { pins := pins' } where
  cached _ := rfl
  nested _ := rfl
  processing {a} _ := by
    change (∅ : WalkStack).contains (f a) = (∅ : WalkStack).contains a
    exact (NodeSet.contains_empty _).trans (NodeSet.contains_empty _).symm
  pins := hp

/-- A part and its copy show the same when all inputs of the part are overridden with one row, and
they have the same cached afterwards. -/
theorem readPins_overridden (he : nl.Embeds nl' part f) (hw : nl.WellFormed)
    (hw' : nl'.WellFormed) (hb : nl.SameBefore part f before before') {inputs outputs : List NodeId}
    (hn : inputs.Nodup) (hn' : (inputs.map f).Nodup)
    (hin : ∀ a, part a → nl.role? a = some .input → a ∈ inputs) (hout : ∀ o ∈ outputs, part o)
    {row : Bits} (hrow : row.length = inputs.length) :
    let tick := (nl.within before).readPins (Context.withPins (inputs.zip row)) outputs
    let tick' := (nl'.within before').readPins (Context.withPins ((inputs.map f).zip row))
      (outputs.map f)
    tick'.value = tick.value ∧ nl.SameBefore part f (some tick.context) (some tick'.context) := by
  have hrow' : row.length = (inputs.map f).length := by rw [List.length_map, hrow]
  have hstart : nl.Tracks nl' part f (Context.withPins (inputs.zip row))
      (Context.withPins ((inputs.map f).zip row)) := by
    apply tracks_fresh
    intro a pin pin' ha hp _
    obtain ⟨k, hk⟩ := List.mem_iff_getElem?.1 (hin a ha (role?_of_inputPin? hp))
    have hk' : (inputs.map f)[k]? = some (f a) := by rw [List.getElem?_map, hk, Option.map_some]
    have hvalue := Context.pinValue_withPins hn hrow hk pin
    have hvalue' := Context.pinValue_withPins hn' hrow' hk' pin'
    exact Option.some.inj (hvalue'.symm.trans hvalue)
  obtain ⟨hvalue, htracks⟩ := readPins_rename he hw hw' hb hstart
    (Context.settled_withPins _ _) (Context.settled_withPins _ _) hout
  exact ⟨hvalue, fun a ha _ => ⟨htracks.cached ha, htracks.nested ha⟩⟩

/-- Contexts that go on from two that agree have the same for the gates that were evaluated
there. -/
theorem Tracks.sameBefore {later later' : Context} (h : nl.Tracks nl' part f ctx ctx')
    (he : ctx.Extends later) (he' : ctx'.Extends later')
    (hc : ∀ a, part a → nl.IsGate a → ctx.cached.get? a ≠ none) :
    nl.SameBefore part f (some later) (some later') := by
  intro a ha hg
  have hca := hc a ha hg
  have hca' : ctx'.cached.get? (f a) ≠ none := by rwa [h.cached ha]
  obtain ⟨outputs, ho⟩ := Option.ne_none_iff_exists'.1 hca
  constructor
  · exact (he'.cached ((h.cached ha).trans ho)).trans (he.cached ho).symm
  · exact ((he'.nested hca').trans (h.nested ha)).trans (he.nested hca).symm

/-- What lies behind outputs, these included. -/
def Feeds (nl : Netlist Gate) (outputs : List NodeId) (a : NodeId) : Prop :=
  ∃ o ∈ outputs, ReflTransGen nl.Reads o a

/-- A gate behind outputs is cached when all the outputs show a source that is. -/
theorem Feeds.cached {outputs : List NodeId} {a : NodeId} (h : nl.Feeds outputs a)
    (hw : nl.WellFormed) (hg : nl.IsGate a) (hs : ctx.Settled (nl.within before))
    (hout : ∀ o ∈ outputs, nl.role? o = some .output)
    (hc : ∀ o ∈ outputs, ∀ source, nl.source? o 0 = some source →
      ctx.cached.get? source.node ≠ none) : ctx.cached.get? a ≠ none := by
  obtain ⟨o, ho, hp⟩ := h
  rcases ReflTransGen.cases_head hp with rfl | ⟨b, hr, hp⟩
  · exact absurd (hout o ho) hg.role?_ne_output
  · obtain ⟨link, hl, rfl⟩ := hr
    have hsource : nl.source? o 0 = some link := by
      have hlength := hw.slotCount (hout o ho)
      rw [hw.source?_eq]
      obtain ⟨k, hk⟩ := List.mem_iff_getElem?.1 hl
      obtain rfl : k = 0 := by
        have := (List.getElem?_eq_some_iff.1 hk).1
        rw [hlength, Role.slotCount] at this
        omega
      rw [hk]
      rfl
    exact hs.cached_of_reflTransGen (hc o ho link hsource) hp

/-- Driving pins and overriding them gives them the same values. -/
theorem tracks_driven (hw : nl.WellFormed) {row : Bits} (hrow : row.length = nl.inputs.length) :
    nl.Tracks (nl'.driveEach nl.inputs row) part id (Context.withPins (nl.inputs.zip row)) ∅ := by
  apply tracks_fresh
  intro a pin pin' _ hp hp'
  obtain ⟨k, hk⟩ := List.mem_iff_getElem?.1 ((hw.mem_inputs a).2 (role?_of_inputPin? hp))
  have hstate := state_driveEach hw.nodup_inputs hrow hk hp'
  have hvalue := Context.pinValue_withPins hw.nodup_inputs hrow hk pin
  exact Option.some.inj (hstate.symm.trans hvalue)

/-- A tick of a simulator that is driven shows what an evaluation with overridden inputs shows. The
two have the same cached behind the outputs afterwards; what the simulator evaluates besides has no
effect on it. -/
theorem driven_tick (hw : nl.WellFormed) {sim : Simulator} (ha : Alike nl sim.netlist)
    (hb : nl.SameBefore (nl.Feeds nl.outputs) id before sim.before) {row : Bits}
    (hrow : row.length = nl.inputs.length) :
    let sim' := (sim.driveEach nl.inputs row).tick.value
    let tick := (nl.within before).readPins (Context.withPins (nl.inputs.zip row)) nl.outputs
    Alike nl sim'.netlist ∧ nl.outputs.map sim'.readPin = tick.value ∧
      nl.SameBefore (nl.Feeds nl.outputs) id (some tick.context) sim'.before := by
  have had : Alike nl (sim.netlist.driveEach nl.inputs row) := ha.trans (alike_driveEach _ _ _)
  have hw' := hw.alike had
  have he : nl.Embeds (sim.netlist.driveEach nl.inputs row) (nl.Feeds nl.outputs) id :=
    had.embeds fun ⟨o, ho, hp⟩ hr => ⟨o, ho, hp.tail hr⟩
  have hstart : nl.Tracks (sim.netlist.driveEach nl.inputs row) (nl.Feeds nl.outputs) id
      (Context.withPins (nl.inputs.zip row)) ∅ := tracks_driven hw hrow
  have hs : (Context.withPins (nl.inputs.zip row)).Settled (nl.within before) :=
    Context.settled_withPins _ _
  have hs' : (∅ : Context).Settled ((sim.netlist.driveEach nl.inputs row).within sim.before) :=
    Context.settled_fresh _ ∅
  have houtputs : ∀ o ∈ nl.outputs, nl.Feeds nl.outputs o := fun o ho => ⟨o, ho, .refl⟩
  obtain ⟨hvalue, htracks⟩ := readPins_rename he hw hw' hb hstart hs hs' houtputs
  obtain ⟨hs, _, _, hcached⟩ := readPins_settled (s := nl.within before) hw hs nl.outputs
  obtain ⟨_, _, hshown, hsource⟩ := readPins_settled
    (s := (sim.netlist.driveEach nl.inputs row).within sim.before) hw' hs' nl.outputs
  have hticked := (sim.driveEach nl.inputs row).ticked hw'
  have hext := hticked.extends_outputs
  rw [Simulator.netlist_driveEach, Simulator.before_driveEach, had.outputs] at hext
  rw [List.map_id] at hvalue htracks
  refine ⟨hticked.netlist ▸ had, ?_, ?_⟩
  · rw [← hvalue, hshown]
    apply List.map_congr_left
    intro o ho
    rw [Simulator.readPin_eq_shown, hticked.netlist]
    exact hext.shown fun source h => hsource o ho source h
  · rw [hticked.before]
    apply htracks.sameBefore (.refl _) hext
    intro a ha hg
    exact ha.cached hw hg hs (fun o ho => (hw.mem_outputs o).1 ho) hcached

theorem trace_simulator (hw : nl.WellFormed) {sim : Simulator} (ha : Alike nl sim.netlist)
    (hb : nl.SameBefore (nl.Feeds nl.outputs) id before sim.before) {rows : List Bits}
    (hrows : ∀ row ∈ rows, row.length = nl.inputs.length) :
    sim.trace nl.inputs nl.outputs rows = nl.trace nl.inputs nl.outputs before rows := by
  induction rows generalizing sim before with
  | nil => rfl
  | cons row rows ih =>
    obtain ⟨hrow, hrows⟩ := List.forall_mem_cons.1 hrows
    obtain ⟨halike, hshown, hnext⟩ := driven_tick hw ha hb hrow
    rw [Simulator.trace, Netlist.trace, hshown, ih halike hnext hrows]

/-- A simulator that has not ticked shows what evaluations with overridden inputs show. -/
theorem trace_ofNetlist (hw : nl.WellFormed) {rows : List Bits}
    (hrows : ∀ row ∈ rows, row.length = nl.inputs.length) :
    (Simulator.ofNetlist nl).trace nl.inputs nl.outputs rows =
      nl.trace nl.inputs nl.outputs none rows :=
  trace_simulator hw (.refl nl) (fun _ _ _ => ⟨rfl, rfl⟩) hrows

end Netlist

end Breadboard
