import Mathlib
import Breadboard.Proofs.Simulation.Reads
import Breadboard.Waveform

namespace Breadboard

open Netlist

namespace Waveform

section codes

theorem digit_injective {i j : Nat} (h : Char.ofNat (33 + i % 94) = Char.ofNat (33 + j % 94)) :
    i % 94 = j % 94 := by
  have hdigit (k : Nat) : (Char.ofNat (33 + k % 94)).toNat = 33 + k % 94 := by
    have hlt := Nat.mod_lt k (by decide : 0 < 94)
    have hvalid : (33 + k % 94).isValidChar := .inl (by omega)
    rw [Char.toNat_ofNat, if_pos hvalid]
  have heq := congrArg Char.toNat h
  rw [hdigit, hdigit] at heq
  exact Nat.add_left_cancel heq

theorem code_ne_nil (i : Nat) : code i ≠ [] := by
  rw [code]
  split <;> exact List.cons_ne_nil _ _

/-- No two wires have the same code. -/
theorem code_injective {i j : Nat} (h : code i = code j) : i = j := by
  induction i using Nat.strongRecOn generalizing j with
  | ind i ih =>
    rw [code, code.eq_1 j] at h
    split at h <;> split at h <;> obtain ⟨hdigit, hrest⟩ := List.cons.inj h
    · have hmod := digit_injective hdigit
      omega
    · exact absurd hrest.symm (code_ne_nil _)
    · exact absurd hrest (code_ne_nil _)
    · have hmod := digit_injective hdigit
      have hdiv := ih (i / 94 - 1) (by omega) hrest
      omega

end codes

/-- The code that a line of the header declares. -/
def Line.declared? : Line → Option (List Char)
  | .wire code _ => some code
  | _ => none

/-- What a line of a dump says: a time, or a new value under a code. Lines of the header say
nothing. -/
def Line.read? (text : String) : Option Line :=
  match text.toList with
  | '#' :: units => (String.ofList units).toNat?.map .time
  | '0' :: code => some (.change code false)
  | '1' :: code => some (.change code true)
  | _ => none

/-- A new value at a time. -/
structure Change where
  time : Nat
  code : List Char
  value : Bool

/-- The times that lines give. -/
def times (lines : List Line) : List Nat :=
  lines.filterMap fun line => match line with
    | .time units => some units
    | _ => none

/-- The changes that lines make, the first ones at the time `now`. -/
def changes (now : Nat) : List Line → List Change
  | [] => []
  | .time units :: lines => changes units lines
  | .change code value :: lines => ⟨now, code, value⟩ :: changes now lines
  | _ :: lines => changes now lines

/-- The value under a code at a time: that of the last change until then. -/
def shownAt (cs : List Change) (code : List Char) (time : Nat) : Option Bool :=
  (cs.reverse.find? fun c => c.code == code && c.time ≤ time).map (·.value)

section reading

variable {w : Waveform} {sim : Simulator} {cs cs' : List Change} {code : List Char} {now time : Nat}

theorem read?_time (units : Nat) : Line.read? (Line.time units).text = some (.time units) := by
  have htext : (Line.time units).text.toList = '#' :: (toString units).toList :=
    String.toList_append
  have hunits : (String.ofList (toString units).toList).toNat? = some units := by
    rw [String.ofList_toList]
    exact Nat.toNat?_repr units
  rw [Line.read?, htext]
  change (String.ofList (toString units).toList).toNat?.map _ = _
  rw [hunits, Option.map_some]

theorem read?_change (code : List Char) (value : Bool) :
    Line.read? (Line.change code value).text = some (.change code value) := by
  have htext : (Line.change code value).text.toList = (if value then '1' else '0') :: code := by
    rw [Line.text, String.toList_append, String.toList_ofList]
    cases value <;> rfl
  rw [Line.read?, htext]
  cases value <;> rfl

theorem shownAt_append (cs cs' : List Change) (code : List Char) (time : Nat) :
    shownAt (cs ++ cs') code time = (shownAt cs' code time).or (shownAt cs code time) := by
  unfold shownAt
  rw [List.reverse_append, List.find?_append, Option.map_or]

theorem shownAt_eq_none (h : ∀ c ∈ cs, c.code = code → time < c.time) :
    shownAt cs code time = none := by
  unfold shownAt
  rw [Option.map_eq_none_iff, List.find?_eq_none]
  intro c hc
  have hlt := h c (List.mem_reverse.1 hc)
  simp only [Bool.and_eq_true, beq_iff_eq, decide_eq_true_eq, not_and, Nat.not_le]
  exact hlt

/-- The changes of one period of the clock. -/
def period (w : Waveform) (time : Nat) (sim : Simulator) : List Change :=
  w.signals.map (fun (code, signal) => ⟨time, code, value sim signal⟩) ++
    [⟨time, w.clock, true⟩, ⟨time + 5, w.clock, false⟩]

theorem changes_record (w : Waveform) (sim : Simulator) (lines : List Line) :
    changes w.time ((w.record sim).1 ++ lines) =
      w.period w.time sim ++ changes (w.time + 10) lines := by
  have hsignals (signals : List (List Char × Signal)) (rest : List Line) :
      changes w.time (signals.map (fun (code, signal) => .change code (value sim signal)) ++ rest) =
        signals.map (fun (code, signal) => ⟨w.time, code, value sim signal⟩) ++
          changes w.time rest := by
    induction signals with
    | nil => rfl
    | cons s signals ih => exact congrArg (List.cons _) ih
  rw [record, List.append_assoc, hsignals, period, List.append_assoc]
  rfl

theorem times_record (w : Waveform) (sim : Simulator) (lines : List Line) :
    times ((w.record sim).1 ++ lines) = (w.time + 5) :: (w.time + 10) :: times lines := by
  have hsignals (signals : List (List Char × Signal)) :
      times (signals.map fun (code, signal) => .change code (value sim signal)) = [] := by
    induction signals with
    | nil => rfl
    | cons s signals ih => exact ih
  have happend (lines lines' : List Line) : times (lines ++ lines') = times lines ++ times lines' :=
    List.filterMap_append
  rw [record, List.append_assoc, happend, hsignals]
  rfl

/-- In its period a wire shows the value that was recorded. -/
theorem shownAt_period_signal (hn : (w.signals.map (·.1) ++ [w.clock]).Nodup) {signal : Signal}
    (hs : (code, signal) ∈ w.signals) (hle : now ≤ time) :
    shownAt (w.period now sim) code time = some (value sim signal) := by
  obtain ⟨hcodes, _, hdisjoint⟩ := List.nodup_append'.1 hn
  have hclock : w.clock ≠ code := fun he =>
    hdisjoint (List.mem_map.2 ⟨_, hs, rfl⟩) (List.mem_singleton.2 he.symm)
  have hrest : shownAt [⟨now, w.clock, true⟩, ⟨now + 5, w.clock, false⟩] code time = none := by
    refine shownAt_eq_none fun c hc he => absurd he ?_
    rcases List.mem_pair.1 hc with rfl | rfl <;> exact hclock
  rw [period, shownAt_append, hrest, Option.none_or]
  generalize w.signals = signals at hcodes hs
  clear hn hdisjoint hclock hrest
  induction signals with
  | nil => cases hs
  | cons s signals ih =>
    obtain ⟨hfresh, hcodes⟩ := List.nodup_cons.1 hcodes
    rw [List.map_cons, ← List.singleton_append, shownAt_append]
    rcases List.mem_cons.1 hs with rfl | hs
    · have hother : shownAt (signals.map fun (code, signal) => ⟨now, code, value sim signal⟩)
          code time = none := by
        refine shownAt_eq_none fun c hc he => absurd ?_ hfresh
        obtain ⟨s, hs, rfl⟩ := List.mem_map.1 hc
        exact List.mem_map.2 ⟨s, hs, he⟩
      rw [hother, Option.none_or]
      simp [shownAt, hle]
    · rw [ih hcodes hs, Option.some_or]

/-- The clock is high in the first half of a period and low in the second. -/
theorem shownAt_period_clock (hle : now ≤ time) :
    shownAt (w.period now sim) w.clock time = some (decide (time < now + 5)) := by
  rw [period, shownAt_append]
  by_cases hlt : time < now + 5
  · simp [shownAt, hle, hlt, Nat.not_le.2 hlt]
  · simp [shownAt, hlt, Nat.not_lt.1 hlt]

end reading

end Waveform

/-- Pins that are driven before a tick, and pins that are driven after it and before it is
recorded. -/
structure Round where
  drives : List (NodeId × Bool) := []
  late : List (NodeId × Bool) := []

namespace Simulator

def driveAll (sim : Simulator) (drives : List (NodeId × Bool)) : Simulator :=
  sim.after ((drives.map fun (pin, value) => Edit.drive pin value).map .edit)

def afterRound (sim : Simulator) (round : Round) : Simulator :=
  (sim.driveAll round.drives).tick.value.driveAll round.late

def afterRounds (sim : Simulator) (rounds : List Round) : Simulator := rounds.foldl afterRound sim

end Simulator

namespace Waveform

/-- The lines that are recorded in some rounds, with the simulator as every round leaves it. -/
def recordAll (w : Waveform) (sim : Simulator) : List Round → List Line
  | [] => []
  | round :: rounds =>
    let sim := sim.afterRound round
    let (lines, w) := w.record sim
    lines ++ recordAll w sim rounds

/-- What the text of a dump says. -/
def heard (lines : List Line) : List Line := (lines.map Line.text).filterMap Line.read?

section recording

variable {w : Waveform} {sim : Simulator} {rounds : List Round} {code : List Char} {time : Nat}

theorem heard_append (lines lines' : List Line) :
    heard (lines ++ lines') = heard lines ++ heard lines' := by
  unfold heard
  rw [List.map_append, List.filterMap_append]

theorem heard_record (w : Waveform) (sim : Simulator) :
    heard (w.record sim).1 = (w.record sim).1 := by
  have hsignals (signals : List (List Char × Signal)) :
      heard (signals.map fun (code, signal) => .change code (value sim signal)) =
        signals.map fun (code, signal) => .change code (value sim signal) := by
    induction signals with
    | nil => rfl
    | cons s signals ih =>
      exact (List.filterMap_cons_some (read?_change ..)).trans (congrArg (List.cons _) ih)
  rw [record, heard_append, hsignals]
  simp [heard, read?_change, read?_time]

theorem heard_recordAll (w : Waveform) (sim : Simulator) (rounds : List Round) :
    heard (w.recordAll sim rounds) = w.recordAll sim rounds := by
  induction rounds generalizing w sim with
  | nil => rfl
  | cons round rounds ih =>
    exact (heard_append _ _).trans (congrArg₂ _ (heard_record ..) (ih _ _))

theorem time_le_of_mem_changes (w : Waveform) (sim : Simulator) (rounds : List Round) :
    ∀ c ∈ changes w.time (w.recordAll sim rounds), w.time ≤ c.time := by
  induction rounds generalizing w sim with
  | nil => exact fun c hc => nomatch hc
  | cons round rounds ih =>
    intro c hc
    rw [recordAll, changes_record, List.mem_append, period] at hc
    rcases hc with hc | hc
    · rcases List.mem_append.1 hc with hc | hc
      · obtain ⟨s, _, rfl⟩ := List.mem_map.1 hc
        exact Nat.le_refl _
      · rcases List.mem_pair.1 hc with rfl | rfl
        · exact Nat.le_refl _
        · exact Nat.le_add_right _ _
    · exact Nat.le_trans (Nat.le_add_right _ _) (ih { w with time := w.time + 10 } _ c hc)

/-- A reader sees in every period what was recorded in it, by induction on the rounds: what is
recorded earlier has been changed, and what is recorded later has not happened yet. -/
theorem shownAt_recordAll {k : Nat} (hk : k < rounds.length) (hlt : time < w.time + 10 * k + 10)
    {value : Bool}
    (hv : shownAt (w.period (w.time + 10 * k) (sim.afterRounds (rounds.take (k + 1)))) code time =
      some value) :
    shownAt (changes w.time (w.recordAll sim rounds)) code time = some value := by
  induction rounds generalizing w sim k with
  | nil => cases hk
  | cons round rounds ih =>
    rw [recordAll, changes_record, shownAt_append]
    cases k with
    | zero =>
      have hlater := time_le_of_mem_changes { w with time := w.time + 10 } (sim.afterRound round)
        rounds
      have hnone : shownAt (changes (w.time + 10) (recordAll { w with time := w.time + 10 }
          (sim.afterRound round) rounds)) code time = none :=
        shownAt_eq_none fun c hc _ => Nat.lt_of_lt_of_le hlt (hlater c hc)
      exact (congrArg (Option.or · _) hnone).trans hv
    | succ k =>
      have htime : w.time + 10 * (k + 1) = w.time + 10 + 10 * k := by omega
      rw [htime] at hlt hv
      have hshown := @ih { w with time := w.time + 10 } (sim.afterRound round) k
        (Nat.lt_of_succ_lt_succ hk) hlt hv
      exact congrArg (Option.or · _) hshown

theorem isChain_times (w : Waveform) (sim : Simulator) (rounds : List Round) :
    (w.time :: times (w.recordAll sim rounds)).IsChain (· < ·) := by
  induction rounds generalizing w sim with
  | nil => exact .singleton _
  | cons round rounds ih =>
    rw [recordAll, times_record]
    refine .cons_cons (by omega) (.cons_cons (by omega) ?_)
    exact ih { w with time := w.time + 10 } _

end recording

section starting

variable {nl : Netlist Gate}

/-- The boundary pins are live, so that each of them has a name. -/
theorem boundary_eq (hw : nl.WellFormed) :
    let named (signal : NodeId → Signal) (id : NodeId) :=
      (signal id, ((nl.node? id).map (·.name)).getD "")
    boundary nl = nl.inputs.map (named .input) ++ nl.outputs.map (named .output) := by
  have hnamed (signal : NodeId → Signal) {ids : List NodeId}
      (hlive : ∀ id ∈ ids, (nl.role? id).isSome) :
      (ids.filterMap fun id => (nl.node? id).map fun node => (signal id, node.name)) =
        ids.map fun id => (signal id, ((nl.node? id).map (·.name)).getD "") := by
    rw [← List.filterMap_eq_map]
    refine List.filterMap_congr fun id hid => ?_
    obtain ⟨node, hn⟩ := isLive_iff.1 ((isLive_eq_isSome_role? nl id).trans (hlive id hid))
    rw [Function.comp_apply, hn]
    rfl
  have hin : ∀ id ∈ nl.inputs, (nl.role? id).isSome := fun id hid => by
    rw [(hw.mem_inputs id).1 hid]
    rfl
  have hout : ∀ id ∈ nl.outputs, (nl.role? id).isSome := fun id hid => by
    rw [(hw.mem_outputs id).1 hid]
    rfl
  exact congrArg₂ (· ++ ·) (hnamed .input hin) (hnamed .output hout)

theorem boundary_fst (hw : nl.WellFormed) :
    (boundary nl).map (·.1) = nl.inputs.map .input ++ nl.outputs.map .output := by
  rw [boundary_eq hw, List.map_append, List.map_map, List.map_map]
  rfl

theorem start_signals (scope : String) (nl : Netlist Gate) :
    (start scope nl).2.signals.map (·.2) = (boundary nl).map (·.1) := by
  simp only [start, List.map_map]
  conv_rhs => rw [← List.zipIdx_map_fst 0 (boundary nl), List.map_map]
  rfl

theorem start_codes (scope : String) (nl : Netlist Gate) :
    (start scope nl).2.signals.map (·.1) ++ [(start scope nl).2.clock] =
      (List.range ((boundary nl).length + 1)).map code := by
  have hcodes : (start scope nl).2.signals.map (·.1) =
      (List.range (boundary nl).length).map code := by
    simp only [start, List.map_map]
    rw [List.range_eq_range', ← List.zipIdx_map_snd 0 (boundary nl), List.map_map]
    rfl
  rw [hcodes, List.range_succ, List.map_append]
  simp [start]

theorem nodup_start_codes (scope : String) (nl : Netlist Gate) :
    ((start scope nl).2.signals.map (·.1) ++ [(start scope nl).2.clock]).Nodup := by
  rw [start_codes]
  exact List.nodup_range.map fun _ _ => code_injective

theorem wires_declared (pins : List (List Char × Signal × String)) :
    (pins.map fun (code, _, name) => Line.wire code name).filterMap Line.declared? =
      (pins.map fun (code, signal, _) => (code, signal)).map (·.1) := by
  induction pins with
  | nil => rfl
  | cons pin pins ih => exact congrArg (List.cons _) ih

theorem start_declared (scope : String) (nl : Netlist Gate) :
    (start scope nl).1.filterMap Line.declared? =
      (start scope nl).2.signals.map (·.1) ++ [(start scope nl).2.clock] := by
  rw [start, List.filterMap_append, List.filterMap_append, wires_declared]
  rfl

theorem read?_declaration {text : String} {chars : List Char} (h : text.toList = '$' :: chars) :
    Line.read? text = none := by
  rw [Line.read?, h]
  rfl

theorem read?_wire (code : List Char) (name : String) :
    Line.read? (Line.wire code name).text = none := by
  simp only [Line.text, String.append_assoc]
  exact read?_declaration String.toList_append

theorem heard_wires (pins : List (List Char × Signal × String)) :
    heard (pins.map fun (code, _, name) => Line.wire code name) = [] := by
  induction pins with
  | nil => rfl
  | cons pin pins ih => exact (List.filterMap_cons_none (read?_wire ..)).trans ih

theorem heard_start (scope : String) (nl : Netlist Gate) :
    heard (start scope nl).1 = [.time 0] := by
  have hscope : Line.read? (Line.scope scope).text = none := by
    simp only [Line.text, String.append_assoc]
    exact read?_declaration String.toList_append
  have hfirst : heard [.timescale, .scope scope] = [] :=
    (List.filterMap_cons_none (read?_declaration rfl)).trans (List.filterMap_cons_none hscope)
  have hlast (code : List Char) :
      heard [.wire code "clock", .upscope, .endDefinitions, .time 0] = [.time 0] := by
    refine (List.filterMap_cons_none (read?_wire ..)).trans ?_
    refine (List.filterMap_cons_none (read?_declaration rfl)).trans ?_
    refine (List.filterMap_cons_none (read?_declaration rfl)).trans ?_
    exact List.filterMap_cons_some (read?_time 0)
  rw [start, heard_append, heard_append, hfirst, heard_wires, hlast]
  rfl

end starting

end Waveform

theorem Netlist.Alike.source? {nl nl' : Netlist Gate} (h : Alike nl nl') (dest : NodeId)
    (slot : Nat) : nl'.source? dest slot = nl.source? dest slot := by
  unfold Netlist.source?
  simp only [h.slots, isLive_eq_isSome_role?, h.role]

namespace Simulator

open Surroundings

variable {sim : Simulator}

@[simp] theorem current_driveAll (sim : Simulator) (drives : List (NodeId × Bool)) :
    (sim.driveAll drives).current = sim.current := current_after_edits ..

theorem alike_driveAll (sim : Simulator) (drives : List (NodeId × Bool)) :
    Alike sim.netlist (sim.driveAll drives).netlist := by
  induction drives generalizing sim with
  | nil => exact .refl _
  | cons d drives ih =>
    exact (alike_drive sim.netlist d.1 d.2).trans (ih (sim.apply (.edit (.drive d.1 d.2))))

theorem Sound.driveAll (h : sim.Sound) (drives : List (NodeId × Bool)) :
    (sim.driveAll drives).Sound := h.after _

theorem Sound.afterRounds (h : sim.Sound) (rounds : List Round) :
    (sim.afterRounds rounds).Sound := by
  induction rounds generalizing sim with
  | nil => exact h
  | cons round rounds ih => exact ih (((h.driveAll _).apply .tick).driveAll _)

theorem alike_afterRounds (sim : Simulator) (rounds : List Round) :
    Alike sim.netlist (sim.afterRounds rounds).netlist := by
  induction rounds generalizing sim with
  | nil => exact .refl _
  | cons round rounds ih =>
    have hround : Alike sim.netlist (sim.afterRound round).netlist :=
      (sim.alike_driveAll round.drives).trans
        ((sim.driveAll round.drives).tick.value.alike_driveAll round.late)
    exact hround.trans (ih _)

/-- An input is cached with the state that it has when the simulator ticks. -/
theorem cached_input (hw : sim.netlist.WellFormed) {pin : NodeId}
    (hr : sim.netlist.role? pin = some .input) :
    ∃ p, sim.netlist.inputPin? pin = some p ∧
      sim.tick.value.current.cached.get? pin = some [p.state] := by
  have ht := sim.ticked hw
  obtain ⟨p, hp⟩ := Option.isSome_iff_exists.1 (inputPin?_isSome_iff.2 hr)
  obtain ⟨outputs, ho⟩ := Option.ne_none_iff_exists'.1 (ht.cached pin (.inr hr))
  have hstate : outputs = [pinValue sim.tick.value.current pin p] := ht.settled.inv.pins hp ho
  rw [pinValue, ht.pins] at hstate
  exact ⟨p, hp, ho.trans (congrArg some hstate)⟩

/-- Pins that are driven late change nothing that is recorded. -/
theorem value_driveAll (sim : Simulator) (late : List (NodeId × Bool)) (signal : Signal) :
    Waveform.value (sim.driveAll late) signal = Waveform.value sim signal := by
  cases signal with
  | input pin => rw [Waveform.value, Waveform.value, readOutput, readOutput, current_driveAll]
  | output pin =>
    have hsource := (sim.alike_driveAll late).source? pin 0
    rw [Waveform.value, Waveform.value, readPin_eq_shown, readPin_eq_shown, Context.shown,
      Context.shown, current_driveAll, hsource]

end Simulator

namespace Netlist

/-- What a waveform dump of a simulator says, when it is read line by line. Every boundary pin and
the clock have a code of their own, time only goes forward, and in the period of every round the
inputs show what the tick was computed from, whatever was driven late, the outputs show what they
showed after the tick, and the clock is high in the first half and low in the second. -/
theorem Reachable.waveform_replays {nl : Netlist Gate} (hr : nl.Reachable) (events : List Event)
    (scope : String) (rounds : List Round) :
    let sim := (Simulator.ofNetlist nl).after events
    let header := (Waveform.start scope sim.netlist).1
    let w := (Waveform.start scope sim.netlist).2
    let lines := Waveform.heard (header ++ w.recordAll sim rounds)
    w.signals.map (·.2) = sim.netlist.inputs.map .input ++ sim.netlist.outputs.map .output ∧
    header.filterMap Waveform.Line.declared? = w.signals.map (·.1) ++ [w.clock] ∧
    (w.signals.map (·.1) ++ [w.clock]).Nodup ∧
    (Waveform.times lines).Pairwise (· < ·) ∧
    ∀ k (hk : k < rounds.length) time, 10 * k ≤ time → time < 10 * k + 10 →
      let driven := (sim.afterRounds (rounds.take k)).driveAll rounds[k].drives
      let shown (code : List Char) := Waveform.shownAt (Waveform.changes 0 lines) code time
      (∀ code pin, (code, .input pin) ∈ w.signals →
        ∃ p, driven.netlist.inputPin? pin = some p ∧
          driven.tick.value.current.cached.get? pin = some [p.state] ∧
          shown code = some p.state) ∧
      (∀ code pin, (code, .output pin) ∈ w.signals →
        shown code = some (driven.tick.value.readPin pin)) ∧
      shown w.clock = some (decide (time < 10 * k + 5)) := by
  intro sim header w lines
  have hsound : sim.Sound := (Simulator.sound_ofNetlist hr).after events
  have hsignals : w.signals.map (·.2) =
      sim.netlist.inputs.map .input ++ sim.netlist.outputs.map .output :=
    (Waveform.start_signals scope _).trans (Waveform.boundary_fst hsound.reachable.wellFormed)
  have hnodup := Waveform.nodup_start_codes scope sim.netlist
  have hlines : lines = .time 0 :: w.recordAll sim rounds :=
    (Waveform.heard_append _ _).trans
      (congrArg₂ (· ++ ·) (Waveform.heard_start ..) (Waveform.heard_recordAll ..))
  refine ⟨hsignals, Waveform.start_declared scope _, hnodup, ?_, ?_⟩
  · rw [hlines]
    exact List.isChain_iff_pairwise.1 (Waveform.isChain_times w sim rounds)
  · intro k hk time hle hlt driven shown
    have hdriven : driven.Sound := (hsound.afterRounds _).driveAll _
    have halike : Alike sim.netlist driven.netlist :=
      (sim.alike_afterRounds _).trans (Simulator.alike_driveAll _ _)
    have hafter : sim.afterRounds (rounds.take (k + 1)) =
        driven.tick.value.driveAll rounds[k].late := by
      rw [List.take_succ_eq_append_getElem hk, Simulator.afterRounds, List.foldl_append]
      rfl
    have hshown {code : List Char} {value : Bool}
        (hv : Waveform.shownAt (w.period (10 * k) (sim.afterRounds (rounds.take (k + 1)))) code
          time = some value) : shown code = some value := by
      have htime : w.time + 10 * k = 10 * k := Nat.zero_add _
      rw [← htime] at hlt hv
      refine (congrArg (Waveform.shownAt · code time) ?_).trans
        (Waveform.shownAt_recordAll (w := w) hk hlt hv)
      rw [hlines]
      rfl
    have hrecorded {code : List Char} {signal : Signal} (hs : (code, signal) ∈ w.signals) :
        shown code = some (Waveform.value driven.tick.value signal) := by
      rw [← Simulator.value_driveAll driven.tick.value rounds[k].late, ← hafter]
      exact hshown (Waveform.shownAt_period_signal hnodup hs hle)
    refine ⟨fun code pin hs => ?_, fun code pin hs => hrecorded hs,
      hshown (Waveform.shownAt_period_clock hle)⟩
    have hin : pin ∈ sim.netlist.inputs := by
      have hmem := List.mem_map_of_mem (f := (·.2)) hs
      rw [hsignals] at hmem
      simpa using hmem
    have hrole : driven.netlist.role? pin = some .input :=
      (halike.role pin).trans ((hsound.reachable.wellFormed.mem_inputs pin).1 hin)
    obtain ⟨p, hp, hcached⟩ := Simulator.cached_input hdriven.reachable.wellFormed hrole
    refine ⟨p, hp, hcached, (hrecorded hs).trans (congrArg some ?_)⟩
    rw [Waveform.value, Simulator.readOutput, Context.output?, hcached]
    rfl

/-- The input of a wire that falls after the tick is still read as high, and so is the output. -/
theorem waveform_replays_wire :
    let sim := Simulator.ofNetlist wire
    let header := (Waveform.start "TOP" sim.netlist).1
    let w := (Waveform.start "TOP" sim.netlist).2
    let lines := Waveform.heard (header ++ w.recordAll sim [⟨[(0, true)], [(0, false)]⟩])
    let shown (code : List Char) := Waveform.shownAt (Waveform.changes 0 lines) code 7
    wire.Reachable ∧ shown (Waveform.code 0) = some true ∧ shown (Waveform.code 1) = some true ∧
      shown (Waveform.code 2) = some false := by
  intro sim header w lines shown
  obtain ⟨_, _, _, _, hperiod⟩ := Reachable.waveform_replays reachable_wire [] "TOP"
    [⟨[(0, true)], [(0, false)]⟩]
  obtain ⟨hinput, houtput, hclock⟩ := hperiod 0 Nat.zero_lt_one 7 (by decide) (by decide)
  have hstate : ((sim.driveAll [(0, true)]).netlist.inputPin? 0).map (·.state) = some true := by
    decide +kernel
  have hread : (sim.driveAll [(0, true)]).tick.value.readPin 1 = true := by decide +kernel
  obtain ⟨p, hp, _, hshown⟩ := hinput (Waveform.code 0) 0 (.head _)
  have hp' : (sim.driveAll [(0, true)]).netlist.inputPin? 0 = some p := hp
  rw [hp'] at hstate
  refine ⟨reachable_wire, hshown.trans hstate, ?_, hclock⟩
  exact (houtput (Waveform.code 1) 1 (.tail _ (.head _))).trans (congrArg some hread)

end Netlist

end Breadboard
