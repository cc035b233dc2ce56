import Breadboard.Proofs.Netlist.Refusals
import Breadboard.Proofs.Simulation.FirstTick
import Breadboard.Proofs.Simulation.Waveform

namespace Breadboard

namespace CommandLine

/-- The text that gives a value to a pin. -/
def driveText (d : String × Bool) : String := d.1 ++ "=" ++ if d.2 then "1" else "0"

variable {cs rest : List Char}

theorem splitEquals_append (h : '=' ∉ cs) (rest : List Char) :
    splitEquals (cs ++ '=' :: rest) = some (cs, rest) := by
  induction cs with
  | nil => rfl
  | cons c cs ih =>
    obtain ⟨hc, hcs⟩ := List.ne_and_not_mem_of_not_mem_cons h
    rw [List.cons_append, splitEquals, if_neg hc.symm, ih hcs, Option.map_some]

/-- What follows the first equals sign belongs to the second part, other equals signs included. -/
theorem splitEquals_append_of_mem (h : '=' ∈ cs) (rest : List Char) :
    ∃ name value, splitEquals (cs ++ rest) = some (name, value ++ rest) := by
  induction cs with
  | nil => cases h
  | cons c cs ih =>
    rw [List.cons_append, splitEquals]
    split
    · exact ⟨[], cs, rfl⟩
    · next hc =>
      obtain ⟨name, value, hsplit⟩ := ih ((List.mem_cons.1 h).resolve_left (Ne.symm hc))
      exact ⟨c :: name, value, by rw [hsplit, Option.map_some]⟩

theorem toList_driveText (d : String × Bool) :
    (driveText d).toList = d.1.toList ++ '=' :: [if d.2 then '1' else '0'] := by
  obtain ⟨name, value⟩ := d
  cases value <;> simp [driveText]

/-- A drive is read back from its text, unless an equals sign stands in the name. -/
theorem drive?_driveText (d : String × Bool) :
    drive? (driveText d) = if '=' ∈ d.1.toList then none else some d := by
  obtain ⟨name, value⟩ := d
  rw [drive?, toList_driveText]
  by_cases h : '=' ∈ name.toList
  · obtain ⟨first, second, hsplit⟩ :=
      splitEquals_append_of_mem h ['=', if value then '1' else '0']
    have hlong (digit : Char) : second ++ ['=', if value then '1' else '0'] ≠ [digit] := by
      intro he
      have hlength := congrArg List.length he
      simp at hlength
    rw [hsplit, if_pos h]
    split
    · next he => exact absurd (Prod.mk.inj (Option.some.inj he)).2 (hlong '0')
    · next he => exact absurd (Prod.mk.inj (Option.some.inj he)).2 (hlong '1')
    · rfl
  · rw [splitEquals_append h, if_neg h]
    cases value <;> simp

theorem mapM_drive?_eq_some {named : List (String × Bool)}
    (h : ∀ d ∈ named, '=' ∉ d.1.toList) : (named.map driveText).mapM drive? = some named := by
  induction named with
  | nil => rfl
  | cons d named ih =>
    obtain ⟨hd, hnamed⟩ := List.forall_mem_cons.1 h
    rw [List.map_cons, List.mapM_cons, drive?_driveText, if_neg hd, ih hnamed]
    rfl

theorem mapM_drive?_eq_none {named : List (String × Bool)}
    (h : ∃ d ∈ named, '=' ∈ d.1.toList) : (named.map driveText).mapM drive? = none := by
  induction named with
  | nil => exact absurd h (by simp)
  | cons d named ih =>
    rw [List.map_cons, List.mapM_cons, drive?_driveText]
    split_ifs with hd
    · rfl
    · have hnamed : ∃ d ∈ named, '=' ∈ d.1.toList := by simpa [hd] using h
      rw [ih hnamed]
      rfl

/-- An option with its value in the same argument. -/
theorem readArguments_cons {name value : List Char} (h : '=' ∉ name) (d : Draft)
    (args : List String) :
    readArguments d (String.ofList (name ++ '=' :: value) :: args) =
      (d.setOption (String.ofList name) (String.ofList value)).bind (readArguments · args) := by
  have hsplit := splitEquals_append h value
  have hplain : ∀ arg ∈ "-v" :: "--" :: valueOptions, splitEquals arg.toList = none := by decide
  have hne : ∀ arg ∈ "-v" :: "--" :: valueOptions, String.ofList (name ++ '=' :: value) ≠ arg := by
    rintro arg harg rfl
    have hnone := hplain _ harg
    rw [String.toList_ofList, hsplit] at hnone
    cases hnone
  have hvalue : String.ofList (name ++ '=' :: value) ∉ valueOptions :=
    fun hm => hne _ (.tail _ (.tail _ hm)) rfl
  rw [readArguments.eq_def]
  dsimp only
  rw [if_neg (hne "-v" (.head _)), if_neg (hne "--" (.tail _ (.head _))),
    if_neg hvalue, String.toList_ofList, hsplit]

/-- The drives among the arguments are collected in order. -/
theorem readArguments_sets (d : Draft) (texts : List String) :
    readArguments d (texts.map ("--set=" ++ ·)) =
      (texts.mapM drive?).map fun drives => { d with drives := d.drives ++ drives } := by
  induction texts generalizing d with
  | nil => simp [readArguments]
  | cons text texts ih =>
    have harg : "--set=" ++ text = String.ofList ("--set".toList ++ '=' :: text.toList) := by
      rw [← String.ofList_toList (s := "--set=" ++ text), String.toList_append]
      rfl
    rw [List.map_cons, harg, readArguments_cons (by decide), List.mapM_cons]
    have hset : d.setOption (String.ofList "--set".toList) (String.ofList text.toList) =
        (drive? text).map fun p => { d with drives := d.drives ++ [p] } := by
      rw [String.ofList_toList, String.ofList_toList]
      rfl
    rw [hset]
    cases drive? text with
    | none => rfl
    | some p =>
      rw [Option.map_some, Option.bind_some, ih]
      cases texts.mapM drive? with
      | none => rfl
      | some drives => simp

end CommandLine

namespace Netlist

open Surroundings

variable {nl : Netlist Gate}

@[simp] theorem traits?_drive (nl : Netlist Gate) (id : NodeId) (value : Bool) (id' : NodeId) :
    (nl.drive id value).2.traits? id' = nl.traits? id' := by
  have hstate (node : Node Gate) : (node.kind.withState value).role = node.kind.role ∧
      ({ node with kind := node.kind.withState value } : Node Gate).name = node.name := by
    obtain ⟨kind, slots⟩ := node
    cases kind <;> exact ⟨rfl, rfl⟩
  change (nl.updatePin id fun _ => value).2.traits? id' = nl.traits? id'
  unfold updatePin
  split
  · rfl
  · dsimp only
    unfold traits?
    rw [node?_modifyNode]
    split
    · rw [Option.map_map]
      refine Option.map_congr fun node _ => ?_
      rw [Function.comp_apply, (hstate node).1, (hstate node).2]
    · rfl
  · rfl

theorem inputByName?_eq_find? (nl : Netlist Gate) (name : String) :
    nl.inputByName? name = nl.inputs.find? fun id => (nl.traits? id).any (·.2 == name) := by
  unfold inputByName? pinByName?
  congr 1
  funext id
  unfold traits?
  cases nl.node? id <;> rfl

theorem inputByName?_drive (nl : Netlist Gate) (id : NodeId) (value : Bool) (name : String) :
    (nl.drive id value).2.inputByName? name = nl.inputByName? name := by
  simp only [inputByName?_eq_find?, traits?_drive, (alike_drive nl id value).inputs]

/-- Where no two inputs have the same name, each one is found by its name. -/
theorem inputByName?_eq {names : List String}
    (h : nl.inputs.map nl.traits? = (names.map (Role.input, ·)).map some) (hn : names.Nodup)
    {k : Nat} {name : String} (hk : names[k]? = some name) :
    nl.inputByName? name = nl.inputs[k]? := by
  have hlength : nl.inputs.length = names.length := by simpa using congrArg List.length h
  have htraits {j : Nat} (hj : j < nl.inputs.length) (hj' : j < names.length) :
      nl.traits? nl.inputs[j] = some (.input, names[j]) := by
    have hentry := congrArg (·[j]?) h
    simpa [hj, hj'] using hentry
  obtain ⟨hlt', rfl⟩ := List.getElem?_eq_some_iff.1 hk
  have hlt : k < nl.inputs.length := hlength ▸ hlt'
  rw [List.getElem?_eq_getElem hlt, inputByName?_eq_find?, List.find?_eq_some_iff_getElem]
  refine ⟨by simp [htraits hlt hlt'], k, hlt, rfl, fun j hj => ?_⟩
  have hne : names[j] ≠ names[k] := fun he =>
    Nat.ne_of_lt hj ((List.Nodup.getElem_inj_iff hn).1 he)
  simp [htraits (hj.trans hlt) (hj.trans hlt'), hne]

/-- A pin that is driven once has the value that it is driven with. -/
theorem state_of_mem_zip {pins : List NodeId} {values : Bits} (hn : pins.Nodup)
    (hl : values.length = pins.length) {id : NodeId} {value : Bool}
    (hm : (id, value) ∈ pins.zip values) {pin : InputPin}
    (hp : (nl.driveEach pins values).inputPin? id = some pin) : pin.state = value := by
  obtain ⟨k, hk, he⟩ := List.mem_iff_getElem.1 hm
  rw [List.getElem_zip, Prod.mk.injEq] at he
  obtain ⟨hid, hvalue⟩ := he
  have hstate := state_driveEach hn hl (List.getElem?_eq_some_iff.2 ⟨_, hid⟩) hp
  exact Option.some.inj (hstate.symm.trans (List.getElem?_eq_some_iff.2 ⟨_, hvalue⟩))

theorem drive_fst {id : NodeId} (hr : nl.role? id = some .input) (value : Bool) :
    (nl.drive id value).1 = .ok () := by
  obtain ⟨pin, hp⟩ := exists_inputPin? hr
  cases h : (nl.drive id value).1 with
  | ok => rfl
  | error e =>
    have hnone := (refusedIff_drive id value).refused.1 ⟨e, h⟩
    rw [hp] at hnone
    cases hnone

end Netlist

namespace Bench

open Netlist

variable {bench : Bench} {g : Gate}

/-- The inputs of a bench have the names of the gate's inputs, in order. -/
theorem ofGate_inputs (h : Bench.ofGate g = .ok bench) :
    bench.netlist.inputs = bench.inputs ∧
      bench.inputs.map bench.netlist.traits? = (g.inputs.map (Role.input, ·)).map some := by
  obtain ⟨hin, hlaid⟩ := Laid.empty.addEach (fun name h => h.addInput name) g.inputs
  obtain ⟨-, hlaid⟩ := hlaid.addEach (fun name h => h.addOutput name) g.outputs
  obtain ⟨-, hlaid⟩ := hlaid.place g
  have hunwired := unwired g
  unfold Bench.ofGate at h
  dsimp only at h
  rw [show _ ++ _ = links _ _ _ from rfl, linkAll_of_linkable hunwired.linkable] at h
  obtain rfl := Except.ok.inj h
  dsimp only at hunwired ⊢
  rw [inputs_setSlots, hin]
  constructor
  · have hw := hlaid.wellFormed
    have hrole := @Laid.role?_eq _ g.inputs g.outputs [g] hlaid
    refine hw.inputs_ascend.eq_of_mem_iff List.pairwise_lt_range' fun (id : Nat) => ?_
    rw [hw.mem_inputs, hrole, List.mem_range'_1]
    split_ifs <;> simp <;> omega
  · rw [funext (traits?_setSlots _ _)]
    rw [List.append_assoc, List.append_assoc, ← List.append_assoc] at hlaid
    simpa using hlaid.map_traits?

/-- Where no two inputs of the gate have the same name, each input of its bench is found. -/
theorem inputByName?_inputs (h : Bench.ofGate g = .ok bench) (hn : g.inputs.Nodup) :
    g.inputs.map bench.netlist.inputByName? = bench.inputs.map some := by
  obtain ⟨hinputs, htraits⟩ := ofGate_inputs h
  have hlength : bench.inputs.length = g.inputs.length := by
    simpa using congrArg List.length htraits
  apply List.ext_getElem
  · rw [List.length_map, List.length_map, hlength]
  · intro k hk hk'
    rw [List.length_map] at hk hk'
    rw [List.getElem_map, List.getElem_map, inputByName?_eq (hinputs.symm ▸ htraits) hn
      (List.getElem?_eq_getElem hk), hinputs, List.getElem?_eq_getElem hk']

end Bench

namespace Bench.Wired

open Netlist

variable {bench : Bench} {g : Gate} {sim : Simulator} {x : Bits}

/-- In a tick every input has the value that it is driven with. -/
theorem inputs_tick (hb : bench.Wired g) (ha : bench.netlist.Alike sim.netlist)
    (hd : bench.driven sim.netlist = x) :
    bench.inputs.map (sim.tick.value.readOutput · 0) = x := by
  rw [← hd]
  refine List.map_congr_left fun pin hpin => ?_
  have hrole := (ha.role pin).trans (hb.inputs pin hpin)
  obtain ⟨p, hp, hcached⟩ := Simulator.cached_input (hb.wellFormed.alike ha) hrole
  rw [state?_of_inputPin? hp, Simulator.readOutput, Context.output?, hcached]
  rfl

/-- Ticks alone change no input. -/
theorem inputs_states (hb : bench.Wired g) (ha : bench.netlist.Alike sim.netlist)
    (hd : bench.driven sim.netlist = x) (ticks : Nat) :
    ∀ sim' ∈ sim.states (List.replicate ticks []),
      bench.inputs.map (sim'.readOutput · 0) = x := by
  induction ticks generalizing sim with
  | zero => exact List.forall_mem_nil _
  | succ ticks ih =>
    rw [List.replicate_succ, Simulator.states, List.forall_mem_cons]
    exact ⟨hb.inputs_tick ha hd, @ih sim.tick.value ha hd⟩

/-- Tick after tick the gate answers the same values of its inputs. -/
theorem outputs_states (hb : bench.Wired g) (hs : g.Sized) (ha : bench.netlist.Alike sim.netlist)
    (hd : bench.driven sim.netlist = x) {before : Option Context}
    (hbefore : g.isHierarchical = true → sim.before.bind (·.nested.get? bench.node) = before)
    (ticks : Nat) :
    (sim.states (List.replicate ticks [])).map (fun sim => bench.outputs.map sim.readPin) =
      g.trace before (List.replicate ticks x) := by
  induction ticks generalizing sim before with
  | zero => rfl
  | succ ticks ih =>
    have hx : x.length = g.inputs.length := hd ▸ hb.length_driven sim.netlist
    obtain ⟨-, -, hnext⟩ := hb.tick_of_states ha hx (fun k id pin hk hp => by
      rw [← hd, driven, List.getElem?_map, hk, Option.map_some, state?_of_inputPin? hp,
        Option.getD_some]) hbefore
    have hshown := hb.shown_tick hs ha before hbefore
    rw [hd] at hshown
    have hrest := @ih sim.tick.value ha hd _ hnext
    rw [List.replicate_succ, List.replicate_succ, Gate.trace]
    exact congrArg₂ List.cons hshown hrest

end Bench.Wired

/-- How a gate is simulated whose inputs are driven to the values `x`: the drives are accepted, and
in every tick the boundary inputs have these values and the gate answers them. `nl` is the bench
after it was driven. -/
structure Gate.SimulatedWith (g : Gate) (x : Bits) (drives : List (String × Bool)) (bench : Bench)
    (nl : Netlist Gate) : Prop where
  made : Bench.ofGate g = .ok bench
  names : bench.inputs.map bench.netlist.traits? = (g.inputs.map (Role.input, ·)).map some
  driven : Report.driveAll g bench.netlist drives = .ok nl
  boundary : nl.inputs = bench.inputs
  report : ∀ (options : Options) creation, options.drives = drives →
    options.outputVcd = none ∨ creation = none →
    (Report.simulate g options creation).error = none ∧
    (Report.simulate g options creation).printed =
      ((Simulator.ofNetlist nl).states (List.replicate options.ticks [])).map
        (Report.tickLine bench.outputs)
  inputs : ∀ ticks, ∀ sim ∈ (Simulator.ofNetlist nl).states (List.replicate ticks []),
    nl.inputs.map (sim.readOutput · 0) = x
  outputs : g.Sized → ∀ ticks, ((Simulator.ofNetlist nl).states (List.replicate ticks [])).map
    (fun sim => bench.outputs.map sim.readPin) = g.trace none (List.replicate ticks x)

namespace Report

open Netlist CommandLine

variable {g : Gate} {nl : Netlist Gate} {bench : Bench} {x : Bits} {named : List (String × Bool)}

/-- Drives of inputs that are found are made one after another. -/
theorem driveAll_eq_ok (g : Gate) (hw : nl.WellFormed) {pins : List NodeId}
    (h : named.map (nl.inputByName? ·.1) = pins.map some) :
    driveAll g nl named = .ok (nl.driveEach pins (named.map (·.2))) := by
  induction named generalizing nl pins with
  | nil =>
    obtain rfl := List.map_eq_nil_iff.1 h.symm
    rfl
  | cons d named ih =>
    obtain ⟨name, value⟩ := d
    cases pins with
    | nil => cases h
    | cons pin pins =>
      obtain ⟨hpin, hpins⟩ := List.cons.inj h
      have hrole : nl.role? pin = some .input :=
        (hw.mem_inputs pin).1 (List.mem_of_find?_eq_some hpin)
      have hdrive : nl.drive pin value = (.ok (), (nl.drive pin value).2) :=
        Prod.ext (drive_fst hrole value) rfl
      have halike := alike_drive nl pin value
      have hrest : named.map ((nl.drive pin value).2.inputByName? ·.1) = pins.map some := by
        simpa only [inputByName?_drive] using hpins
      unfold driveAll
      dsimp only at hpin ⊢
      rw [hpin]
      dsimp only
      rw [hdrive]
      exact ih (hw.alike halike) hrest

/-- When names and their values are put in another order, so are the pins that are found. -/
theorem exists_pins {lookup : String → Option NodeId} {names : List String} {ids : List NodeId}
    (h : names.map lookup = ids.map some) (hp : named.Perm (names.zip x)) :
    ∃ pins : List NodeId, named.map (lookup ·.1) = pins.map some ∧
      (pins.zip (named.map (·.2))).Perm (ids.zip x) := by
  let found (name : String) : NodeId := (lookup name).getD 0
  refine ⟨named.map fun d => found d.1, ?_, ?_⟩
  · rw [List.map_map]
    refine List.map_congr_left fun d hd => ?_
    have hmem := List.mem_map_of_mem (f := lookup) (List.of_mem_zip (hp.subset hd)).1
    rw [h] at hmem
    obtain ⟨pin, -, hpin⟩ := List.mem_map.1 hmem
    simp only [found, Function.comp_apply, ← hpin, Option.getD_some]
  · have hfound : names.map found = ids := by
      have hget := congrArg (List.map (·.getD 0)) h
      simpa [Function.comp_def] using hget
    have hzip := hp.map (Prod.map found id)
    rw [← List.zip_map_left, hfound] at hzip
    rwa [List.zip_map']

/-- In whatever order the inputs of a gate are given their values, these are their states after
that. -/
theorem driven_driveAll (hb : Bench.ofGate g = .ok bench) (hn : g.inputs.Nodup)
    (hx : x.length = g.inputs.length) (hp : named.Perm (g.inputs.zip x)) :
    ∃ nl, driveAll g bench.netlist named = .ok nl ∧ bench.driven nl = x := by
  obtain ⟨bench', hb', hwired⟩ := Bench.ofGate_wired g
  obtain rfl := Except.ok.inj (hb.symm.trans hb')
  obtain ⟨pins, hall, hperm⟩ := exists_pins (Bench.inputByName?_inputs hb hn) hp
  have hvalues : (named.map (·.2)).length = pins.length := by
    simpa using congrArg List.length hall
  have hlength : x.length = bench.inputs.length := hx.trans hwired.inputs_length.symm
  have hpins : pins.Perm bench.inputs := by
    have hfst := hperm.map (·.1)
    rwa [List.map_fst_zip (Nat.le_of_eq hvalues.symm),
      List.map_fst_zip (Nat.le_of_eq hlength.symm)] at hfst
  refine ⟨_, driveAll_eq_ok g hwired.wellFormed hall, ?_⟩
  have halike := alike_driveEach bench.netlist pins (named.map (·.2))
  apply List.ext_getElem
  · rw [hwired.length_driven, hx]
  · intro k _ hk
    have hk' : k < bench.inputs.length := hlength ▸ hk
    have hmem : (bench.inputs[k], x[k]) ∈ pins.zip (named.map (·.2)) := by
      refine hperm.symm.subset (List.mem_iff_getElem.2 ⟨k, by simp [hk, hk'], ?_⟩)
      rw [List.getElem_zip]
    have hrole := (halike.role _).trans (hwired.inputs _ (List.getElem_mem hk'))
    obtain ⟨p, hp⟩ := exists_inputPin? hrole
    have hstate := state_of_mem_zip (hpins.nodup_iff.2 hwired.nodup) hvalues hmem hp
    simp only [Bench.driven, List.getElem_map, state?_of_inputPin? hp, Option.getD_some, hstate]

/-- Inputs of a gate with different names are given their values in any order. The texts of these
drives are understood if no equals sign stands in a name, and refused together otherwise. The drives
themselves are accepted, and every tick runs with exactly these values. -/
theorem drives_by_name {g : Gate} {x : Bits} {named : List (String × Bool)}
    (hn : g.inputs.Nodup) (hx : x.length = g.inputs.length)
    (hp : named.Perm (g.inputs.zip x)) :
    let texts := named.map driveText
    (∀ d ∈ named, drive? (driveText d) = if '=' ∈ d.1.toList then none else some d) ∧
    ((∀ name ∈ g.inputs, '=' ∉ name.toList) → texts.mapM drive? = some named ∧
      ∀ draft, readArguments draft (texts.map ("--set=" ++ ·)) =
        some { draft with drives := draft.drives ++ named }) ∧
    ((∃ name ∈ g.inputs, '=' ∈ name.toList) → texts.mapM drive? = none ∧
      ∀ draft, readArguments draft (texts.map ("--set=" ++ ·)) = none) ∧
    ∃ bench nl, g.SimulatedWith x named bench nl := by
  intro texts
  have hnames : (named.map (·.1)).Perm g.inputs := by
    have hfst := hp.map (·.1)
    rwa [List.map_fst_zip (Nat.le_of_eq hx.symm)] at hfst
  refine ⟨fun d _ => drive?_driveText d, fun hplain => ?_, fun hequals => ?_, ?_⟩
  · have hread : texts.mapM drive? = some named := mapM_drive?_eq_some fun d hd =>
      hplain d.1 (hnames.subset (List.mem_map_of_mem hd))
    exact ⟨hread, fun draft => by rw [readArguments_sets, hread, Option.map_some]⟩
  · have hread : texts.mapM drive? = none := by
      obtain ⟨name, hname, heq⟩ := hequals
      obtain ⟨d, hd, rfl⟩ := List.mem_map.1 (hnames.symm.subset hname)
      exact mapM_drive?_eq_none ⟨d, hd, heq⟩
    exact ⟨hread, fun draft => by rw [readArguments_sets, hread, Option.map_none]⟩
  · obtain ⟨bench, hb, hwired⟩ := Bench.ofGate_wired g
    obtain ⟨nl, hd, hdriven⟩ := driven_driveAll hb hn hx hp
    obtain ⟨hinputs, hlabels⟩ := Bench.ofGate_inputs hb
    have halike := alike_driveAll hd
    have hover : bench.netlist.Alike (Simulator.ofNetlist nl).netlist := halike
    have hboundary : nl.inputs = bench.inputs := halike.inputs.trans hinputs
    refine ⟨bench, nl, hb, hlabels, hd, hboundary, ?_, ?_, ?_⟩
    · rintro options creation rfl hc
      exact simulate_of_driveAll hb hd hc
    · rw [hboundary]
      exact hwired.inputs_states hover hdriven
    · intro hs
      exact hwired.outputs_states hs hover hdriven fun _ => rfl

/-- `NAND` with its second input driven before its first one, by arguments of the command line. -/
theorem drives_by_name_nand :
    let named := [("B", false), ("A", true)]
    let options : Options := { project := "project.json", ticks := 2, drives := named }
    named.Perm (Primitive.nand.gate.inputs.zip [true, false]) ∧
      ["B=0", "A=1"].mapM drive? = some named ∧
      parse ["--project=project.json", "--ticks=2", "--set=B=0", "--set=A=1"] = some options ∧
      ∃ bench nl, Primitive.nand.gate.SimulatedWith [true, false] named bench nl ∧
        (simulate Primitive.nand.gate options none).error = none ∧
        ((Simulator.ofNetlist nl).states [[], []]).map (fun sim => bench.outputs.map sim.readPin) =
          [[true], [true]] := by
  intro named options
  have hp : named.Perm (Primitive.nand.gate.inputs.zip [true, false]) := .swap ..
  obtain ⟨-, hread, -, bench, nl, hsimulated⟩ :=
    drives_by_name (g := Primitive.nand.gate) (by decide) rfl hp
  have htexts : named.map driveText = ["B=0", "A=1"] := by decide
  obtain ⟨hdrives, -⟩ := hread (by decide)
  rw [htexts] at hdrives
  obtain ⟨haccepted, -⟩ := hsimulated.report options none rfl (.inl rfl)
  refine ⟨hp, hdrives, by decide +kernel, bench, nl, hsimulated, haccepted, ?_⟩
  rw [show [[], []] = List.replicate 2 [] from rfl, hsimulated.outputs Primitive.nand.sized]
  decide +kernel

/-- An input whose name has an equals sign in it cannot be driven. -/
theorem drives_by_name_refused :
    let nl := (((((∅ : Netlist Gate).addInput "A=B").2.addOutput "X").2.link 1 0 0 0).2)
    nl.Reachable ∧ (nl.compile "G" ∅).value.map (·.inputs) = .ok ["A=B"] ∧
      driveText ("A=B", true) = "A=B=1" ∧ drive? "A=B=1" = none ∧
      parse ["--project", "project.json", "--ticks", "1", "--set", "A=B=1"] = none := by
  refine ⟨.link (.addOutput (.addInput .empty "A=B") "X") 1 0 0 0, ?_, ?_, ?_, ?_⟩
  · cbv
  · decide
  · decide
  · decide

end Report

end Breadboard
