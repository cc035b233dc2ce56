import Breadboard.CommandLine.Report
import Breadboard.Proofs.Compilation.Internals
import Breadboard.Proofs.Simulation.Interference

namespace Breadboard

open Netlist Surroundings

/-- The states of the input pins of a bench. -/
def Bench.driven (bench : Bench) (nl : Netlist Gate) : Bits :=
  bench.inputs.map fun pin => (nl.state? pin).getD false

/-- The ways of reading a gate that has no memory yet agree. -/
structure Gate.FirstTick (g : Gate) (bench : Bench) (rows : List Bits) : Prop where
  length_rows : rows.length = Nat.pow 2 g.inputs.length
  pack_unpack : ∀ key < rows.length, (Bits.unpack key g.inputs.length).pack = key
  unpack_pack : ∀ row : Bits, row.length = g.inputs.length →
    row.pack < rows.length ∧ Bits.unpack row.pack g.inputs.length = row
  row : ∀ row : Bits, row.length = g.inputs.length →
    ∃ outputs, (g.evaluate row).value = .ok outputs ∧ rows[row.pack]? = some outputs
  first : ∀ row : Bits, row.length = g.inputs.length →
    let sim := ((Simulator.ofNetlist bench.netlist).driveEach bench.inputs row).tick.value
    (g.evaluate row).value = .ok (bench.outputs.map sim.readPin)
  printed : ∀ (options : Options) nl, Report.driveAll g bench.netlist options.drives = .ok nl →
    0 < options.ticks → ∃ outputs, (g.evaluate (bench.driven nl)).value = .ok outputs ∧
      (Report.simulate g options none).printed.head? =
        some s!"tick 1: {Report.bitString outputs}"
  later : g.isHierarchical = false → ∀ rounds : List (List Edit),
    (∀ edits ∈ rounds, ∀ e ∈ edits, e.Drives) →
    ∀ sim ∈ (Simulator.ofNetlist bench.netlist).states rounds,
      (g.evaluate (bench.driven sim.netlist)).value = .ok (bench.outputs.map sim.readPin)

namespace Gate

variable {g : Gate} {row : Bits}

theorem evaluate_eq_ok (h : row.length = g.inputs.length) :
    (g.evaluate row).value = .ok (g.compute row ∅ none).value := by
  rw [evaluate, if_pos h]
  rfl

theorem truthTable_eq_ok (h : g.inputs.length ≤ maxTableInputs) :
    g.truthTable.value =
      .ok ((Bits.all g.inputs.length).map fun row => (g.compute row ∅ none).value) := by
  unfold truthTable
  dsimp only
  rw [if_neg (Nat.not_lt.2 h), List.map_map]
  rfl

/-- The row of a truth table for given values stands where their number says. -/
theorem getElem?_all (row : Bits) : (Bits.all row.length)[row.pack]? = some row := by
  rw [Bits.all, List.getElem?_map, List.getElem?_range (Bits.pack_lt row), Option.map_some,
    Bits.unpack_pack]

end Gate

namespace Bench.Wired

variable {bench : Bench} {g : Gate} {sim : Simulator}

theorem length_driven (hb : bench.Wired g) (nl : Netlist Gate) :
    (bench.driven nl).length = g.inputs.length := by
  rw [driven, List.length_map, hb.inputs_length]

/-- What the outputs show after a tick, when the gate had `before` as its previous context: its
answer for the states of the pins. -/
theorem shown_tick (hb : bench.Wired g) (hs : g.Sized) (ha : bench.netlist.Alike sim.netlist)
    (before : Option Context)
    (hbefore : g.isHierarchical = true → sim.before.bind (·.nested.get? bench.node) = before) :
    bench.outputs.map sim.tick.value.readPin =
      (g.compute (bench.driven sim.netlist) ∅ before).value := by
  have hrow := hb.length_driven sim.netlist
  obtain ⟨ha', hcached, _⟩ := hb.tick_of_states ha hrow (fun k id pin hk hp => by
    rw [driven, List.getElem?_map, hk, Option.map_some, state?_of_inputPin? hp,
      Option.getD_some]) hbefore
  exact hb.readPins_eq ha' (hs _ before hrow) hcached

/-- Driving the inputs with a row of values gives them these states. -/
theorem driven_driveEach (hb : bench.Wired g) (ha : bench.netlist.Alike sim.netlist) {row : Bits}
    (hrow : row.length = g.inputs.length) :
    bench.driven (sim.driveEach bench.inputs row).netlist = row := by
  have hlength : row.length = bench.inputs.length := hrow.trans hb.inputs_length.symm
  apply List.ext_getElem?
  intro k
  rw [driven, List.getElem?_map]
  cases hk : bench.inputs[k]? with
  | none =>
    have hle := List.getElem?_eq_none_iff.1 hk
    rw [List.getElem?_eq_none (hlength ▸ hle), Option.map_none]
  | some id =>
    have had : bench.netlist.Alike (sim.driveEach bench.inputs row).netlist :=
      ha.trans (alike_driveEach _ _ _)
    have hrole := (had.role id).trans (hb.inputs id (List.mem_of_getElem? hk))
    obtain ⟨pin, hp⟩ := exists_inputPin? hrole
    rw [Option.map_some, state?_of_inputPin? hp, Option.getD_some]
    exact (state_driveEach hb.nodup hlength hk hp).symm

/-- A gate without an internal netlist answers the driven values in every tick. -/
theorem evaluate_states (hb : bench.Wired g) (hs : g.Sized) (hh : g.isHierarchical = false)
    (h : sim.Over bench.netlist) {rounds : List (List Edit)}
    (hd : ∀ edits ∈ rounds, ∀ e ∈ edits, e.Drives) :
    ∀ sim' ∈ sim.states rounds,
      (g.evaluate (bench.driven sim'.netlist)).value = .ok (bench.outputs.map sim'.readPin) := by
  induction rounds generalizing sim with
  | nil => exact List.forall_mem_nil _
  | cons edits rounds ih =>
    obtain ⟨hedits, hd⟩ := List.forall_mem_cons.1 hd
    obtain ⟨hover, _⟩ := h.drives hedits
    rw [Simulator.states, List.forall_mem_cons]
    refine ⟨?_, ih hover.tick hd⟩
    have hshown := hb.shown_tick hs hover.alike none (by simp [hh])
    rw [Gate.evaluate_eq_ok (hb.length_driven _)]
    exact congrArg Except.ok hshown.symm

end Bench.Wired

namespace Report

theorem alike_driveAll {g : Gate} {nl nl' : Netlist Gate} {drives : List (String × Bool)}
    (h : driveAll g nl drives = .ok nl') : nl.Alike nl' := by
  induction drives generalizing nl with
  | nil =>
    obtain rfl := Except.ok.inj h
    exact .refl nl
  | cons d drives ih =>
    obtain ⟨name, value⟩ := d
    unfold driveAll at h
    split at h
    · cases h
    · next pin _ =>
      have ha := nl.alike_drive pin value
      split at h
      · cases h
      · next hdrive =>
        rw [hdrive] at ha
        exact ha.trans (ih h)

/-- The line that is printed after a tick. -/
def tickLine (outputs : List NodeId) (sim : Simulator) : String :=
  s!"tick {sim.ticks}: {bitString (outputs.map sim.readPin)}"

/-- One line is printed for every tick. -/
theorem printed_runTicks (outputs : List NodeId) (ticks : Nat) (sim : Simulator) (w : Waveform) :
    (runTicks outputs ticks sim w).map (·.1) =
      (sim.states (List.replicate ticks [])).map (tickLine outputs) := by
  induction ticks generalizing sim w with
  | zero => rfl
  | succ ticks ih => exact congrArg (List.cons _) (ih ..)

theorem simulate_of_driveAll {g : Gate} {bench : Bench} (hb : Bench.ofGate g = .ok bench)
    {options : Options} {nl : Netlist Gate} (hd : driveAll g bench.netlist options.drives = .ok nl)
    {creation : Option FileError} (hc : options.outputVcd = none ∨ creation = none) :
    (simulate g options creation).error = none ∧ (simulate g options creation).printed =
      ((Simulator.ofNetlist nl).states (List.replicate options.ticks [])).map
        (tickLine bench.outputs) := by
  rw [← printed_runTicks bench.outputs options.ticks _ (Waveform.start g.name nl).2]
  unfold simulate
  rw [hb]
  dsimp only
  rw [hd]
  dsimp only
  rcases hc with hpath | rfl
  · rw [hpath]
    exact ⟨rfl, rfl⟩
  · cases options.outputVcd <;> exact ⟨rfl, rfl⟩

/-- The first line that a simulation prints. -/
theorem head?_simulate {g : Gate} {bench : Bench} (hb : Bench.ofGate g = .ok bench)
    {options : Options} {nl : Netlist Gate} (hd : driveAll g bench.netlist options.drives = .ok nl)
    (ht : 0 < options.ticks) :
    (simulate g options none).printed.head? = some
      s!"tick 1: {bitString (bench.outputs.map (Simulator.ofNetlist nl).tick.value.readPin)}" := by
  obtain ⟨n, hn⟩ := Nat.exists_eq_succ_of_ne_zero (Nat.ne_of_gt ht)
  obtain ⟨-, hprinted⟩ := simulate_of_driveAll hb hd (.inr rfl)
  have htext : toString "tick " ++ toString (0 + 1) ++ toString ": " = "tick 1: " := by decide
  rw [hprinted, hn, List.replicate_succ, Simulator.states, List.map_cons, List.head?_cons]
  exact congrArg (fun text => some (text ++ _)) htext

end Report

namespace Gate

/-- The truth table of a gate, its evaluation alone and the first tick of its bench agree, and the
first tick is what the program prints. -/
theorem Sized.first_tick {g : Gate} (hs : g.Sized) (hn : g.inputs.length ≤ maxTableInputs) :
    ∃ rows bench, g.truthTable.value = .ok rows ∧ Bench.ofGate g = .ok bench ∧
      g.FirstTick bench rows := by
  obtain ⟨bench, hbench, hb⟩ := Bench.ofGate_wired g
  refine ⟨_, bench, truthTable_eq_ok hn, hbench, ?_⟩
  have hlength : ((Bits.all g.inputs.length).map fun row => (g.compute row ∅ none).value).length =
      Nat.pow 2 g.inputs.length := by rw [List.length_map, Bits.length_all]
  constructor
  case length_rows => exact hlength
  case pack_unpack =>
    intro key hkey
    exact Bits.pack_unpack (hlength ▸ hkey)
  case unpack_pack =>
    intro row hrow
    rw [hlength, ← hrow]
    exact ⟨Bits.pack_lt row, Bits.unpack_pack row⟩
  case row =>
    intro row hrow
    refine ⟨_, evaluate_eq_ok hrow, ?_⟩
    rw [List.getElem?_map, ← hrow, getElem?_all, Option.map_some]
  case first =>
    intro row hrow
    have ha : bench.netlist.Alike (Simulator.ofNetlist bench.netlist).netlist := .refl _
    have hshown := hb.shown_tick hs
      (ha.trans (alike_driveEach bench.netlist bench.inputs row) :
        bench.netlist.Alike
          ((Simulator.ofNetlist bench.netlist).driveEach bench.inputs row).netlist)
      none (fun _ => rfl)
    rw [hb.driven_driveEach ha hrow] at hshown
    rw [evaluate_eq_ok hrow, ← hshown]
  case printed =>
    intro options nl hd ht
    refine ⟨_, evaluate_eq_ok (hb.length_driven nl), ?_⟩
    have ha : bench.netlist.Alike (Simulator.ofNetlist nl).netlist := Report.alike_driveAll hd
    have hshown := hb.shown_tick hs ha none (fun _ => rfl)
    rw [Report.head?_simulate hbench hd ht, hshown]
    rfl
  case later =>
    intro hh rounds hd
    exact hb.evaluate_states hs hh ⟨.refl _, rfl⟩ hd

/-- The compiled latch in its first tick, which is its only one without memory, and `NAND` in three
ticks between which one pin after the other is driven. -/
theorem first_tick_latch :
    (∃ g, (latch.compile "LATCH" ∅).value = .ok g ∧ g.isHierarchical = true ∧ g.Sized ∧
      g.inputs.length ≤ maxTableInputs ∧ ∃ rows bench, g.truthTable.value = .ok rows ∧
        Bench.ofGate g = .ok bench ∧ g.FirstTick bench rows) ∧
    Primitive.nand.gate.Sized ∧ Primitive.nand.gate.inputs.length ≤ maxTableInputs ∧
      Primitive.nand.gate.isHierarchical = false ∧
      ∃ rows bench, Primitive.nand.gate.truthTable.value = .ok rows ∧
        Bench.ofGate Primitive.nand.gate = .ok bench ∧
        rows[Bits.pack [true, true]]? = some [false] ∧
        ∀ sim ∈ (Simulator.ofNetlist bench.netlist).states
            [[.drive 0 true], [.toggle 1], [.drive 0 false]],
          (Primitive.nand.gate.evaluate (bench.driven sim.netlist)).value =
            .ok (bench.outputs.map sim.readPin) := by
  constructor
  · have hcompiled : (latch.compile "LATCH" ∅).value.toOption.map
        (fun g => (g.isHierarchical, g.inputs.length)) = some (true, 1) := by cbv
    cases hg : (latch.compile "LATCH" ∅).value with
    | error cause => simp [hg, Except.toOption] at hcompiled
    | ok g =>
      rw [hg] at hcompiled
      obtain ⟨hh, hn⟩ := Prod.mk.inj (Option.some.inj hcompiled)
      have hs : g.Sized := sized_compileBetween reachable_latch.wellFormed hg
      have hle : g.inputs.length ≤ maxTableInputs := hn ▸ by decide
      exact ⟨g, rfl, hh, hs, hle, Sized.first_tick hs hle⟩
  · have hle : Primitive.nand.gate.inputs.length ≤ maxTableInputs := by decide
    obtain ⟨rows, bench, hrows, hbench, hfirst⟩ := Sized.first_tick Primitive.nand.sized hle
    refine ⟨Primitive.nand.sized, hle, rfl, rows, bench, hrows, hbench, ?_, ?_⟩
    · obtain ⟨outputs, he, hrow⟩ := hfirst.row [true, true] rfl
      have hvalue : (Primitive.nand.gate.evaluate [true, true]).value = .ok [false] := by
        rw [evaluate_eq_ok rfl, compute_primitive rfl]
        rfl
      rw [hrow, Except.ok.inj (he.symm.trans hvalue)]
    · apply hfirst.later rfl
      simp [Edit.Drives]

end Gate

end Breadboard
