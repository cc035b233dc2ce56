import Breadboard.Bench
import Breadboard.CommandLine.Disk
import Breadboard.CommandLine.Options
import Breadboard.Project.Reader
import Breadboard.Text.Lines
import Breadboard.Waveform

namespace Breadboard

/-- Why the program stopped. -/
inductive ReportError where
  | notOpened (path : String) (cause : FileError)
  | notParsed (path : String)
  | notLoaded (cause : LoadError)
  | unknownGate (cause : RegistryError)
  | noGate (path : String)
  | noTable (cause : GateError)
  | noInput (gate input : String)
  | notWired (cause : EditError)
  | notCreated (cause : FileError)
  deriving DecidableEq, Repr, Inhabited

/-- The texts of the error, outermost first. -/
def ReportError.chain : ReportError → List String
  | .notOpened path cause => [s!"Could not open project {path}", cause.message]
  | .notParsed path => [s!"Could not parse project {path}"]
  | .notLoaded cause => cause.chain
  | .unknownGate cause => [cause.message]
  | .noGate path => [s!"Project {path} contains no gate."]
  | .noTable cause => [cause.message]
  | .noInput gate input => [s!"Gate {gate} has no input {input}."]
  | .notWired cause => [cause.message]
  | .notCreated cause => [cause.message]

/-- What the program leaves behind: printed lines, the error that stopped it, and the lines of the
waveform, if one was written. -/
structure Report where
  printed : List String := []
  error : Option ReportError := none
  waveform : Option (List String) := none

namespace Report

def exitCode (r : Report) : Nat := if r.error.isSome then 1 else 0

/-- The lines of a text, of which the first stands after `first` and each other after `others`. -/
def indent (first others text : String) : List String :=
  match text.splitOn "\n" with
  | [] => []
  | line :: lines => (first ++ line) :: lines.map (others ++ ·)

/-- The lines that describe an error: its causes stand below it, indented, with numbers if there
are several. -/
def errorLines : List String → List String
  | [] => []
  | [text] => [s!"Error: {text}"]
  | [text, cause] => [s!"Error: {text}", "", "Caused by:"] ++ indent "    " "    " cause
  | text :: causes =>
    [s!"Error: {text}", "", "Caused by:"] ++ causes.zipIdx.flatMap fun (cause, i) =>
      indent (String.ofList ((toString i).toList.leftpad 5 ' ') ++ ": ") "       " cause

/-- Bits as digits with blanks between them. -/
def bitString (bits : Bits) : String :=
  " ".intercalate (bits.map fun b => if b then "1" else "0")

/-- The registry that a project is loaded into, and the loaded gates. -/
def loadProject (options : Options) (file : Except FileError Json.Bytes) :
    Except ReportError (List Registered × Registry) :=
  match file with
  | .error cause => .error (.notOpened options.project cause)
  | .ok bytes =>
    match Project.read bytes with
    | .error _ => .error (.notParsed options.project)
    | .ok project =>
      let policy := if options.replace then ConflictPolicy.replace else .reject
      match (project.load (Registry.standard policy)).value with
      | (.error cause, _) => .error (.notLoaded cause)
      | (.ok loaded, registry) => .ok (loaded, registry)

/-- The gate to inspect: the named one, or else the one that was loaded last. -/
def chooseGate (options : Options) (loaded : List Registered) (registry : Registry) :
    Except ReportError Gate :=
  match options.gate with
  | some name =>
    match registry.resolve name with
    | .error cause => .error (.unknownGate cause)
    | .ok entry => .ok entry.gate
  | none =>
    match loaded.getLast? with
    | none => .error (.noGate options.project)
    | some entry => .ok entry.gate

def headline (gate : Gate) : String :=
  let kind := if gate.isHierarchical then "hierarchical" else "table-driven"
  s!"Gate {gate.name}: {gate.inputs.length} inputs, {gate.outputs.length} outputs, {kind}."

/-- The lines of the truth table; the heading comes even if there is no table. -/
def tableLines (gate : Gate) : List String × Option ReportError :=
  let names (pins : List String) := " ".intercalate pins
  let heading := s!"{names gate.inputs} | {names gate.outputs}"
  match gate.truthTable.value with
  | .error cause => ([heading], some (.noTable cause))
  | .ok rows =>
    (heading :: (Bits.all gate.inputs.length).zipWith
      (fun inputs outputs => s!"{bitString inputs} | {bitString outputs}") rows, none)

def driveAll (gate : Gate) (nl : Netlist Gate) :
    List (String × Bool) → Except ReportError (Netlist Gate)
  | [] => .ok nl
  | (name, value) :: drives =>
    match nl.inputByName? name with
    | none => .error (.noInput gate.name name)
    | some pin =>
      match nl.drive pin value with
      | (.error cause, _) => .error (.notWired cause)
      | (.ok _, nl) => driveAll gate nl drives

/-- Let the simulator tick; answers a printed line and the waveform's lines for every tick. -/
def runTicks (outputs : List NodeId) :
    Nat → Simulator → Waveform → List (String × List Waveform.Line)
  | 0, _, _ => []
  | n + 1, sim, w =>
    let sim := sim.tick.value
    let (lines, w) := w.record sim
    let values := bitString (outputs.map sim.readPin)
    (s!"tick {sim.ticks}: {values}", lines) :: runTicks outputs n sim w

/-- Simulate one placement of the gate. The waveform is started before the first tick, where
`creation` says why its file cannot be created. -/
def simulate (gate : Gate) (options : Options) (creation : Option FileError) : Report :=
  match Bench.ofGate gate with
  | .error cause => { error := some (.notWired cause) }
  | .ok bench =>
    match driveAll gate bench.netlist options.drives with
    | .error e => { error := some e }
    | .ok netlist =>
      match options.outputVcd, creation with
      | some _, some cause => { error := some (.notCreated cause) }
      | path, _ =>
        let sim := Simulator.ofNetlist netlist
        let (header, w) := Waveform.start gate.name sim.netlist
        let ticks := runTicks bench.outputs options.ticks sim w
        { printed := ticks.map (·.1)
          waveform := path.map fun _ => (header ++ ticks.flatMap (·.2)).map (·.text) }

/-- The report for some options, given the content of the project's file or why it cannot be
opened, and why the waveform's file cannot be created, if so. -/
def make (options : Options) (file : Except FileError Json.Bytes) (creation : Option FileError) :
    Report :=
  match loadProject options file with
  | .error e => { error := some e }
  | .ok (loaded, registry) =>
    match chooseGate options loaded registry with
    | .error e => { error := some e }
    | .ok gate =>
      let (table, tableError) := if options.truthTable then tableLines gate else ([], none)
      let printed := headline gate :: table
      if tableError.isSome then { printed, error := tableError }
      else if options.ticks = 0 then { printed }
      else
        let simulated := simulate gate options creation
        { simulated with printed := printed ++ simulated.printed }

/-- Run on a disk: the report, and the disk with the waveform's file on it. -/
def onDisk (options : Options) (disk : Disk) : Report × Disk :=
  let file := (disk.read options.project).map (·.toList)
  let creation := options.outputVcd.bind fun path =>
    match disk.target path with
    | .ok _ => none
    | .error cause => some cause
  let report := make options file creation
  match options.outputVcd, report.waveform with
  | some path, some lines =>
    (report, ((disk.write path (Text.ofLines lines).toUTF8).toOption).getD disk)
  | _, _ => (report, disk)

end Report

end Breadboard
