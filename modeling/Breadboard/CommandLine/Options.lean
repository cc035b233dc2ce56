namespace Breadboard

/-- What the program is asked to do. -/
structure Options where
  project : String
  gate : Option String := none
  truthTable : Bool := false
  ticks : Nat := 0
  drives : List (String × Bool) := []
  outputVcd : Option String := none
  replace : Bool := false
  verbose : Bool := false
  deriving DecidableEq, Repr

namespace CommandLine

/-- The parts of a text before and after its first equals sign. -/
def splitEquals : List Char → Option (List Char × List Char)
  | [] => none
  | c :: cs => if c = '=' then some ([], cs) else (splitEquals cs).map fun (a, b) => (c :: a, b)

/-- A pin and its value, written `PIN=0` or `PIN=1`. -/
def drive? (text : String) : Option (String × Bool) :=
  match splitEquals text.toList with
  | some (pin, ['0']) => some (String.ofList pin, false)
  | some (pin, ['1']) => some (String.ofList pin, true)
  | _ => none

/-- The value of decimal digits. -/
def decimal? (digits : List Char) : Option Nat :=
  if digits.isEmpty || !digits.all (·.isDigit) then none
  else some (digits.foldl (fun n c => n * 10 + (c.toNat - 48)) 0)

/-- A number of at most 64 binary digits, where a plus sign may stand in front. -/
def ticks? (text : String) : Option Nat :=
  let digits := match text.toList with
    | '+' :: rest => rest
    | cs => cs
  (decimal? digits).filter (· ≤ 0xFFFFFFFFFFFFFFFF)

/-- Options read so far. -/
structure Draft where
  project : Option String := none
  gate : Option String := none
  truthTable : Bool := false
  ticks : Option Nat := none
  drives : List (String × Bool) := []
  outputVcd : Option String := none
  replace : Bool := false
  verbose : Bool := false

/-- Whether an argument can be the value of the option before it. -/
def isValue (arg : String) : Bool := arg == "-" || arg.toList.head? != some '-'

/-- Set a switch; a switch that is set already is refused. -/
def Draft.setSwitch (d : Draft) (name : String) : Option Draft :=
  if name = "--truth-table" then
    if d.truthTable then none else some { d with truthTable := true }
  else if name = "--replace" then if d.replace then none else some { d with replace := true }
  else if name = "--verbose" then if d.verbose then none else some { d with verbose := true }
  else none

/-- Set an option to a value; a second value is refused, except for the driven pins. -/
def Draft.setOption (d : Draft) (name value : String) : Option Draft :=
  if name = "--project" then
    if d.project.isSome then none else some { d with project := some value }
  else if name = "--gate" then if d.gate.isSome then none else some { d with gate := some value }
  else if name = "--output-vcd" then
    if d.outputVcd.isSome then none else some { d with outputVcd := some value }
  else if name = "--ticks" then
    if d.ticks.isSome then none else (ticks? value).map fun n => { d with ticks := some n }
  else if name = "--set" then (drive? value).map fun p => { d with drives := d.drives ++ [p] }
  else none

/-- The options that take a value. -/
def valueOptions : List String := ["--project", "--gate", "--output-vcd", "--ticks", "--set"]

def readArguments : Draft → List String → Option Draft
  | d, [] => some d
  | d, arg :: rest =>
    if arg = "-v" then (d.setSwitch "--verbose").bind (readArguments · rest)
    else if arg = "--" then if rest.isEmpty then some d else none
    else if arg ∈ valueOptions then
      match rest with
      | [] => none
      | value :: rest =>
        if isValue value then (d.setOption arg value).bind (readArguments · rest) else none
    else
      match splitEquals arg.toList with
      | some (name, value) =>
        (d.setOption (String.ofList name) (String.ofList value)).bind (readArguments · rest)
      | none => (d.setSwitch arg).bind (readArguments · rest)

/-- The options that arguments give, or nothing if they are not understood. Every option but `--set`
may be given once, its value in the same argument after `=` or as the next argument. After `--` no
argument may follow. -/
def parse (args : List String) : Option Options :=
  (readArguments {} args).bind fun d =>
    d.project.map fun project =>
      { project, gate := d.gate, truthTable := d.truthTable, ticks := d.ticks.getD 0
        drives := d.drives, outputVcd := d.outputVcd, replace := d.replace, verbose := d.verbose }

end CommandLine

end Breadboard
