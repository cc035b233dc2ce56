import Breadboard.CommandLine.Report

namespace Breadboard

/-- The system's number of an error, which may come negated. -/
def systemNumber (code : UInt32) : Nat := min code.toNat (0 - code).toNat

def FileError.ofIO (error : IO.Error) : FileError :=
  match error with
  | .noFileOrDirectory .. => .missing
  | .permissionDenied .. => .denied
  | .inappropriateType _ code _ => if systemNumber code = 20 then .notFolder else .isFolder
  | .invalidArgument _ code _ =>
    if systemNumber code = 36 then .nameTooLong else .other error.toString
  | _ => .other error.toString

def attempt {α : Type} (operation : IO α) : IO (Except FileError α) := do
  match ← operation.toBaseIO with
  | .ok a => return .ok a
  | .error e => return .error (.ofIO e)

/-- Read the project's file; a folder has no content. -/
def readProject (path : String) : IO (Except FileError Json.Bytes) := do
  match ← attempt (IO.FS.readBinFile path) with
  | .ok content => return .ok content.toList
  | .error .isFolder => return .ok []
  | .error cause => return .error cause

/-- Write the waveform of a report; answers why that failed. -/
def writeWaveform (options : Options) (report : Report) : IO (Option FileError) := do
  match options.outputVcd, report.waveform with
  | some path, some lines =>
    match ← attempt (IO.FS.writeFile path (Text.ofLines lines)) with
    | .ok () => return none
    | .error cause => return some cause
  | _, _ => return none

end Breadboard

open Breadboard in
def main (args : List String) : IO UInt32 := do
  match CommandLine.parse args with
  | none =>
    IO.eprintln "usage: breadboard --project FILE [--gate NAME] [--truth-table] [--ticks N]"
    IO.eprintln "         [--set PIN=0|1]... [--output-vcd FILE] [--replace] [-v]"
    return 2
  | some options =>
    let file ← readProject options.project
    let first := Report.make options file none
    let report := match ← writeWaveform options first with
      | none => first
      | some cause => Report.make options file (some cause)
    for line in report.printed do
      IO.println line
    for line in (report.error.map fun e => Report.errorLines e.chain).getD [] do
      IO.eprintln line
    return UInt32.ofNat report.exitCode
