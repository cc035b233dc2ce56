import Breadboard.Bench
import Breadboard.Bits
import Breadboard.CommandLine.Disk
import Breadboard.CommandLine.Options
import Breadboard.CommandLine.Report
import Breadboard.Compilation.Boundary
import Breadboard.Compilation.Closure
import Breadboard.Compilation.Compile
import Breadboard.Compilation.Island
import Breadboard.Decimal.Layout
import Breadboard.Decimal.Shortest
import Breadboard.Evaluation.Compute
import Breadboard.Evaluation.Context
import Breadboard.Evaluation.Stack
import Breadboard.Evaluation.Walk
import Breadboard.Gate.Basic
import Breadboard.Gate.Primitive
import Breadboard.Gate.Table
import Breadboard.Json.Basic
import Breadboard.Json.Error
import Breadboard.Json.Printer
import Breadboard.Json.Reader
import Breadboard.Json.Shape
import Breadboard.Json.Token
import Breadboard.Main
import Breadboard.Named
import Breadboard.Netlist.Basic
import Breadboard.Netlist.Copy
import Breadboard.Netlist.Edit
import Breadboard.NodeMap
import Breadboard.NodeSet
import Breadboard.Project.Definition
import Breadboard.Project.Load
import Breadboard.Project.Order
import Breadboard.Project.Printer
import Breadboard.Project.Reader
import Breadboard.Proofs.CommandLine.DefaultGate
import Breadboard.Proofs.CommandLine.Drives
import Breadboard.Proofs.Compilation.Acceptance
import Breadboard.Proofs.Compilation.Closure
import Breadboard.Proofs.Compilation.Compile
import Breadboard.Proofs.Compilation.Dependencies
import Breadboard.Proofs.Compilation.Enumeration
import Breadboard.Proofs.Compilation.Exploration
import Breadboard.Proofs.Compilation.Internals
import Breadboard.Proofs.Compilation.Islands
import Breadboard.Proofs.Compilation.Locality
import Breadboard.Proofs.Compilation.Renumbering
import Breadboard.Proofs.Compilation.Routing
import Breadboard.Proofs.Compilation.Tables
import Breadboard.Proofs.Compilation.Verdict
import Breadboard.Proofs.Evaluation.Acyclic
import Breadboard.Proofs.Evaluation.Agreement
import Breadboard.Proofs.Evaluation.Explained
import Breadboard.Proofs.Evaluation.Extent
import Breadboard.Proofs.Evaluation.Firings
import Breadboard.Proofs.Evaluation.Invariant
import Breadboard.Proofs.Evaluation.Lockstep
import Breadboard.Proofs.Evaluation.Meaning
import Breadboard.Proofs.Evaluation.Placements
import Breadboard.Proofs.Evaluation.Renaming
import Breadboard.Proofs.Evaluation.Run
import Breadboard.Proofs.Evaluation.Settled
import Breadboard.Proofs.Evaluation.Turns
import Breadboard.Proofs.Guarded.Compilation
import Breadboard.Proofs.Guarded.Copies
import Breadboard.Proofs.Guarded.Desk
import Breadboard.Proofs.Guarded.Discipline
import Breadboard.Proofs.Guarded.Gates
import Breadboard.Proofs.Guarded.Projects
import Breadboard.Proofs.Guarded.Session
import Breadboard.Proofs.Guarded.Tables
import Breadboard.Proofs.Guarded.Walk
import Breadboard.Proofs.Json.Fits
import Breadboard.Proofs.Json.Reading
import Breadboard.Proofs.Json.Tokens
import Breadboard.Proofs.Netlist.Cone
import Breadboard.Proofs.Netlist.Copying
import Breadboard.Proofs.Netlist.Duplication
import Breadboard.Proofs.Netlist.Edits
import Breadboard.Proofs.Netlist.Embedding
import Breadboard.Proofs.Netlist.Extraction
import Breadboard.Proofs.Netlist.Isomorphism
import Breadboard.Proofs.Netlist.Keeping
import Breadboard.Proofs.Netlist.Laying
import Breadboard.Proofs.Netlist.PinIndex
import Breadboard.Proofs.Netlist.Refusals
import Breadboard.Proofs.Netlist.Representation
import Breadboard.Proofs.Netlist.Role
import Breadboard.Proofs.Netlist.Transfer
import Breadboard.Proofs.Netlist.WellFormed
import Breadboard.Proofs.Netlist.Wiring
import Breadboard.Proofs.Project.KeptLinks
import Breadboard.Proofs.Project.LastLoaded
import Breadboard.Proofs.Project.LoadIndependence
import Breadboard.Proofs.Project.LoadOrder
import Breadboard.Proofs.Project.LoadRun
import Breadboard.Proofs.Project.NormalForm
import Breadboard.Proofs.Project.Order
import Breadboard.Proofs.Project.Recompilation
import Breadboard.Proofs.Project.Registering
import Breadboard.Proofs.Project.Rehydration
import Breadboard.Proofs.Project.RoundTrip
import Breadboard.Proofs.Simulation.Bench
import Breadboard.Proofs.Simulation.Exactness
import Breadboard.Proofs.Simulation.ExtractedRuns
import Breadboard.Proofs.Simulation.FirstTick
import Breadboard.Proofs.Simulation.Header
import Breadboard.Proofs.Simulation.Interference
import Breadboard.Proofs.Simulation.Isolation
import Breadboard.Proofs.Simulation.Preservation
import Breadboard.Proofs.Simulation.Reads
import Breadboard.Proofs.Simulation.Session
import Breadboard.Proofs.Simulation.Ticks
import Breadboard.Proofs.Simulation.Unobserved
import Breadboard.Proofs.Simulation.Waveform
import Breadboard.Proofs.Text.NameOrder
import Breadboard.Registry
import Breadboard.Simulator
import Breadboard.Text.Invisible
import Breadboard.Text.Lines
import Breadboard.Text.Quoted
import Breadboard.Unseen
import Breadboard.Waveform
