import Breadboard.Evaluation.Context
import Breadboard.Gate.Basic

namespace Breadboard

/-- A value found by evaluation, the context afterwards, and the tags of the cells that were
called, the latest first. -/
structure Outcome (α : Type) where
  value : α
  context : Context
  calls : List Nat

/-- What a walk reads but never changes: the netlist, the context of the previous tick, and how a
placed gate responds to input values in its own context and its own previous context. -/
structure Surroundings where
  netlist : Netlist Gate
  previous : Option Context
  respond : NodeId → Bits → Context → Option Context → Outcome Bits

/-- A node that waits for its inputs, with the values of its first slots. -/
structure Frame where
  node : NodeId
  resolved : Bits
  deriving DecidableEq, Repr

/-- The state of a walk: the waiting nodes, the latest first, the context, and the calls made. -/
structure Walk where
  frames : List Frame
  context : Context
  calls : List Nat := []

/-- What a slot yields: a value, or a node that has to be evaluated first. -/
inductive Resolution where
  | value (bit : Bool) (context : Context)
  | descend (source : NodeId)

namespace Surroundings

/-- The state of an input pin: the override, or else what the netlist stores. -/
def pinValue (ctx : Context) (id : NodeId) (pin : InputPin) : Bool :=
  (ctx.pins.get? id).getD pin.state

/-- The value of a link in the previous tick, low if there is none. -/
def delayed (s : Surroundings) (link : Link) : Bool :=
  (s.previous.bind (·.output? link)).getD false

/-- What a slot yields. A missing source is low, a source on the walk closes a feedback loop and
reads the previous tick, a cached source reads the cache, an input pin is cached with its state, and
a gate has to be evaluated first. An output that a cached source does not have is low. It is asked
for only where a gate answered fewer values than it declares, which `Guarded.compute` refuses; the
loop with its checks would evaluate the source once more there (`Guarded.resolve`). -/
def resolve (s : Surroundings) (ctx : Context) : Option Link → Resolution
  | none => .value false ctx
  | some link =>
    match s.netlist.kind? link.node with
    | none => .value false ctx
    | some kind =>
      if ctx.processing.contains link.node then .value (s.delayed link) ctx
      else if (ctx.cached.get? link.node).isSome then
        .value ((ctx.output? link).getD false) ctx
      else
        match kind with
        | .gate _ => .descend link.node
        | .input pin =>
          let state := pinValue ctx link.node pin
          .value state (ctx.cache link.node [state])
        | .output _ => .value false ctx

/-- Let a gate node compute. A hierarchical gate works in the nested context of the node, any
other gate in a context that is thrown away. -/
def fire (s : Surroundings) (id : NodeId) (inputs : Bits) (ctx : Context) : Outcome Bits :=
  if s.netlist.isHierarchical id then
    let inner := (ctx.nested.get? id).getD ∅
    let answer := s.respond id inputs inner (s.previous.bind (·.nested.get? id))
    ⟨answer.value, ctx.setNested id answer.context, answer.calls⟩
  else
    let answer := s.respond id inputs ∅ none
    ⟨answer.value, ctx, answer.calls⟩

end Surroundings

namespace Walk

/-- One step: resolve the next slot of the latest waiting node, or let the node compute when all
its slots are resolved. -/
def step (s : Surroundings) (w : Walk) : Walk :=
  match w.frames with
  | [] => w
  | frame :: waiting =>
    match (s.netlist.slots frame.node)[frame.resolved.length]? with
    | some slot =>
      match s.resolve w.context slot with
      | .value bit context =>
        { w with frames := { frame with resolved := frame.resolved ++ [bit] } :: waiting, context }
      | .descend source =>
        { w with
          frames := ⟨source, []⟩ :: frame :: waiting
          context := w.context.enter source }
    | none =>
      let answer := s.fire frame.node frame.resolved w.context
      { frames := waiting
        context := (answer.context.cache frame.node answer.value).leave
        calls := answer.calls ++ w.calls }

/-- Steps until no node waits, at most `fuel` many. -/
def run (s : Surroundings) : Nat → Walk → Walk
  | 0, w => w
  | fuel + 1, w => if w.frames.isEmpty then w else run s fuel (w.step s)

def start (ctx : Context) (root : NodeId) : Walk := ⟨[⟨root, []⟩], ctx.enter root, []⟩

end Walk

/-- A bound on the steps of a walk: a node is entered at most once, each of its slots is resolved
once, and it computes once. -/
def Netlist.walkBound (nl : Netlist Gate) : Nat :=
  nl.nodes.foldl (fun steps node => steps + node.elim 0 (·.slots.length + 2)) 0

namespace Surroundings

/-- The outputs of a node in this tick. Output pins and missing nodes have none. -/
def evalNode (s : Surroundings) (ctx : Context) (root : NodeId) : Outcome Bits :=
  match ctx.cached.get? root with
  | some outputs => ⟨outputs, ctx, []⟩
  | none =>
    match s.netlist.kind? root with
    | some (.gate _) =>
      let w := (Walk.start ctx root).run s s.netlist.walkBound
      ⟨(w.context.cached.get? root).getD [], w.context, w.calls⟩
    | some (.input pin) =>
      let state := pinValue ctx root pin
      ⟨[state], ctx.cache root [state], []⟩
    | _ => ⟨[], ctx, []⟩

/-- The value of a link in this tick; a missing link or source is low. -/
def evalLink (s : Surroundings) (ctx : Context) : Option Link → Outcome Bool
  | none => ⟨false, ctx, []⟩
  | some link =>
    if s.netlist.isLive link.node then
      let answer := s.evalNode ctx link.node
      ⟨answer.value.getD link.output false, answer.context, answer.calls⟩
    else ⟨false, ctx, []⟩

/-- The value that a boundary output shows in this tick. -/
def readPin (s : Surroundings) (ctx : Context) (pin : NodeId) : Outcome Bool :=
  s.evalLink ctx (s.netlist.source? pin 0)

/-- The values that boundary outputs show, read one after another in one context. -/
def readPins (s : Surroundings) (ctx : Context) : List NodeId → Outcome Bits
  | [] => ⟨[], ctx, []⟩
  | pin :: pins =>
    let first := s.readPin ctx pin
    let others := readPins s first.context pins
    ⟨first.value :: others.value, others.context, others.calls ++ first.calls⟩

def evalNodes (s : Surroundings) (ctx : Context) : List NodeId → Outcome Unit
  | [] => ⟨(), ctx, []⟩
  | id :: ids =>
    let first := s.evalNode ctx id
    let others := evalNodes s first.context ids
    ⟨(), others.context, others.calls ++ first.calls⟩

@[simp] theorem length_readPins (s : Surroundings) (ctx : Context) (pins : List NodeId) :
    (s.readPins ctx pins).value.length = pins.length := by
  induction pins generalizing ctx with
  | nil => rfl
  | cons pin pins ih => simp [readPins, ih]

end Surroundings

end Breadboard
