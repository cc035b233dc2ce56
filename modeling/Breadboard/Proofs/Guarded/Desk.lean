import Breadboard.Proofs.Guarded.Projects
import Breadboard.Simulator

namespace Breadboard

open Netlist

namespace Guarded

def tick (sim : Simulator) : Except Fault (Metered Simulator) := do
  let previous := if sim.ticks = 0 then sim.previous else some sim.current
  let scope := within sim.netlist previous
  let first ← readPins scope ∅ sim.netlist.outputs
  let rest ← evalNodes scope first.context (sim.netlist.live.map (·.1))
  .ok ⟨{ sim with current := rest.context, previous, ticks := sim.ticks + 1 },
    rest.calls ++ first.calls⟩

/-- Edit a netlist. Only the copies of a duplication are looked up without being checked first. -/
def edit (nl : Netlist Gate) : Edit → Except Fault (Netlist Gate)
  | .duplicate ids withPins => do .ok (← duplicate nl ids withPins).2
  | e => .ok (nl.edit e)

end Guarded

/-- The functions of the library that assert something, index without a check, or call such a
function. -/
structure Engine where
  evalNode : Netlist Gate → Option Context → Context → NodeId → Except Fault (Outcome Bits)
  evalLink : Netlist Gate → Option Context → Context → Option Link → Except Fault (Outcome Bool)
  readPin : Netlist Gate → Option Context → Context → NodeId → Except Fault (Outcome Bool)
  compute : Gate → Bits → Context → Option Context → Except Fault (Outcome Bits)
  evaluate : Gate → Bits → Except Fault (Metered (Except GateError Bits))
  truthTable : Gate → Except Fault (Metered (Except GateError (List Bits)))
  tick : Simulator → Except Fault (Metered Simulator)
  edit : Netlist Gate → Edit → Except Fault (Netlist Gate)
  extract : Netlist Gate → List NodeId → Except Fault (Except EditError (Netlist Gate × Copies))
  decompose : Netlist Gate → List NodeId → List NodeId →
    Except Fault (Except BoundaryError Decomposition)
  compile : Netlist Gate → String → List NodeId → List NodeId → Metadata →
    Except Fault (Metered (Except CompileError Gate))
  save : String → Netlist Gate → Metadata → Except Fault GateDef
  compileDef : GateDef → Registry → Except Fault (Metered (Except DefinitionError Gate))
  load : Project → Registry → Except Fault (Metered (Except LoadError (List Registered) × Registry))

namespace Engine

/-- The functions that run. -/
def plain : Engine where
  evalNode nl before ctx id := .ok ((nl.within before).evalNode ctx id)
  evalLink nl before ctx link := .ok ((nl.within before).evalLink ctx link)
  readPin nl before ctx pin := .ok ((nl.within before).readPin ctx pin)
  compute g inputs ctx before := .ok (g.compute inputs ctx before)
  evaluate g inputs := .ok (g.evaluate inputs)
  truthTable g := .ok g.truthTable
  tick sim := .ok sim.tick
  edit nl e := .ok (nl.edit e)
  extract nl ids := .ok (nl.extract ids)
  decompose nl inputs outputs := .ok (nl.decompose inputs outputs)
  compile nl name inputs outputs metadata :=
    .ok (nl.compileBetween name inputs outputs metadata)
  save name nl metadata := .ok (GateDef.ofNetlist name nl metadata)
  compileDef d registry := .ok (d.compile registry)
  load p registry := .ok (p.load registry)

/-- The same functions with a fault wherever a check does not hold. -/
def guarded : Engine where
  evalNode nl before := Guarded.evalNode (Guarded.within nl before)
  evalLink nl before := Guarded.evalLink (Guarded.within nl before)
  readPin nl before := Guarded.readPin (Guarded.within nl before)
  compute := Guarded.compute
  evaluate := Guarded.evaluate
  truthTable := Guarded.truthTable
  tick := Guarded.tick
  edit := Guarded.edit
  extract := Guarded.extract
  decompose := Guarded.decompose
  compile := Guarded.compileBetween
  save := Guarded.ofNetlist
  compileDef := Guarded.compileDef
  load := Guarded.load

end Engine

/-- Two runs without a fault that end in the same result, which has a property. -/
def Faultless {α : Type} (P : α → Prop) (guarded plain : Except Fault α) : Prop :=
  ∃ a, guarded = .ok a ∧ plain = .ok a ∧ P a

namespace Faultless

variable {α β : Type} {P : α → Prop} {Q : β → Prop} {guarded plain : Except Fault α}

theorem ok {a : α} (h : P a) : Faultless P (.ok a) (.ok a) := ⟨a, rfl, rfl, h⟩

theorem of_eq {a : α} (he : guarded = .ok a) (h : P a) : Faultless P guarded (.ok a) :=
  ⟨a, he, rfl, h⟩

theorem bind (h : Faultless P guarded plain) {f f' : α → Except Fault β}
    (hf : ∀ a, P a → Faultless Q (f a) (f' a)) : Faultless Q (guarded >>= f) (plain >>= f') := by
  obtain ⟨a, rfl, rfl, ha⟩ := h
  exact hf a ha

/-- A run whose result is not kept. -/
theorem discard {a : α} {b : β} (he : guarded = .ok a) (hb : Q b) :
    Faultless Q (guarded >>= fun _ => .ok b) (Except.ok a >>= fun _ => .ok b) :=
  (of_eq he trivial : Faultless (fun _ => True) guarded (.ok a)).bind fun _ _ => .ok hb

end Faultless

/-- Replace the entry at a place, if there is one. -/
def updateAt {α : Type} (as : List α) (k : Nat) (f : α → Except Fault α) : Except Fault (List α) :=
  match as[k]? with
  | none => .ok as
  | some a => do .ok (as.set k (← f a))

theorem forall_mem_set {α : Type} {P : α → Prop} {as : List α} (h : ∀ a ∈ as, P a) (k : Nat)
    {b : α} (hb : P b) : ∀ a ∈ as.set k b, P a := by
  intro a ha
  rcases List.mem_or_eq_of_mem_set ha with ha | rfl
  · exact h a ha
  · exact hb

theorem faultless_updateAt {α : Type} {P : α → Prop} {as : List α} (h : ∀ a ∈ as, P a) (k : Nat)
    {f f' : α → Except Fault α} (hf : ∀ a, P a → Faultless P (f a) (f' a)) :
    Faultless (∀ a ∈ ·, P a) (updateAt as k f) (updateAt as k f') := by
  unfold updateAt
  cases hk : as[k]? with
  | none => exact .ok h
  | some a =>
    exact (hf a (h a (List.mem_of_getElem? hk))).bind fun b hb => .ok (forall_mem_set h k hb)

theorem forall_mem_append_singleton {α : Type} {P : α → Prop} {as : List α} (h : ∀ a ∈ as, P a)
    {b : α} (hb : P b) : ∀ a ∈ as ++ [b], P a :=
  List.forall_mem_append.2 ⟨h, List.forall_mem_singleton.2 hb⟩

/-- A single evaluation in a context. -/
inductive Probe where
  | node (id : NodeId)
  | link (link : Option Link)
  | pin (id : NodeId)

/-- The context that an evaluation leaves. -/
def Engine.probe (engine : Engine) (nl : Netlist Gate) (before : Option Context) (ctx : Context) :
    Probe → Except Fault Context
  | .node id => do .ok (← engine.evalNode nl before ctx id).context
  | .link link => do .ok (← engine.evalLink nl before ctx link).context
  | .pin id => do .ok (← engine.readPin nl before ctx id).context

/-- A simulated netlist, and the contexts that only it was evaluated in. -/
structure Desk where
  sim : Simulator := {}
  contexts : List Context := []

/-- A gate type, and the contexts that only it computed in and only its internal netlist was
evaluated in. -/
structure Stock where
  gate : Gate
  contexts : List Context := []

/-- The gate that an edit places. -/
def Edit.placed? : Edit → Option Gate
  | .place g => some g
  | _ => none

/-- What can be done at one netlist alone; a gate to place comes from elsewhere. An evaluation may
take any context for the one of the previous tick. -/
inductive DeskOperation where
  | edit (e : Edit) (h : e.placed? = none)
  | tick
  | openContext (pins : List (NodeId × Bool))
  | copyContext (k : Nat)
  | keepCurrent
  | keepPrevious
  | setPin (k : Nat) (id : NodeId) (value : Bool)
  | probe (k : Nat) (p : Probe) (before : Option Context)
  | decompose (inputs outputs : List NodeId)
  | save (name : String) (metadata : Metadata)

/-- What can be done with one gate type alone. The gate computes only for one value per input. -/
inductive StockOperation where
  | openContext (pins : List (NodeId × Bool))
  | setPin (k : Nat) (id : NodeId) (value : Bool)
  | probe (k : Nat) (p : Probe) (before : Option Context)
  | compute (k : Nat) (inputs : Bits) (before : Option Context)
  | evaluate (inputs : Bits)
  | truthTable

namespace Desk

def ofNetlist (nl : Netlist Gate) : Desk := { sim := .ofNetlist nl }

def edit (engine : Engine) (desk : Desk) (e : Edit) : Except Fault Desk := do
  .ok { desk with sim := { desk.sim with netlist := ← engine.edit desk.sim.netlist e } }

def perform (engine : Engine) (desk : Desk) : DeskOperation → Except Fault Desk
  | .edit e _ => desk.edit engine e
  | .tick => do .ok { desk with sim := (← engine.tick desk.sim).value }
  | .openContext pins => .ok { desk with contexts := desk.contexts ++ [.withPins pins] }
  | .copyContext k => .ok { desk with contexts := desk.contexts ++ desk.contexts[k]?.toList }
  | .keepCurrent => .ok { desk with contexts := desk.contexts ++ [desk.sim.current] }
  | .keepPrevious => .ok { desk with contexts := desk.contexts ++ desk.sim.previous.toList }
  | .setPin k id value => do
    let contexts ← updateAt desk.contexts k fun ctx => .ok (ctx.setPin id value)
    .ok { desk with contexts }
  | .probe k p before => do
    let contexts ← updateAt desk.contexts k (engine.probe desk.sim.netlist before · p)
    .ok { desk with contexts }
  | .decompose inputs outputs => do
    let _ ← engine.decompose desk.sim.netlist inputs outputs
    .ok desk
  | .save name metadata => do
    let _ ← engine.save name desk.sim.netlist metadata
    .ok desk

/-- A well-formed netlist of sound gates, with contexts that can be used further. -/
structure Sound (desk : Desk) : Prop where
  netlist : desk.sim.netlist.Sound
  current : desk.sim.current.Usable desk.sim.netlist
  previous : ∀ ctx ∈ desk.sim.previous, ctx.Usable desk.sim.netlist
  contexts : ∀ ctx ∈ desk.contexts, ctx.Usable desk.sim.netlist

end Desk

namespace Stock

def perform (engine : Engine) (stock : Stock) : StockOperation → Except Fault Stock
  | .openContext pins => .ok { stock with contexts := stock.contexts ++ [.withPins pins] }
  | .setPin k id value => do
    let contexts ← updateAt stock.contexts k fun ctx => .ok (ctx.setPin id value)
    .ok { stock with contexts }
  | .probe k p before =>
    match stock.gate.internals? with
    | none => .ok stock
    | some nl => do
      let contexts ← updateAt stock.contexts k (engine.probe nl before · p)
      .ok { stock with contexts }
  | .compute k inputs before =>
    if inputs.length = stock.gate.inputs.length then do
      let contexts ← updateAt stock.contexts k fun ctx => do
        .ok (← engine.compute stock.gate inputs ctx before).context
      .ok { stock with contexts }
    else .ok stock
  | .evaluate inputs => do
    let _ ← engine.evaluate stock.gate inputs
    .ok stock
  | .truthTable => do
    let _ ← engine.truthTable stock.gate
    .ok stock

structure Sound (stock : Stock) : Prop where
  gate : stock.gate.Sound
  contexts : ∀ ctx ∈ stock.contexts, ctx.Serves stock.gate

end Stock

variable {nl : Netlist Gate} {ctx : Context} {sim : Simulator}

namespace Guarded

theorem edit_eq (nl : Netlist Gate) (e : Edit) : edit nl e = .ok (nl.edit e) := by
  cases e with
  | duplicate ids withPins => rw [edit, duplicate_eq, ok_bind, Netlist.edit]
  | _ => rfl

theorem tick_eq (hs : sim.netlist.Sound) :
    tick sim = .ok sim.tick ∧ sim.tick.value.current.Usable sim.netlist := by
  have hempty : (∅ : Context).Usable sim.netlist := Context.usable_fresh _ ∅
  have hsafe := hs.safe (if sim.ticks = 0 then sim.previous else some sim.current)
  have hfirst := runs_readPins hsafe hempty sim.netlist.outputs
  have hrest := runs_evalNodes hsafe hfirst.usable (sim.netlist.live.map (·.1))
  constructor
  · rw [tick, hfirst.eq, ok_bind, hrest.eq, ok_bind]
    rfl
  · exact hrest.usable

end Guarded

theorem faultless_probe (hs : nl.Sound) (hu : ctx.Usable nl) (before : Option Context) (p : Probe) :
    Faultless (·.Usable nl) (Engine.guarded.probe nl before ctx p)
      (Engine.plain.probe nl before ctx p) := by
  have hsafe := hs.safe before
  cases p with
  | node id =>
    have h := Guarded.runs_evalNode hsafe hu id
    exact (Faultless.of_eq h.eq h.usable).bind fun _ hu => .ok hu
  | link link =>
    have h := Guarded.runs_evalLink hsafe hu link
    exact (Faultless.of_eq h.eq h.usable).bind fun _ hu => .ok hu
  | pin id =>
    have h := Guarded.runs_readPin hsafe hu id
    exact (Faultless.of_eq h.eq h.usable).bind fun _ hu => .ok hu

namespace Desk.Sound

variable {desk : Desk}

theorem ofNetlist (hs : nl.Sound) : (Desk.ofNetlist nl).Sound where
  netlist := hs
  current := Context.usable_fresh nl ∅
  previous _ h := nomatch h
  contexts _ h := nomatch h

/-- The contexts of the desk stay usable while its netlist is edited. -/
theorem edit (h : desk.Sound) {e : Edit} (hp : ∀ g, e = .place g → g.Sound) :
    Faultless Sound (desk.edit .guarded e) (desk.edit .plain e) := by
  have hl := later_edit desk.sim.netlist e
  refine (Faultless.of_eq (Guarded.edit_eq _ e) rfl).bind fun nl hnl => .ok ?_
  subst hnl
  exact ⟨h.netlist.edit hp, h.current.later hl, fun ctx hc => (h.previous ctx hc).later hl,
    fun ctx hc => (h.contexts ctx hc).later hl⟩

theorem tick (h : desk.Sound) : Faultless Sound (desk.perform .guarded .tick)
    (desk.perform .plain .tick) := by
  obtain ⟨htick, hu⟩ := Guarded.tick_eq h.netlist
  refine (Faultless.of_eq htick rfl).bind fun ticked ht => .ok ?_
  subst ht
  refine ⟨h.netlist, hu, fun ctx hc => ?_, h.contexts⟩
  change ctx ∈ (if desk.sim.ticks = 0 then desk.sim.previous else some desk.sim.current) at hc
  split at hc
  · exact h.previous ctx hc
  · obtain rfl := Option.some.inj hc
    exact h.current

/-- Whatever is done at a desk, it commits no fault and leaves a sound desk. -/
theorem perform (h : desk.Sound) (op : DeskOperation) :
    Faultless Sound (desk.perform .guarded op) (desk.perform .plain op) := by
  have hcontexts {contexts : List Context} (hc : ∀ ctx ∈ contexts, ctx.Usable desk.sim.netlist) :
      Sound { desk with contexts } := ⟨h.netlist, h.current, h.previous, hc⟩
  cases op with
  | edit e he => exact h.edit fun g hg => by simp [hg, Edit.placed?] at he
  | tick => exact h.tick
  | openContext pins =>
    exact .ok (hcontexts (forall_mem_append_singleton h.contexts (Context.usable_fresh _ _)))
  | copyContext k =>
    refine .ok (hcontexts (List.forall_mem_append.2 ⟨h.contexts, fun ctx hc => ?_⟩))
    exact h.contexts ctx (List.mem_of_getElem? (Option.mem_toList.1 hc))
  | keepCurrent => exact .ok (hcontexts (forall_mem_append_singleton h.contexts h.current))
  | keepPrevious =>
    refine .ok (hcontexts (List.forall_mem_append.2 ⟨h.contexts, fun ctx hc => ?_⟩))
    exact h.previous ctx (Option.mem_toList.1 hc)
  | setPin k id value =>
    exact (faultless_updateAt h.contexts k fun ctx hu => .ok (hu.setPin id value)).bind
      fun _ hc => .ok (hcontexts hc)
  | probe k p before =>
    exact (faultless_updateAt h.contexts k fun ctx hu =>
      faultless_probe h.netlist hu before p).bind fun _ hc => .ok (hcontexts hc)
  | decompose inputs outputs =>
    exact .discard (Guarded.decompose_eq h.netlist.wellFormed inputs outputs) h
  | save name metadata =>
    exact .discard (Guarded.ofNetlist_eq name desk.sim.netlist metadata) h

end Desk.Sound

theorem Context.Serves.setPin {g : Gate} (h : ctx.Serves g) (id : NodeId) (value : Bool) :
    (ctx.setPin id value).Serves g := fun nl hl => (h nl hl).setPin id value

theorem Gate.internals?_eq_some_iff {g : Gate} :
    g.internals? = some nl ↔ g.logic = .hierarchical nl := by
  unfold Gate.internals?
  cases g.logic <;> simp

/-- Whatever is done with a gate type, it commits no fault and leaves the contexts usable. -/
theorem Stock.Sound.perform {stock : Stock} (h : stock.Sound) (op : StockOperation) :
    Faultless Sound (stock.perform .guarded op) (stock.perform .plain op) := by
  have hcontexts {contexts : List Context} (hc : ∀ ctx ∈ contexts, ctx.Serves stock.gate) :
      Sound { stock with contexts } := ⟨h.gate, hc⟩
  cases op with
  | openContext pins =>
    exact .ok (hcontexts (forall_mem_append_singleton h.contexts
      fun nl _ => Context.usable_fresh nl _))
  | setPin k id value =>
    exact (faultless_updateAt h.contexts k fun ctx hs => .ok (hs.setPin id value)).bind
      fun _ hc => .ok (hcontexts hc)
  | probe k p before =>
    unfold Stock.perform
    cases hi : stock.gate.internals? with
    | none => exact .ok h
    | some nl =>
      have hl := Gate.internals?_eq_some_iff.1 hi
      refine (faultless_updateAt h.contexts k fun ctx hs => ?_).bind fun _ hc => .ok (hcontexts hc)
      obtain ⟨ctx', hg, hp, hu⟩ := faultless_probe (h.gate.internals hl) (hs nl hl) before p
      refine ⟨ctx', hg, hp, fun nl' hl' => ?_⟩
      obtain rfl := Logic.hierarchical.inj (hl.symm.trans hl')
      exact hu
  | compute k inputs before =>
    simp only [Stock.perform]
    split
    · next hi =>
      refine (faultless_updateAt h.contexts k fun ctx hs => ?_).bind fun _ hc => .ok (hcontexts hc)
      have hanswer := h.gate.answers hi hs before
      exact (Faultless.of_eq hanswer.eq hanswer.serves).bind fun _ hs => .ok hs
    · exact .ok h
  | evaluate inputs => exact .discard (Guarded.evaluate_eq h.gate inputs) h
  | truthTable => exact .discard (Guarded.truthTable_eq h.gate) h

end Breadboard
