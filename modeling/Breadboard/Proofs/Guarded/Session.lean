import Breadboard.Proofs.Guarded.Desk

namespace Breadboard

open Netlist

/-- Register a gate type, if its name may be used. -/
def Registry.offer (registry : Registry) (g : Gate) : Registry :=
  match registry.register g with
  | .error _ => registry
  | .ok (_, registry) => registry

/-- Register what has the name again. -/
def Registry.offerAgain (registry : Registry) (name : String) : Registry :=
  match registry.get? name with
  | none => registry
  | some entry =>
    match registry.registerAgain entry with
    | .error _ => registry
    | .ok registry => registry

/-- The netlists, gate types and registries that were made so far. -/
structure Session where
  desks : List Desk := []
  stocks : List Stock := []
  registries : List Registry := []

/-- An operation of the library. Netlists, gate types and registries are given by their numbers in
the session; what an operation makes gets the next number. -/
inductive Operation where
  | define (name : String) (inputs outputs : List String) (cell : Cell)
  | primitive (p : Primitive)
  | relabel (stock : Nat) (metadata : Metadata)
  | withGate (stock : Nat) (op : StockOperation)
  | internals (stock : Nat)
  | enterInternals (stock context : Nat) (id : NodeId)
  | create
  | copy (desk : Nat)
  | atDesk (desk : Nat) (op : DeskOperation)
  | enterPlacement (desk context : Nat) (id : NodeId)
  | place (desk stock : Nat)
  | extract (desk : Nat) (ids : List NodeId)
  | compile (desk : Nat) (name : String) (inputs outputs : List NodeId) (metadata : Metadata)
  | openEmpty (policy : ConflictPolicy)
  | openStandard (policy : ConflictPolicy)
  | setPolicy (registry : Nat) (policy : ConflictPolicy)
  | register (registry stock : Nat)
  | registerAgain (registry : Nat) (name : String)
  | resolve (registry : Nat) (name : String)
  | rehydrate (registry : Nat) (d : GateDef)
  | compileDef (registry : Nat) (d : GateDef)
  | load (registry : Nat) (p : Project)

/-- A function that defines a gate answers one value for each declared output. -/
def Operation.Declared : Operation → Prop
  | .define _ inputs outputs cell =>
    ∀ row, row.length = inputs.length → (cell.eval row).length = outputs.length
  | _ => True

namespace Session

def addDesk (s : Session) (nl : Netlist Gate) : Session :=
  { s with desks := s.desks ++ [.ofNetlist nl] }

def addGates (s : Session) (gates : List Gate) : Session :=
  { s with stocks := s.stocks ++ gates.map fun gate => { gate } }

/-- Keep the gate types that were made, if they were. -/
def addMade {ε : Type} (s : Session) : Except ε (List Gate) → Session
  | .error _ => s
  | .ok gates => s.addGates gates

/-- Keep the gate type that is placed at a node, with a copy of the context of the placement. -/
def addPlacement (s : Session) (nl : Netlist Gate) (ctx : Context) (id : NodeId) : Session :=
  match nl.gate? id, ctx.nested.get? id with
  | some gate, some inner => { s with stocks := s.stocks ++ [{ gate, contexts := [inner] }] }
  | _, _ => s

def addRegistry (s : Session) (registry : Registry) : Session :=
  { s with registries := s.registries ++ [registry] }

/-- Do something with an entry of a list, if there is one. -/
def visit {α : Type} (s : Session) (as : List α) (k : Nat) (f : α → Except Fault Session) :
    Except Fault Session :=
  match as[k]? with
  | none => .ok s
  | some a => f a

def changeDesk (s : Session) (k : Nat) (f : Desk → Except Fault Desk) : Except Fault Session := do
  let desks ← updateAt s.desks k f
  .ok { s with desks }

def changeRegistry (s : Session) (k : Nat) (f : Registry → Registry) : Except Fault Session := do
  let registries ← updateAt s.registries k fun registry => .ok (f registry)
  .ok { s with registries }

def perform (engine : Engine) (s : Session) : Operation → Except Fault Session
  | .define name inputs outputs cell =>
    .ok (s.addGates [{ name, inputs, outputs, logic := .primitive cell, metadata := ∅ }])
  | .primitive p => .ok (s.addGates [p.gate])
  | .relabel k metadata => s.visit s.stocks k fun stock =>
    .ok (s.addGates [stock.gate.withMetadata metadata])
  | .withGate k op => do
    let stocks ← updateAt s.stocks k (·.perform engine op)
    .ok { s with stocks }
  | .internals k => s.visit s.stocks k fun stock =>
    match stock.gate.internals? with
    | none => .ok s
    | some nl => .ok (s.addDesk nl)
  | .enterInternals k context id => s.visit s.stocks k fun stock =>
    match stock.gate.internals? with
    | none => .ok s
    | some nl => s.visit stock.contexts context fun ctx => .ok (s.addPlacement nl ctx id)
  | .create => .ok (s.addDesk ∅)
  | .copy k => s.visit s.desks k fun desk => .ok (s.addDesk desk.sim.netlist)
  | .atDesk k op => s.changeDesk k (·.perform engine op)
  | .enterPlacement k context id => s.visit s.desks k fun desk =>
    s.visit desk.contexts context fun ctx => .ok (s.addPlacement desk.sim.netlist ctx id)
  | .place k stock => s.visit s.stocks stock fun stock =>
    s.changeDesk k (·.edit engine (.place stock.gate))
  | .extract k ids => s.visit s.desks k fun desk => do
    match ← engine.extract desk.sim.netlist ids with
    | .error _ => .ok s
    | .ok (part, _) => .ok (s.addDesk part)
  | .compile k name inputs outputs metadata => s.visit s.desks k fun desk => do
    let compiled ← engine.compile desk.sim.netlist name inputs outputs metadata
    .ok (s.addMade (compiled.value.map ([·])))
  | .openEmpty policy => .ok (s.addRegistry (.empty policy))
  | .openStandard policy => .ok (s.addRegistry (.standard policy))
  | .setPolicy k policy => s.changeRegistry k ({ · with policy })
  | .register k stock => s.visit s.stocks stock fun stock =>
    s.changeRegistry k (·.offer stock.gate)
  | .registerAgain k name => s.changeRegistry k (·.offerAgain name)
  | .resolve k name => s.visit s.registries k fun registry =>
    .ok (s.addMade ((registry.resolve name).map ([·.gate])))
  | .rehydrate k d => s.visit s.registries k fun registry =>
    match d.toNetlist registry with
    | .error _ => .ok s
    | .ok nl => .ok (s.addDesk nl)
  | .compileDef k d => s.visit s.registries k fun registry => do
    let compiled ← engine.compileDef d registry
    .ok (s.addMade (compiled.value.map ([·])))
  | .load k p => s.visit s.registries k fun registry => do
    let loaded ← engine.load p registry
    let s ← s.changeRegistry k fun _ => loaded.value.2
    .ok (s.addMade (loaded.value.1.map (·.map (·.gate))))

def run (engine : Engine) (s : Session) : List Operation → Except Fault Session
  | [] => .ok s
  | op :: ops => do (← s.perform engine op).run engine ops

/-- A session in which everything that was made can be used further. -/
structure Sound (s : Session) : Prop where
  desks : ∀ desk ∈ s.desks, desk.Sound
  stocks : ∀ stock ∈ s.stocks, stock.Sound
  registries : ∀ registry ∈ s.registries, registry.Sound

theorem sound_empty : ({} : Session).Sound :=
  ⟨List.forall_mem_nil _, List.forall_mem_nil _, List.forall_mem_nil _⟩

end Session

theorem Registry.Sound.offer {registry : Registry} (h : registry.Sound) {g : Gate} (hg : g.Sound) :
    (registry.offer g).Sound := by
  unfold Registry.offer
  cases hr : registry.register g with
  | error cause => exact h
  | ok added => exact (h.register hg hr).2

theorem Registry.Sound.offerAgain {registry : Registry} (h : registry.Sound) (name : String) :
    (registry.offerAgain name).Sound := by
  unfold Registry.offerAgain
  cases hf : registry.get? name with
  | none => exact h
  | some entry =>
    dsimp only
    cases hr : registry.registerAgain entry with
    | error cause => exact h
    | ok added => exact h.registerAgain (h name entry hf) hr

namespace Session

variable {s : Session}

theorem faultless_visit (h : s.Sound) {α : Type} {P : α → Prop} {as : List α}
    (ha : ∀ a ∈ as, P a) (k : Nat) {f f' : α → Except Fault Session}
    (hf : ∀ a, P a → Faultless Sound (f a) (f' a)) :
    Faultless Sound (s.visit as k f) (s.visit as k f') := by
  unfold visit
  cases hk : as[k]? with
  | none => exact .ok h
  | some a => exact hf a (ha a (List.mem_of_getElem? hk))

namespace Sound

theorem addDesk (h : s.Sound) {nl : Netlist Gate} (hs : nl.Sound) : (s.addDesk nl).Sound :=
  ⟨forall_mem_append_singleton h.desks (.ofNetlist hs), h.stocks, h.registries⟩

theorem addGates (h : s.Sound) {gates : List Gate} (hg : ∀ g ∈ gates, g.Sound) :
    (s.addGates gates).Sound := by
  refine ⟨h.desks, List.forall_mem_append.2 ⟨h.stocks, fun stock hm => ?_⟩, h.registries⟩
  obtain ⟨g, hmem, rfl⟩ := List.mem_map.1 hm
  exact ⟨hg g hmem, List.forall_mem_nil _⟩

theorem addGate (h : s.Sound) {g : Gate} (hg : g.Sound) : (s.addGates [g]).Sound :=
  h.addGates (List.forall_mem_singleton.2 hg)

theorem addMade (h : s.Sound) {α ε : Type} {made : Except ε α} {f : α → List Gate}
    (hm : ∀ a, made = .ok a → ∀ g ∈ f a, g.Sound) : (s.addMade (made.map f)).Sound := by
  cases made with
  | error e => exact h
  | ok a => exact h.addGates (hm a rfl)

theorem addPlacement (h : s.Sound) {nl : Netlist Gate} (hs : nl.Sound) {ctx : Context}
    (hu : ctx.Usable nl) (id : NodeId) : (s.addPlacement nl ctx id).Sound := by
  unfold Session.addPlacement
  split
  · next g inner hg hn =>
    have hr := gate?_eq_some_iff.1 hg
    have hsound : g.Sound := hs.made id g hr
    have hstock : Stock.Sound { gate := g, contexts := [inner] } :=
      ⟨hsound, List.forall_mem_singleton.2 (hsound.serves (hu.left hn hr hsound))⟩
    exact ⟨h.desks, forall_mem_append_singleton h.stocks hstock, h.registries⟩
  · exact h

theorem addRegistry (h : s.Sound) {registry : Registry} (hr : registry.Sound) :
    (s.addRegistry registry).Sound :=
  ⟨h.desks, h.stocks, forall_mem_append_singleton h.registries hr⟩

theorem changeDesk (h : s.Sound) (k : Nat) {f f' : Desk → Except Fault Desk}
    (hf : ∀ desk, desk.Sound → Faultless Desk.Sound (f desk) (f' desk)) :
    Faultless Sound (s.changeDesk k f) (s.changeDesk k f') :=
  (faultless_updateAt h.desks k hf).bind fun _ hm => .ok ⟨hm, h.stocks, h.registries⟩

theorem changeRegistry (h : s.Sound) (k : Nat) {f : Registry → Registry}
    (hf : ∀ registry, registry.Sound → (f registry).Sound) :
    Faultless Sound (s.changeRegistry k f) (s.changeRegistry k f) :=
  (faultless_updateAt h.registries k fun registry hr => .ok (hf registry hr)).bind
    fun _ hm => .ok ⟨h.desks, h.stocks, hm⟩

/-- Whatever is done, it commits no fault, and everything that was made can be used further. -/
theorem perform (h : s.Sound) {op : Operation} (hd : op.Declared) :
    Faultless Sound (s.perform .guarded op) (s.perform .plain op) := by
  -- What an operation makes is sound because what it is made of is; `hd` is for new functions only.
  cases op with
  | define name inputs outputs cell => exact .ok (h.addGate (.primitive rfl hd))
  | primitive p => exact .ok (h.addGate p.sound)
  | relabel k metadata =>
    exact faultless_visit h h.stocks k fun stock hs => .ok (h.addGate (hs.gate.congr rfl rfl rfl))
  | withGate k op =>
    exact (faultless_updateAt h.stocks k fun stock hs => hs.perform op).bind
      fun _ hm => .ok ⟨h.desks, hm, h.registries⟩
  | internals k =>
    refine faultless_visit h h.stocks k fun stock hs => ?_
    cases hi : stock.gate.internals? with
    | none => exact .ok h
    | some nl => exact .ok (h.addDesk (hs.gate.internals (Gate.internals?_eq_some_iff.1 hi)))
  | enterInternals k context id =>
    refine faultless_visit h h.stocks k fun stock hs => ?_
    cases hi : stock.gate.internals? with
    | none => exact .ok h
    | some nl =>
      have hl := Gate.internals?_eq_some_iff.1 hi
      exact faultless_visit h hs.contexts context fun ctx hc =>
        .ok (h.addPlacement (hs.gate.internals hl) (hc nl hl) id)
  | create => exact .ok (h.addDesk Netlist.sound_empty)
  | copy k => exact faultless_visit h h.desks k fun desk hs => .ok (h.addDesk hs.netlist)
  | atDesk k op => exact h.changeDesk k fun desk hs => hs.perform op
  | enterPlacement k context id =>
    exact faultless_visit h h.desks k fun desk hs =>
      faultless_visit h hs.contexts context fun ctx hu => .ok (h.addPlacement hs.netlist hu id)
  | place k stock =>
    refine faultless_visit h h.stocks stock fun stock hs => h.changeDesk k fun desk hd => ?_
    exact hd.edit fun g hg => Edit.place.inj hg ▸ hs.gate
  | extract k ids =>
    refine faultless_visit h h.desks k fun desk hs => ?_
    refine (Faultless.of_eq (Guarded.extract_eq _ ids) rfl).bind fun answer he => ?_
    cases answer with
    | error e => exact .ok h
    | ok extracted =>
      obtain ⟨part, copies⟩ := extracted
      exact .ok (h.addDesk (hs.netlist.extract he))
  | compile k name inputs outputs metadata =>
    refine faultless_visit h h.desks k fun desk hs => ?_
    have hc := Guarded.compileBetween_eq hs.netlist name inputs outputs metadata
    refine (Faultless.of_eq hc rfl).bind fun compiled he => .ok (h.addMade fun g hg => ?_)
    exact List.forall_mem_singleton.2 (Guarded.sound_compileBetween hs.netlist (he ▸ hg))
  | openEmpty policy => exact .ok (h.addRegistry (Registry.sound_empty policy))
  | openStandard policy => exact .ok (h.addRegistry (Registry.sound_standard policy))
  | setPolicy k policy => exact h.changeRegistry k fun registry hr name entry hf => hr name entry hf
  | register k stock =>
    exact faultless_visit h h.stocks stock fun stock hs =>
      h.changeRegistry k fun registry hr => hr.offer hs.gate
  | registerAgain k name => exact h.changeRegistry k fun registry hr => hr.offerAgain name
  | resolve k name =>
    refine faultless_visit h h.registries k fun registry hr => .ok (h.addMade fun entry he => ?_)
    exact List.forall_mem_singleton.2 (hr name entry (Registry.resolve_eq_ok.1 he))
  | rehydrate k d =>
    refine faultless_visit h h.registries k fun registry hr => ?_
    cases ht : d.toNetlist registry with
    | error cause => exact .ok h
    | ok nl => exact .ok (h.addDesk (Guarded.sound_toNetlist hr ht))
  | compileDef k d =>
    refine faultless_visit h h.registries k fun registry hr => ?_
    obtain ⟨hcompile, hmade⟩ := Guarded.compileDef_eq hr d
    refine (Faultless.of_eq hcompile rfl).bind fun compiled he => .ok (h.addMade fun g hg => ?_)
    exact List.forall_mem_singleton.2 (hmade g (he ▸ hg))
  | load k p =>
    refine faultless_visit h h.registries k fun registry hr => ?_
    obtain ⟨hload, hnext, hmade⟩ := Guarded.load_eq hr p
    refine (Faultless.of_eq hload rfl).bind fun loaded hl => ?_
    subst hl
    refine (h.changeRegistry k fun _ _ => hnext).bind fun s hs => .ok (hs.addMade ?_)
    exact fun entries he => List.forall_mem_map.2 (hmade entries he)

theorem run (h : s.Sound) {ops : List Operation} (hd : ∀ op ∈ ops, op.Declared) :
    Faultless Sound (s.run .guarded ops) (s.run .plain ops) := by
  induction ops generalizing s with
  | nil => exact .ok h
  | cons op ops ih =>
    obtain ⟨hop, hd⟩ := List.forall_mem_cons.1 hd
    exact (h.perform hop).bind fun s' hs => ih hs hd

end Sound

/-- No check of the library ever fails: every sequence of operations runs with guards as it does
without them, and leaves a session in which everything can be used further. -/
theorem faultless {ops : List Operation} (hd : ∀ op ∈ ops, op.Declared) :
    ∃ s : Session, run .guarded {} ops = .ok s ∧ run .plain {} ops = .ok s ∧ s.Sound :=
  sound_empty.run hd

/-- A latch of two gates that answer each other, ticked, evaluated, copied between two evaluations
in one context, compiled, extracted, placed, entered, registered and saved. -/
def latchSession : List Operation :=
  [.define "NOR" ["A", "B"] ["X"] ⟨0, fun row => [!row.any id]⟩, .create,
    .atDesk 0 (.edit (.addInput "S") rfl), .atDesk 0 (.edit (.addInput "R") rfl),
    .place 0 0, .place 0 0, .atDesk 0 (.edit (.addOutput "Q") rfl),
    .atDesk 0 (.edit (.link 2 0 1 0) rfl), .atDesk 0 (.edit (.link 2 1 3 0) rfl),
    .atDesk 0 (.edit (.link 3 0 0 0) rfl), .atDesk 0 (.edit (.link 3 1 2 0) rfl),
    .atDesk 0 (.edit (.link 4 0 2 0) rfl), .atDesk 0 .tick,
    .atDesk 0 (.openContext [(0, true)]), .atDesk 0 (.probe 0 (.pin 4) none),
    .atDesk 0 (.edit (.duplicate [2, 3] false) rfl), .atDesk 0 (.probe 0 (.node 5) none),
    .compile 0 "LATCH" [0, 1] [4] ∅, .withGate 1 (.evaluate [true, false]),
    .withGate 1 .truthTable, .extract 0 [2, 3], .place 1 1, .atDesk 1 .tick,
    .atDesk 1 .keepCurrent, .enterPlacement 1 0 2, .withGate 2 (.probe 0 (.pin 2) none),
    .openStandard .reject, .register 0 1, .resolve 0 "LATCH", .atDesk 0 (.save "KEPT" ∅)]

/-- The latch is compiled, found where it was placed, and found under its name. -/
theorem faultless_latchSession : (∀ op ∈ latchSession, op.Declared) ∧
    (∃ s : Session, run .guarded {} latchSession = .ok s ∧ run .plain {} latchSession = .ok s ∧
      s.Sound) ∧
    (run .plain {} latchSession).map (fun s => (s.desks.length, s.stocks.length)) =
      .ok (2, 4) := by
  have hd : ∀ op ∈ latchSession, op.Declared := by simp [latchSession, Operation.Declared]
  exact ⟨hd, faultless hd, by cbv⟩

/-- A function that answers too few values is a fault as soon as it computes. -/
example : (run .guarded {} [.define "NOT" ["A"] ["X"] ⟨0, fun _ => []⟩,
    .withGate 0 (.evaluate [true])]).map (fun s => s.stocks.length) =
      .error (.outputCount "NOT" 1 0) := by cbv

end Session

end Breadboard
