import Breadboard.Proofs.Evaluation.Turns
import Breadboard.Proofs.Guarded.Tables
import Breadboard.Proofs.Netlist.Edits

namespace Breadboard

open Netlist

/-- A gate all of whose parts fit: a cell that answers one value for each output, tables that fit
the pins, or a netlist with an output pin for each output, made of such gates. -/
inductive Gate.Sound : Gate → Prop where
  | primitive {g : Gate} {cell : Cell} (h : g.logic = .primitive cell)
      (hc : ∀ inputs, inputs.length = g.inputs.length →
        (cell.eval inputs).length = g.outputs.length) : Sound g
  | tables {g : Gate} {logic : TableLogic} (h : g.logic = .tables logic)
      (hl : logic.Sound g.inputs.length g.outputs.length) : Sound g
  | hierarchical {g : Gate} {nl : Netlist Gate} (h : g.logic = .hierarchical nl)
      (hw : nl.WellFormed) (ho : nl.outputs.length = g.outputs.length)
      (hp : ∀ {id placed}, nl.role? id = some (.gate placed) → Sound placed) : Sound g

/-- A context that the gate left when it computed once in a fresh one. -/
def Gate.Leaves (g : Gate) (inner : Context) : Prop :=
  ∃ inputs before, inputs.length = g.inputs.length ∧ inner = (g.compute inputs ∅ before).context

/-- What a context has cached matches the nodes of a netlist: handles that were given out, with as
many values as the node has outputs, and no context for a node that is not cached. The context of a
placed gate is the one that the gate left, if its parts fit. -/
structure Context.Matches (nl : Netlist Gate) (ctx : Context) : Prop where
  known : ∀ {id}, ctx.cached.get? id ≠ none → id < nl.next
  width : ∀ {id outputs r}, ctx.cached.get? id = some outputs → nl.role? id = some r →
    outputs.length = r.outputCount
  nested : ∀ {id}, ctx.cached.get? id = none → ctx.nested.get? id = none
  left : ∀ {id g inner}, ctx.nested.get? id = some inner → nl.role? id = some (.gate g) →
    g.Sound → g.Leaves inner

/-- A context between two evaluations of a netlist. -/
structure Context.Usable (nl : Netlist Gate) (ctx : Context) : Prop extends ctx.Matches nl where
  idle : ctx.processing.nodes = []
  coherent : ctx.processing.Coherent

namespace Guarded

/-- What a guarded walk reads. -/
structure Scope where
  netlist : Netlist Gate
  previous : Option Context
  respond : NodeId → Bits → Context → Option Context → Except Fault (Outcome Bits)

/-- The surroundings of the walk without guards. -/
def Scope.plain (t : Scope) (respond : NodeId → Bits → Context → Option Context → Outcome Bits) :
    Surroundings :=
  ⟨t.netlist, t.previous, respond⟩

def cache (ctx : Context) (id : NodeId) (outputs : Bits) : Except Fault Context := do
  require (ctx.cached.get? id = none) (.cachedTwice id)
  .ok (ctx.cache id outputs)

def resolve (t : Scope) (ctx : Context) : Option Link → Except Fault Resolution
  | none => .ok (.value false ctx)
  | some link =>
    match t.netlist.kind? link.node with
    | none => .ok (.value false ctx)
    | some kind =>
      if ctx.processing.contains link.node then
        .ok (.value ((t.previous.bind (·.output? link)).getD false) ctx)
      else
        match ctx.output? link with
        | some bit => .ok (.value bit ctx)
        | none =>
          match kind with
          | .gate _ => .ok (.descend link.node)
          | .input pin => do
            let state := Surroundings.pinValue ctx link.node pin
            .ok (.value state (← cache ctx link.node [state]))
          | .output _ => .ok (.value false ctx)

def fire (t : Scope) (id : NodeId) (g : Gate) (inputs : Bits) (ctx : Context) :
    Except Fault (Outcome Bits) :=
  if g.isHierarchical then do
    let inner := (ctx.nested.get? id).getD ∅
    let answer ← t.respond id inputs inner (t.previous.bind (·.nested.get? id))
    .ok ⟨answer.value, ctx.setNested id answer.context, answer.calls⟩
  else do
    let answer ← t.respond id inputs ∅ none
    .ok ⟨answer.value, ctx, answer.calls⟩

/-- One step of a walk, which has to stand at a live gate. -/
def step (t : Scope) (w : Walk) : Except Fault Walk :=
  match w.frames with
  | [] => .ok w
  | frame :: waiting =>
    match t.netlist.gate? frame.node with
    | none => .error (.notGate frame.node)
    | some g =>
      match (t.netlist.slots frame.node)[frame.resolved.length]? with
      | some slot => do
        match ← resolve t w.context slot with
        | .value bit context =>
          .ok { w with
            frames := { frame with resolved := frame.resolved ++ [bit] } :: waiting, context }
        | .descend source =>
          .ok { w with
            frames := ⟨source, []⟩ :: frame :: waiting, context := w.context.enter source }
      | none => do
        let answer ← fire t frame.node g frame.resolved w.context
        let context ← cache answer.context frame.node answer.value
        .ok { frames := waiting, context := context.leave, calls := answer.calls ++ w.calls }

/-- Steps until no node waits, which has to happen within the fuel. -/
def run (t : Scope) : Nat → Walk → Except Fault Walk
  | 0, w => if w.frames.isEmpty then .ok w else .error .endless
  | fuel + 1, w => if w.frames.isEmpty then .ok w else do run t fuel (← step t w)

def evalNode (t : Scope) (ctx : Context) (root : NodeId) : Except Fault (Outcome Bits) :=
  match ctx.cached.get? root with
  | some outputs => .ok ⟨outputs, ctx, []⟩
  | none =>
    match t.netlist.kind? root with
    | some (.gate _) => do
      let w ← run t t.netlist.walkBound (Walk.start ctx root)
      .ok ⟨(w.context.cached.get? root).getD [], w.context, w.calls⟩
    | some (.input pin) => do
      let state := Surroundings.pinValue ctx root pin
      .ok ⟨[state], ← cache ctx root [state], []⟩
    | _ => .ok ⟨[], ctx, []⟩

def evalLink (t : Scope) (ctx : Context) : Option Link → Except Fault (Outcome Bool)
  | none => .ok ⟨false, ctx, []⟩
  | some link =>
    if t.netlist.isLive link.node then do
      let answer ← evalNode t ctx link.node
      .ok ⟨answer.value.getD link.output false, answer.context, answer.calls⟩
    else .ok ⟨false, ctx, []⟩

def readPin (t : Scope) (ctx : Context) (pin : NodeId) : Except Fault (Outcome Bool) :=
  evalLink t ctx (t.netlist.source? pin 0)

def readPins (t : Scope) (ctx : Context) : List NodeId → Except Fault (Outcome Bits)
  | [] => .ok ⟨[], ctx, []⟩
  | pin :: pins => do
    let first ← readPin t ctx pin
    let others ← readPins t first.context pins
    .ok ⟨first.value :: others.value, others.context, others.calls ++ first.calls⟩

def evalNodes (t : Scope) (ctx : Context) : List NodeId → Except Fault (Outcome Unit)
  | [] => .ok ⟨(), ctx, []⟩
  | id :: ids => do
    let first ← evalNode t ctx id
    let others ← evalNodes t first.context ids
    .ok ⟨(), others.context, others.calls ++ first.calls⟩

/-- Gates that are given one value for each input respond without a fault, as they do without
guards, and with one value for each output; they leave what they leave when they compute alone. -/
structure Scope.Safe (t : Scope)
    (respond : NodeId → Bits → Context → Option Context → Outcome Bits) : Prop where
  wellFormed : t.netlist.WellFormed
  responds : ∀ {id g}, t.netlist.role? id = some (.gate g) → ∀ inputs before,
    inputs.length = g.inputs.length →
      t.respond id inputs ∅ before = .ok (respond id inputs ∅ before) ∧
        (respond id inputs ∅ before).value.length = g.outputs.length ∧
        (respond id inputs ∅ before).context = (g.compute inputs ∅ before).context

/-- A guarded evaluation that commits no fault: it answers what the plain one does and leaves a
context that can be used again. -/
structure Runs {α : Type} (nl : Netlist Gate) (guarded : Except Fault (Outcome α))
    (plain : Outcome α) : Prop where
  eq : guarded = .ok plain
  usable : plain.context.Usable nl

end Guarded

namespace Context

variable {nl nl' : Netlist Gate} {ctx ctx' : Context} {id : NodeId} {outputs : Bits}

/-- A context may be kept while the netlist is edited. -/
theorem Matches.later (h : ctx.Matches nl) (hl : Later nl nl') : ctx.Matches nl' where
  known hc := Nat.lt_of_lt_of_le (h.known hc) hl.next_le
  width {id outputs r} hc hr := by
    have hlt : id < nl.next := h.known (by simp [hc])
    rcases hl.role id hlt with he | he
    · exact h.width hc (he ▸ hr)
    · simp [he] at hr
  nested := h.nested
  left {id g inner} hn hr hs := by
    have hcached : ctx.cached.get? id ≠ none := fun hc => by simp [h.nested hc] at hn
    rcases hl.role id (h.known hcached) with he | he
    · exact h.left hn (he ▸ hr) hs
    · simp [he] at hr

theorem Usable.later (h : ctx.Usable nl) (hl : Later nl nl') : ctx.Usable nl' :=
  ⟨h.toMatches.later hl, h.idle, h.coherent⟩

theorem usable_fresh (nl : Netlist Gate) (pins : NodeMap Bool) :
    ({ pins } : Context).Usable nl where
  known h := absurd rfl h
  width h := by simp at h
  nested _ := rfl
  left h := absurd h nofun
  idle := rfl
  coherent := WalkStack.coherent_empty

theorem Usable.setPin (h : ctx.Usable nl) (id : NodeId) (value : Bool) :
    (ctx.setPin id value).Usable nl :=
  ⟨⟨h.known, h.width, h.nested, h.left⟩, h.idle, h.coherent⟩

theorem Usable.setPins (h : ctx.Usable nl) (ids : List NodeId) (values : Bits) :
    (ctx.setPins ids values).Usable nl := by
  unfold Context.setPins
  generalize ids.zip values = pins
  induction pins generalizing ctx with
  | nil => exact h
  | cons pin pins ih => exact ih (h.setPin pin.1 pin.2)

/-- A live node is cached with the right number of values. -/
theorem Matches.caches (h : ctx.Matches nl) (hc : ctx.Caches ctx' id outputs) {r : Role}
    (hr : nl.role? id = some r) (hw : outputs.length = r.outputCount)
    (hl : ∀ g inner, r = .gate g → ctx'.nested.get? id = some inner → g.Sound → g.Leaves inner) :
    ctx'.Matches nl where
  known {a} ha := by
    by_cases he : a = id
    · exact he ▸ lt_next_of_role? hr
    · exact h.known (hc.get?_of_ne he ▸ ha)
  width {a outputs r'} ha hr' := by
    by_cases he : a = id
    · subst he
      rw [hc.get?_self] at ha
      obtain rfl := Option.some.inj ha
      obtain rfl := Option.some.inj (hr.symm.trans hr')
      exact hw
    · exact h.width (hc.get?_of_ne he ▸ ha) hr'
  nested {a} ha := by
    have he : a ≠ id := fun he => by simp [he, hc.get?_self] at ha
    rw [hc.nested a he]
    exact h.nested (hc.get?_of_ne he ▸ ha)
  left {a g inner} hn hr' hs := by
    by_cases he : a = id
    · subst he
      exact hl g inner (Option.some.inj (hr.symm.trans hr')) hn hs
    · exact h.left (hc.nested a he ▸ hn) hr' hs

theorem Matches.caches_input (h : ctx.Matches nl) {value : Bool}
    (hc : ctx.Caches ctx' id [value]) (hr : nl.role? id = some .input) : ctx'.Matches nl :=
  h.caches hc hr rfl fun _ _ he => by cases he

/-- A link reads a value from the cache exactly when its source is cached. -/
theorem Matches.output?_eq (h : ctx.Matches nl) {link : Link} {r : Role}
    (hr : nl.role? link.node = some r) (ho : link.output < r.outputCount)
    (hc : ctx.cached.get? link.node ≠ none) :
    ctx.output? link = some ((ctx.output? link).getD false) := by
  obtain ⟨outputs, houtputs⟩ := Option.ne_none_iff_exists'.1 hc
  have hlt : link.output < outputs.length := h.width houtputs hr ▸ ho
  simp [output?, houtputs, List.getElem?_eq_getElem hlt]

end Context

namespace Guarded

variable {t : Scope} {respond : NodeId → Bits → Context → Option Context → Outcome Bits}
  {ctx : Context} {w : Walk} {frame : Frame} {below : List Frame} {id : NodeId} {outputs : Bits}

@[simp] theorem Scope.netlist_plain (t : Scope)
    (respond : NodeId → Bits → Context → Option Context → Outcome Bits) :
    (t.plain respond).netlist = t.netlist := rfl

theorem cache_eq (h : ctx.cached.get? id = none) (outputs : Bits) :
    cache ctx id outputs = .ok (ctx.cache id outputs) := by
  rw [cache, require_eq h, ok_bind]

/-- A slot resolves without a fault: a source that is not found in the cache is not cached. -/
theorem resolve_eq (hw : t.netlist.WellFormed) (hm : ctx.Matches t.netlist) {node : NodeId}
    {slot : Option Link} (hs : slot ∈ t.netlist.slots node) :
    resolve t ctx slot = .ok ((t.plain respond).resolve ctx slot) := by
  cases slot with
  | none => rfl
  | some link =>
    obtain ⟨r, hr, ho⟩ := hw.links hs
    obtain ⟨kind, hk, rfl⟩ := Option.map_eq_some_iff.1 hr
    cases hp : ctx.processing.contains link.node with
    | true =>
      simp only [resolve, Surroundings.resolve, Scope.netlist_plain, hk, hp, if_true]
      rfl
    | false =>
      by_cases hc : ctx.cached.get? link.node = none
      · have hn : ctx.output? link = none := by simp [Context.output?, hc]
        simp only [resolve, Surroundings.resolve, Scope.netlist_plain, hk, hp, hc, hn,
          Option.isSome_none, Bool.false_eq_true, if_false]
        cases kind with
        | gate g => rfl
        | input pin => simp only [cache_eq hc, ok_bind]
        | output pin => rfl
      · have hv := hm.output?_eq hr ho hc
        have hsome : (ctx.cached.get? link.node).isSome = true := Option.isSome_iff_ne_none.2 hc
        simp only [resolve, Surroundings.resolve, Scope.netlist_plain, hk, hp, hsome,
          Bool.false_eq_true, if_false, if_true]
        rw [hv]
        rfl

/-- The context of the node in the last tick, for a gate that has contexts of its own. -/
def Scope.before (t : Scope) (id : NodeId) (g : Gate) : Option Context :=
  if g.isHierarchical then t.previous.bind (·.nested.get? id) else none

/-- A gate computes in a fresh context, as there is none for a node that is not cached. -/
theorem fire_eq {g : Gate} (hn : ctx.nested.get? id = none) (inputs : Bits) :
    fire t id g inputs ctx = (do
      let answer ← t.respond id inputs ∅ (t.before id g)
      .ok ⟨answer.value, if g.isHierarchical then ctx.setNested id answer.context else ctx,
        answer.calls⟩) := by
  unfold fire Scope.before
  rw [hn]
  cases g.isHierarchical <;> rfl

theorem plain_fire_eq {g : Gate} (hg : t.netlist.role? id = some (.gate g))
    (hn : ctx.nested.get? id = none) (inputs : Bits) :
    (t.plain respond).fire id inputs ctx =
      let answer := respond id inputs ∅ (t.before id g)
      ⟨answer.value, if g.isHierarchical then ctx.setNested id answer.context else ctx,
        answer.calls⟩ := by
  have hh : (t.plain respond).netlist.isHierarchical id = g.isHierarchical := by
    simp [isHierarchical, gate?_eq_some_iff.2 hg]
  unfold Surroundings.fire Scope.before
  rw [hh, hn]
  cases g.isHierarchical <;> rfl

/-- A gate computes as it does without guards, with one value for each of its outputs, and leaves
what it leaves when it computes alone, if its parts fit. -/
structure Scope.Fires (t : Scope)
    (respond : NodeId → Bits → Context → Option Context → Outcome Bits) (id : NodeId) (g : Gate)
    (inputs : Bits) : Prop where
  eq : t.respond id inputs ∅ (t.before id g) = .ok (respond id inputs ∅ (t.before id g))
  count : (respond id inputs ∅ (t.before id g)).value.length = g.outputs.length
  leaves : g.Sound → g.Leaves (respond id inputs ∅ (t.before id g)).context

/-- A step of the walk without guards is one under guard, if the gate that computes in it does so
without a fault. It caches only live nodes, each with one value for each of its outputs. -/
theorem step_eq (hw : t.netlist.WellFormed) (hi : w.Stacked t.netlist)
    (hm : w.context.Matches t.netlist) (hf : w.frames = frame :: below) {g : Gate}
    (hg : t.netlist.role? frame.node = some (.gate g))
    (hfires : frame.resolved.length = (t.netlist.slots frame.node).length →
      t.Fires respond frame.node g frame.resolved) :
    step t w = .ok (w.step (t.plain respond)) ∧
      (w.step (t.plain respond)).context.Matches t.netlist := by
  have hmem : frame ∈ w.frames := hf ▸ List.mem_cons_self
  have hfresh := hi.fresh frame hmem
  have hnested := hm.nested hfresh
  have hturn : w.Turn (t.plain respond) frame below (w.step (t.plain respond)) := hi.turn hf
  constructor
  · unfold step Walk.step
    simp only [hf, gate?_eq_some_iff.2 hg, Scope.netlist_plain]
    cases hs : (t.netlist.slots frame.node)[frame.resolved.length]? with
    | some slot =>
      have hresolve : resolve t w.context slot = .ok ((t.plain respond).resolve w.context slot) :=
        resolve_eq hw hm (List.mem_of_getElem? hs)
      simp only [hresolve, ok_bind]
      cases (t.plain respond).resolve w.context slot <;> rfl
    | none =>
      have hlength : frame.resolved.length = (t.netlist.slots frame.node).length :=
        Nat.le_antisymm (hi.resolved frame hmem) (List.getElem?_eq_none_iff.1 hs)
      have hfire : fire t frame.node g frame.resolved w.context =
          .ok ((t.plain respond).fire frame.node frame.resolved w.context) := by
        rw [fire_eq hnested, (hfires hlength).eq, ok_bind, plain_fire_eq hg hnested]
      have hcached : ((t.plain respond).fire frame.node frame.resolved
          w.context).context.cached.get? frame.node = none := by
        rw [Surroundings.cached_fire, hfresh]
      simp only [hfire, ok_bind, cache_eq hcached]
  · generalize w.step (t.plain respond) = w' at hturn ⊢
    cases hturn with
    | value slot bit hs => exact hm
    | pin link pin hs hp hc =>
      exact hm.caches_input (Context.caches_cache _ hc) (role?_of_inputPin? hp)
    | descend link hs hg hc hp => exact ⟨hm.known, hm.width, hm.nested, hm.left⟩
    | fire hs =>
      have hfires := hfires hs.symm
      have hcount : ((t.plain respond).fire frame.node frame.resolved w.context).value.length =
          g.outputs.length := by rw [plain_fire_eq hg hnested, hfires.count]
      refine hm.caches (Context.caches_fire _ hfresh) hg hcount ?_
      intro g' inner he hn hsound
      obtain rfl := Role.gate.inj he
      change ((t.plain respond).fire frame.node frame.resolved w.context).context.nested.get?
        frame.node = some inner at hn
      rw [plain_fire_eq hg hnested] at hn
      dsimp only at hn
      split at hn
      · rw [Context.nested_setNested, if_pos rfl] at hn
        exact Option.some.inj hn ▸ hfires.leaves hsound
      · cases hnested.symm.trans hn

/-- A gate computes without a fault, with one value for each of its inputs and outputs. -/
theorem Scope.Safe.fires (ht : t.Safe respond) {g : Gate}
    (hg : t.netlist.role? id = some (.gate g)) {inputs : Bits}
    (hi : inputs.length = (t.netlist.slots id).length) : t.Fires respond id g inputs := by
  have hlength : inputs.length = g.inputs.length := hi.trans (ht.wellFormed.slotCount hg)
  obtain ⟨hr, hv, hc⟩ := ht.responds hg inputs (t.before id g) hlength
  exact ⟨hr, hv, fun _ => ⟨inputs, _, hlength, hc⟩⟩

/-- A walk ends within its work, and none of its steps commits a fault. -/
theorem run_eq (ht : t.Safe respond) (hi : w.Stacked t.netlist) (hm : w.context.Matches t.netlist)
    {fuel : Nat} (h : w.work (t.plain respond) ≤ fuel) :
    run t fuel w = .ok (w.run (t.plain respond) fuel) ∧
      (w.run (t.plain respond) fuel).context.Matches t.netlist := by
  -- The work left is below the fuel, so without fuel nothing waits and `endless` cannot occur.
  induction fuel generalizing w with
  | zero =>
    cases hf : w.frames with
    | nil => exact ⟨by rw [run, hf, List.isEmpty_nil, if_pos rfl]; rfl, hm⟩
    | cons frame below =>
      rw [Walk.work, hf, List.map_cons, List.sum_cons] at h
      omega
  | succ fuel ih =>
    cases hf : w.frames with
    | nil =>
      rw [Walk.run_of_done hf]
      exact ⟨by rw [run, hf, List.isEmpty_nil, if_pos rfl], hm⟩
    | cons frame below =>
      have hturn : w.Turn (t.plain respond) frame below _ := hi.turn hf
      have hlt := hturn.work_lt hi hf
      obtain ⟨g, hg⟩ := hi.gate frame (hf ▸ List.mem_cons_self)
      obtain ⟨hstep, hm'⟩ := step_eq ht.wellFormed hi hm hf hg (ht.fires hg)
      obtain ⟨he, hm'⟩ := ih (hturn.stacked hi hf) hm' (by omega)
      rw [run, hf, List.isEmpty_cons, if_neg Bool.false_ne_true, hstep, ok_bind, Walk.run_succ hf]
      exact ⟨he, hm'⟩

section

variable (ht : t.Safe respond)

include ht

theorem runs_evalNode (hu : ctx.Usable t.netlist) (root : NodeId) :
    Runs t.netlist (evalNode t ctx root) ((t.plain respond).evalNode ctx root) := by
  unfold evalNode Surroundings.evalNode
  cases hc : ctx.cached.get? root with
  | some outputs => exact ⟨rfl, hu⟩
  | none =>
    simp only [Scope.netlist_plain]
    cases hk : t.netlist.kind? root with
    | none => exact ⟨rfl, hu⟩
    | some kind =>
      cases kind with
      | output pin => exact ⟨rfl, hu⟩
      | input pin =>
        have hr : t.netlist.role? root = some .input := by simp [role?, hk, NodeKind.role]
        have hcaches := Context.caches_cache [Surroundings.pinValue ctx root pin] hc
        dsimp only
        rw [cache_eq hc, ok_bind]
        exact ⟨rfl, hu.toMatches.caches_input hcaches hr, hu.idle, hu.coherent⟩
      | gate g =>
        have hg : (t.plain respond).netlist.IsGate root := ⟨g, kind?_eq_gate_iff.1 hk⟩
        have hi : (Walk.start ctx root).Stacked (t.plain respond).netlist :=
          Walk.stacked_start hu.idle hu.coherent hg hc
        have hwork : (Walk.start ctx root).work (t.plain respond) ≤ t.netlist.walkBound :=
          Walk.work_start_le hg
        obtain ⟨hrun, hm⟩ := run_eq ht hi ⟨hu.known, hu.width, hu.nested, hu.left⟩ hwork
        obtain ⟨hdone, hi', _⟩ := hi.run_complete hwork
        rw [Scope.netlist_plain] at hi'
        dsimp only
        rw [hrun, ok_bind]
        exact ⟨rfl, hm, by rw [hi'.stack, hdone, List.map_nil], hi'.coherent⟩

theorem runs_evalLink (hu : ctx.Usable t.netlist) (link : Option Link) :
    Runs t.netlist (evalLink t ctx link) ((t.plain respond).evalLink ctx link) := by
  cases link with
  | none => exact ⟨rfl, hu⟩
  | some link =>
    have h := runs_evalNode ht hu link.node
    unfold evalLink Surroundings.evalLink
    by_cases hl : (t.plain respond).netlist.isLive link.node = true
    · simp only [if_pos hl, if_pos (Scope.netlist_plain t respond ▸ hl), h.eq, ok_bind]
      exact ⟨rfl, h.usable⟩
    · simp only [if_neg hl, if_neg (Scope.netlist_plain t respond ▸ hl)]
      exact ⟨rfl, hu⟩

theorem runs_readPin (hu : ctx.Usable t.netlist) (pin : NodeId) :
    Runs t.netlist (readPin t ctx pin) ((t.plain respond).readPin ctx pin) :=
  runs_evalLink ht hu _

theorem runs_readPins (hu : ctx.Usable t.netlist) (pins : List NodeId) :
    Runs t.netlist (readPins t ctx pins) ((t.plain respond).readPins ctx pins) := by
  induction pins generalizing ctx with
  | nil => exact ⟨rfl, hu⟩
  | cons pin pins ih =>
    have hfirst := runs_readPin ht hu pin
    have hothers := ih hfirst.usable
    rw [readPins, hfirst.eq, ok_bind, hothers.eq, ok_bind]
    exact ⟨rfl, hothers.usable⟩

theorem runs_evalNodes (hu : ctx.Usable t.netlist) (ids : List NodeId) :
    Runs t.netlist (evalNodes t ctx ids) ((t.plain respond).evalNodes ctx ids) := by
  induction ids generalizing ctx with
  | nil => exact ⟨rfl, hu⟩
  | cons id ids ih =>
    have hfirst := runs_evalNode ht hu id
    have hothers := ih hfirst.usable
    rw [evalNodes, hfirst.eq, ok_bind, hothers.eq, ok_bind]
    exact ⟨rfl, hothers.usable⟩

end

end Guarded

end Breadboard
