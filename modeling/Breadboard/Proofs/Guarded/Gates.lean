import Breadboard.Proofs.Guarded.Walk

namespace Breadboard

open Netlist

namespace Guarded

/-- The outputs of a gate, with one value for each of its inputs and outputs. -/
def compute (g : Gate) (inputs : Bits) (current : Context) (previous : Option Context) :
    Except Fault (Outcome Bits) := do
  require (inputs.length = g.inputs.length)
    (.inputCount g.name g.inputs.length inputs.length)
  let answer : Outcome Bits ←
    match _ : g.logic with
    | .primitive cell => .ok ⟨cell.eval inputs, current, [cell.tag]⟩
    | .tables logic => do .ok ⟨← lookupAll logic inputs, current, []⟩
    | .hierarchical nl =>
      let respond : NodeId → Bits → Context → Option Context → Except Fault (Outcome Bits) :=
        fun id inputs inner before =>
          match _ : nl.gate? id with
          | some placed => compute placed inputs inner before
          | none => .error (.notGate id)
      readPins ⟨nl, previous, respond⟩ (current.setPins nl.inputs inputs) nl.outputs
  require (answer.value.length = g.outputs.length)
    (.outputCount g.name g.outputs.length answer.value.length)
  .ok answer
termination_by sizeOf g
decreasing_by
  exact Nat.lt_trans (Netlist.sizeOf_gate_lt ‹_›) (Gate.sizeOf_internals_lt ‹_›)

def respond (nl : Netlist Gate) (id : NodeId) (inputs : Bits) (inner : Context)
    (before : Option Context) : Except Fault (Outcome Bits) :=
  match nl.gate? id with
  | some placed => compute placed inputs inner before
  | none => .error (.notGate id)

/-- What a walk over a netlist reads after a given tick. -/
def within (nl : Netlist Gate) (previous : Option Context) : Scope := ⟨nl, previous, respond nl⟩

/-- The outputs of the gate alone, as in the first tick of a fresh placement. -/
def respondFresh (g : Gate) (inputs : Bits) : Except Fault (Metered Bits) := do
  let answer ← compute g inputs ∅ none
  .ok ⟨answer.value, answer.calls⟩

def evaluate (g : Gate) (inputs : Bits) : Except Fault (Metered (Except GateError Bits)) :=
  if inputs.length = g.inputs.length then do
    let answer ← respondFresh g inputs
    .ok ⟨.ok answer.value, answer.calls⟩
  else .ok ⟨.error (.wrongArity g.name g.inputs.length inputs.length), []⟩

def truthTable (g : Gate) : Except Fault (Metered (Except GateError (List Bits))) :=
  let width := g.inputs.length
  if maxTableInputs < width then .ok ⟨.error (.tooWide g.name width), []⟩
  else do
    require (width < wordSize) (.wideShift width)
    let rows ← (List.range (Nat.pow 2 width)).mapM fun key => do
      respondFresh g (← unpack key width)
    .ok ⟨.ok (rows.map (·.value)), rows.reverse.flatMap (·.calls)⟩

end Guarded

/-- A context that a gate may compute in: for a hierarchical gate, one in which nothing but its
internal netlist was evaluated. -/
def Context.Serves (ctx : Context) (g : Gate) : Prop :=
  ∀ nl, g.logic = .hierarchical nl → ctx.Usable nl

/-- A computation of a gate that commits no fault, answers what the gate does without guards, and
leaves a context in which the gate may compute again. -/
structure Gate.Answers (g : Gate) (inputs : Bits) (ctx : Context) (previous : Option Context) :
    Prop where
  eq : Guarded.compute g inputs ctx previous = .ok (g.compute inputs ctx previous)
  count : (g.compute inputs ctx previous).value.length = g.outputs.length
  serves : (g.compute inputs ctx previous).context.Serves g

namespace Guarded

variable {g : Gate} {nl : Netlist Gate} {ctx : Context} {previous : Option Context} {inputs : Bits}

/-- A gate that computes answers one value for each output. -/
theorem length_of_compute {answer : Outcome Bits}
    (h : compute g inputs ctx previous = .ok answer) : answer.value.length = g.outputs.length := by
  have hlast {made : Outcome Bits} {fault : Fault}
      (hm : (do require (made.value.length = g.outputs.length) fault; .ok made) = .ok answer) :
      answer.value.length = g.outputs.length := by
    obtain ⟨_, hcount, hm⟩ := exists_of_bind hm
    exact Except.ok.inj hm ▸ of_require hcount
  rw [compute] at h
  obtain ⟨_, -, h⟩ := exists_of_bind h
  dsimp only at h
  split at h
  · exact hlast h
  · obtain ⟨outputs, -, h⟩ := exists_of_bind h
    exact hlast h
  · obtain ⟨made, -, h⟩ := exists_of_bind h
    exact hlast h

section

variable (hi : inputs.length = g.inputs.length)

include hi

theorem compute_primitive {cell : Cell} (h : g.logic = .primitive cell)
    (ho : (cell.eval inputs).length = g.outputs.length) :
    compute g inputs ctx previous = .ok ⟨cell.eval inputs, ctx, [cell.tag]⟩ := by
  rw [compute, require_eq hi, ok_bind]
  split
  · next h' =>
    obtain rfl := Logic.primitive.inj (h.symm.trans h')
    simp only [ok_bind, require_eq ho]
  · next h' => cases h.symm.trans h'
  · next h' => cases h.symm.trans h'

theorem compute_tables {logic : TableLogic} (h : g.logic = .tables logic) {outputs : Bits}
    (hl : lookupAll logic inputs = .ok outputs) (ho : outputs.length = g.outputs.length) :
    compute g inputs ctx previous = .ok ⟨outputs, ctx, []⟩ := by
  rw [compute, require_eq hi, ok_bind]
  split
  · next h' => cases h.symm.trans h'
  · next h' =>
    obtain rfl := Logic.tables.inj (h.symm.trans h')
    simp only [hl, ok_bind, require_eq ho]
  · next h' => cases h.symm.trans h'

/-- A hierarchical gate reads the outputs of its internal netlist with its inputs driven. -/
theorem compute_hierarchical (h : g.logic = .hierarchical nl) {answer : Outcome Bits}
    (hr : readPins (within nl previous) (ctx.setPins nl.inputs inputs) nl.outputs = .ok answer)
    (ho : answer.value.length = g.outputs.length) :
    compute g inputs ctx previous = .ok answer := by
  rw [compute, require_eq hi, ok_bind]
  split
  · next h' => cases h.symm.trans h'
  · next h' => cases h.symm.trans h'
  · next h' =>
    obtain rfl := Logic.hierarchical.inj (h.symm.trans h')
    have same : (fun (id : NodeId) (inputs : Bits) (inner : Context) (before : Option Context) =>
        match _ : nl.gate? id with
        | some placed => compute placed inputs inner before
        | none => .error (.notGate id)) = respond nl := by
      funext id inputs inner before
      unfold respond
      split <;> simp_all
    rw [within, ← same] at hr
    simp only [hr, ok_bind, require_eq ho]

end

/-- Gates whose computations commit no fault make walks that commit none. -/
theorem safe_within (hw : nl.WellFormed)
    (hp : ∀ {id placed}, nl.role? id = some (.gate placed) → ∀ inputs before,
      inputs.length = placed.inputs.length → placed.Answers inputs ∅ before)
    (previous : Option Context) : (within nl previous).Safe nl.respond where
  wellFormed := hw
  responds {id placed} hr inputs before hi := by
    have hanswer := hp hr inputs before hi
    have hgate : nl.gate? id = some placed := gate?_eq_some_iff.2 hr
    refine ⟨?_, ?_, ?_⟩
    · simp only [within, respond, Netlist.respond, hgate, hanswer.eq]
    · simp only [Netlist.respond, hgate, hanswer.count]
    · simp only [Netlist.respond, hgate]

end Guarded

open Guarded

variable {g : Gate} {nl : Netlist Gate} {ctx : Context}

theorem Context.serves_empty (g : Gate) : (∅ : Context).Serves g :=
  fun nl _ => usable_fresh nl ∅

theorem Gate.Sound.answers (h : g.Sound) {inputs : Bits} (hi : inputs.length = g.inputs.length)
    (hc : ctx.Serves g) (previous : Option Context) : g.Answers inputs ctx previous := by
  -- The placed gates answer in fresh contexts; only the context of the gate itself may be used.
  induction h generalizing inputs ctx previous with
  | primitive h hcell =>
    have hcount := hcell inputs hi
    have hcompute := compute_primitive h inputs ctx previous
    refine ⟨?_, ?_, ?_⟩
    · rw [hcompute, Guarded.compute_primitive hi h hcount]
    · rw [hcompute, hcount]
    · rw [hcompute]
      exact hc
  | tables h hl =>
    obtain ⟨hlookup, hcount⟩ := lookupAll_eq (hi ▸ hl)
    have hcompute := compute_tables h inputs ctx previous
    refine ⟨?_, ?_, ?_⟩
    · rw [hcompute, Guarded.compute_tables hi h hlookup hcount]
    · rw [hcompute, hcount]
    · rw [hcompute]
      exact hc
  | @hierarchical g nl h hw ho _ ih =>
    have hsafe := safe_within hw (fun hr inputs before hi =>
      ih hr hi (Context.serves_empty _) before) previous
    have hruns := runs_readPins hsafe ((hc nl h).setPins nl.inputs inputs) nl.outputs
    have hcompute := compute_hierarchical h inputs ctx previous
    have hcount : (g.compute inputs ctx previous).value.length = g.outputs.length := by
      rw [hcompute, Surroundings.length_readPins, ho]
    refine ⟨?_, hcount, ?_⟩
    · refine Guarded.compute_hierarchical hi h ?_ hcount
      rw [hruns.eq, hcompute]
      rfl
    · intro nl' h'
      obtain rfl := Logic.hierarchical.inj (h.symm.trans h')
      rw [hcompute]
      exact hruns.usable

/-- The gate may compute again in a context that it left. -/
theorem Gate.Sound.serves (h : g.Sound) (hl : g.Leaves ctx) : ctx.Serves g := by
  obtain ⟨inputs, before, hi, rfl⟩ := hl
  exact (h.answers hi (Context.serves_empty g) before).serves

/-- The logic and the numbers of pins are all that matters. -/
theorem Gate.Sound.congr (h : g.Sound) {g' : Gate} (hl : g'.logic = g.logic)
    (hi : g'.inputs.length = g.inputs.length) (ho : g'.outputs.length = g.outputs.length) :
    g'.Sound := by
  cases h with
  | primitive h hc => exact .primitive (hl.trans h) fun inputs hn => ho ▸ hc inputs (hn.trans hi)
  | tables h hs => exact .tables (hl.trans h) (hi ▸ ho ▸ hs)
  | hierarchical h hw hn hp => exact .hierarchical (hl.trans h) hw (hn.trans ho.symm) hp

/-- A netlist that evaluations may walk over: it is well formed and made of sound gates. -/
structure Netlist.Sound (nl : Netlist Gate) : Prop where
  wellFormed : nl.WellFormed
  made : nl.MadeOf Gate.Sound

theorem Netlist.Sound.safe (h : nl.Sound) (previous : Option Context) :
    (Guarded.within nl previous).Safe nl.respond :=
  safe_within h.wellFormed (fun hr _ before hi =>
    (h.made _ _ hr).answers hi (Context.serves_empty _) before) previous

theorem Netlist.sound_empty : (∅ : Netlist Gate).Sound := ⟨.empty, madeOf_empty _⟩

theorem Netlist.Sound.edit (h : nl.Sound) {e : Edit} (hp : ∀ g, e = .place g → g.Sound) :
    (nl.edit e).Sound :=
  ⟨h.wellFormed.edit e, h.made.edit hp⟩

theorem Netlist.Sound.extract (h : nl.Sound) {ids : List NodeId} {part : Netlist Gate}
    {copies : Copies} (he : nl.extract ids = .ok (part, copies)) : part.Sound :=
  ⟨h.wellFormed.extract he, h.made.extract he⟩

theorem Gate.Sound.internals (h : g.Sound) (hl : g.logic = .hierarchical nl) : nl.Sound := by
  cases h with
  | primitive h _ => cases hl.symm.trans h
  | tables h _ => cases hl.symm.trans h
  | hierarchical h hw _ hp =>
    obtain rfl := Logic.hierarchical.inj (h.symm.trans hl)
    exact ⟨hw, fun _ _ hr => hp hr⟩

theorem Primitive.sound (p : Primitive) : p.gate.Sound := .primitive rfl fun _ _ => rfl

namespace Guarded

theorem respondFresh_eq (h : g.Sound) {inputs : Bits} (hi : inputs.length = g.inputs.length) :
    respondFresh g inputs = .ok (g.respondFresh inputs) := by
  rw [respondFresh, (h.answers hi (Context.serves_empty g) none).eq]
  rfl

theorem evaluate_eq (h : g.Sound) (inputs : Bits) :
    evaluate g inputs = .ok (g.evaluate inputs) := by
  unfold evaluate Gate.evaluate
  split
  · next hi =>
    rw [respondFresh_eq h hi]
    rfl
  · rfl

theorem truthTable_eq (h : g.Sound) : truthTable g = .ok g.truthTable := by
  unfold truthTable Gate.truthTable
  dsimp only
  split
  · rfl
  · next hw =>
    have hwidth : g.inputs.length < wordSize :=
      Nat.lt_of_le_of_lt (Nat.le_of_not_lt hw) (by decide)
    have hrow : ∀ key ∈ List.range (Nat.pow 2 g.inputs.length),
        (do respondFresh g (← unpack key g.inputs.length)) =
          Except.ok (g.respondFresh (Bits.unpack key g.inputs.length)) := by
      intro key _
      rw [unpack_eq (Nat.le_of_lt hwidth), ok_bind, respondFresh_eq h (Bits.length_unpack _ _)]
    have hrows : (List.range (Nat.pow 2 g.inputs.length)).map
        (fun key => g.respondFresh (Bits.unpack key g.inputs.length)) =
          (Bits.all g.inputs.length).map g.respondFresh := by
      rw [Bits.all, List.map_map]
      rfl
    rw [require_eq hwidth, ok_bind, mapM_eq_ok hrow, ok_bind, hrows]

end Guarded

end Breadboard
