import Breadboard.Proofs.Evaluation.Agreement
import Breadboard.Proofs.Evaluation.Meaning

namespace Breadboard

open Relation Surroundings

namespace Netlist

variable {nl : Netlist Gate} {pins : NodeMap Bool} {id : NodeId}

/-- A grounded node as an element of a well-founded type. -/
def Grounded.wrap (h : nl.Grounded id) : { id // Acc (fun source id => nl.Reads id source) id } :=
  ⟨id, h⟩

/-- The outputs of a node without a loop behind it, by recursion: a gate responds to the outputs of
its sources, where a missing link is low, and an input pin has its state, or what overrides it. -/
def plainOutputs (nl : Netlist Gate) (pins : NodeMap Bool) (id : NodeId) (h : nl.Grounded id) :
    Bits :=
  match nl.kind? id with
  | some (.gate g) =>
    (g.respondFresh ((nl.slots id).attach.map fun
      | ⟨none, _⟩ => false
      | ⟨some link, hl⟩ =>
        (plainOutputs nl pins link.node (h.inv ⟨link, hl, rfl⟩)).getD link.output false)).value
  | some (.input pin) => [(pins.get? id).getD pin.state]
  | _ => []
termination_by h.wrap
decreasing_by exact ⟨link, hl, rfl⟩

theorem plainOutputs_input {pin : InputPin} (h : nl.Grounded id)
    (hp : nl.inputPin? id = some pin) :
    nl.plainOutputs pins id h = [(pins.get? id).getD pin.state] := by
  rw [plainOutputs, kind?_of_inputPin? hp]

/-- Output pins and missing nodes have no outputs. -/
theorem plainOutputs_other (h : nl.Grounded id) (hg : ¬ nl.IsGate id)
    (hi : nl.role? id ≠ some .input) : nl.plainOutputs pins id h = [] := by
  rw [plainOutputs]
  cases hk : nl.kind? id with
  | none => rfl
  | some kind =>
    have hrole : nl.role? id = some kind.role := by simp [role?, hk]
    cases kind with
    | gate g => exact absurd ⟨g, hrole⟩ hg
    | input pin => exact absurd hrole hi
    | output pin => rfl

/-- The response of a gate to values of its slots that are those of the recursion. -/
theorem plainOutputs_gate {g : Gate} (h : nl.Grounded id) (hg : nl.kind? id = some (.gate g))
    {value : Option Link → Bool} (hnone : value none = false)
    (hsome : ∀ link (hl : some link ∈ nl.slots id), value (some link) =
      (nl.plainOutputs pins link.node (h.inv ⟨link, hl, rfl⟩)).getD link.output false) :
    nl.plainOutputs pins id h = (g.compute ((nl.slots id).map value) ∅ none).value := by
  have hvalues : (nl.slots id).map value = (nl.slots id).attach.map fun slot => value slot.1 :=
    List.attach_map_val.symm
  rw [plainOutputs, hg, hvalues]
  dsimp only [Gate.respondFresh]
  congr 2
  apply List.map_congr_left
  intro slot _
  obtain ⟨slot, hslot⟩ := slot
  cases slot with
  | none => exact hnone.symm
  | some link => exact (hsome link hslot).symm

end Netlist

open Netlist

variable {s : Surroundings} {nl : Netlist Gate} {ctx ctx' : Context} {pins : NodeMap Bool}
  {previous : Option Context} {a : NodeId}

namespace Context

/-- A node without a loop behind it has the same cached in any two contexts of a tick. -/
theorem Settled.cached_eq (hw : s.netlist.WellFormed) (h : ctx.Settled s) (h' : ctx'.Settled s)
    (hp : ctx'.pins = ctx.pins) (hgr : s.netlist.Grounded a) (hc : ctx.cached.get? a ≠ none)
    (hc' : ctx'.cached.get? a ≠ none) : ctx'.cached.get? a = ctx.cached.get? a := by
  induction hgr with
  | intro a hacc ih =>
    rcases h.inv.role hc with hg | hi
    · have hvalues : (s.netlist.slots a).map ctx'.linkValue =
          (s.netlist.slots a).map ctx.linkValue := by
        apply List.map_congr_left
        intro slot hslot
        cases slot with
        | none => rfl
        | some link =>
          have hr : s.netlist.Reads a link.node := ⟨link, hslot, rfl⟩
          have hsource := ih link.node hr (h.cached_of_reads hc hr) (h'.cached_of_reads hc' hr)
          simp only [linkValue, output?, hsource]
      rw [h.fired_of_grounded hw hg (.intro a hacc) hc,
        h'.fired_of_grounded hw hg (.intro a hacc) hc', hvalues]
    · obtain ⟨pin, hpin⟩ := exists_inputPin? hi
      obtain ⟨outputs, ho⟩ := Option.ne_none_iff_exists'.1 hc
      obtain ⟨outputs', ho'⟩ := Option.ne_none_iff_exists'.1 hc'
      rw [ho, ho', h.inv.pins hpin ho, h'.inv.pins hpin ho', pinValue, pinValue, hp]

/-- Without state behind it either, what a node has cached is what the recursion answers. -/
theorem Settled.cached_eq_plainOutputs (hw : nl.WellFormed) (h : ctx.Settled (nl.within previous))
    (hp : ctx.pins = pins) (hgr : nl.Grounded a) (hs : nl.Stateless a)
    (hc : ctx.cached.get? a ≠ none) :
    ctx.cached.get? a = some (nl.plainOutputs pins a hgr) := by
  induction hgr with
  | intro a hacc ih =>
    have hgr : nl.Grounded a := .intro a hacc
    change _ = some (nl.plainOutputs pins a hgr)
    have hrole : nl.IsGate a ∨ nl.role? a = some .input := h.inv.role hc
    rcases hrole with ⟨g, hg⟩ | hi
    · have hkind := kind?_eq_gate_iff.2 hg
      have hgate := gate?_eq_some_iff.2 hg
      have hh : g.isHierarchical = false := (isHierarchical_of_role? hg).symm.trans (hs a .refl)
      have hvalue : ∀ link (hl : some link ∈ nl.slots a), ctx.linkValue (some link) =
          (nl.plainOutputs pins link.node (hgr.inv ⟨link, hl, rfl⟩)).getD link.output false := by
        intro link hl
        have hr : nl.Reads a link.node := ⟨link, hl, rfl⟩
        rw [linkValue, output?, ih link.node hr (hs.of_reads hr) (h.cached_of_reads hc hr),
          Option.bind_some, List.getD_eq_getElem?_getD]
      have hfired := h.fired_of_grounded hw ⟨g, hg⟩ hgr hc
      rw [fire_within hgate, hh] at hfired
      rw [plainOutputs_gate hgr hkind rfl hvalue, hfired]
      rfl
    · obtain ⟨pin, hpin⟩ := exists_inputPin? hi
      obtain ⟨outputs, ho⟩ := Option.ne_none_iff_exists'.1 hc
      rw [ho, h.inv.pins hpin ho, plainOutputs_input _ hpin, pinValue, hp]

end Context

namespace Surroundings

theorem evalNode_of_other (hw : s.netlist.WellFormed) (h : ctx.Settled s)
    (hg : ¬ s.netlist.IsGate a) (hi : s.netlist.role? a ≠ some .input) :
    (s.evalNode ctx a).value = [] := by
  obtain ⟨hs, _, hvalue, _⟩ := evalNode_settled hw h a
  have hnone : (s.evalNode ctx a).context.cached.get? a = none := by
    by_contra hc
    exact (hs.inv.role hc).elim hg hi
  rw [hvalue, hnone]
  rfl

/-- An evaluation answers the same wherever it stands among others. -/
theorem evalNode_eq (hw : s.netlist.WellFormed) (h : ctx.Settled s) (h' : ctx'.Settled s)
    (hp : ctx'.pins = ctx.pins) (hgr : s.netlist.Grounded a) :
    (s.evalNode ctx' a).value = (s.evalNode ctx a).value := by
  by_cases hrole : s.netlist.IsGate a ∨ s.netlist.role? a = some .input
  · obtain ⟨hs, he, hvalue, hc⟩ := evalNode_settled hw h a
    obtain ⟨hs', he', hvalue', hc'⟩ := evalNode_settled hw h' a
    have hpins : (s.evalNode ctx' a).context.pins = (s.evalNode ctx a).context.pins := by
      rw [he'.pins, he.pins, hp]
    rw [hvalue, hvalue', hs.cached_eq hw hs' hpins hgr (hc hrole) (hc' hrole)]
  · obtain ⟨hg, hi⟩ := not_or.1 hrole
    rw [evalNode_of_other hw h hg hi, evalNode_of_other hw h' hg hi]

theorem evalNode_eq_plainOutputs (hw : nl.WellFormed) (h : ctx.Settled (nl.within previous))
    (hp : ctx.pins = pins) (hgr : nl.Grounded a) (hstateless : nl.Stateless a) :
    ((nl.within previous).evalNode ctx a).value = nl.plainOutputs pins a hgr := by
  by_cases hrole : nl.IsGate a ∨ nl.role? a = some .input
  · obtain ⟨hs, he, hvalue, hc⟩ := evalNode_settled (s := nl.within previous) hw h a
    rw [hvalue, hs.cached_eq_plainOutputs hw (he.pins.trans hp) hgr hstateless (hc hrole)]
    rfl
  · obtain ⟨hg, hi⟩ := not_or.1 hrole
    rw [evalNode_of_other (s := nl.within previous) hw h hg hi, plainOutputs_other hgr hg hi]

end Surroundings

namespace Netlist

/-- A node without a loop behind it has the same outputs in whatever order nodes are evaluated. If
there is no hierarchical gate behind it, these are the outputs of the plain recursion, whatever
happened in the tick before. -/
theorem Reachable.acyclic_outputs (hr : nl.Reachable) (pins : NodeMap Bool) {id : NodeId}
    (hacyclic : ∀ b, ReflTransGen nl.Reads id b → ¬ TransGen nl.Reads b b) :
    (∀ (previous : Option Context) (cs cs' : List Call),
      let s := nl.within previous
      let ctx := s.calls { pins : Context } cs
      let ctx' := s.calls { pins : Context } cs'
      (∀ outputs outputs', ctx.cached.get? id = some outputs →
        ctx'.cached.get? id = some outputs' → outputs' = outputs) ∧
      (s.evalNode ctx' id).value = (s.evalNode ctx id).value) ∧
    ((∀ b, ReflTransGen nl.Reads id b → nl.isHierarchical b = false) →
      ∀ (previous : Option Context) (cs : List Call),
        let s := nl.within previous
        let ctx := s.calls { pins : Context } cs
        let plain := nl.plainOutputs pins id (grounded_of_acyclic hacyclic)
        (∀ outputs, ctx.cached.get? id = some outputs → outputs = plain) ∧
        (s.evalNode ctx id).value = plain) := by
  have hw := hr.wellFormed
  have hgr := grounded_of_acyclic hacyclic
  have settled (previous : Option Context) (cs : List Call) :
      ((nl.within previous).calls { pins : Context } cs).Settled (nl.within previous) ∧
        ((nl.within previous).calls { pins : Context } cs).pins = pins := by
    obtain ⟨hs, he⟩ := calls_settled (s := nl.within previous) hw (Context.settled_fresh _ pins) cs
    exact ⟨hs, he.pins⟩
  constructor
  · intro previous cs cs' s ctx ctx'
    obtain ⟨hs, hp⟩ := settled previous cs
    obtain ⟨hs', hp'⟩ := settled previous cs'
    have hpins : ctx'.pins = ctx.pins := hp'.trans hp.symm
    refine ⟨?_, evalNode_eq hw hs hs' hpins hgr⟩
    intro outputs outputs' ho ho'
    have hsame := hs.cached_eq hw hs' hpins hgr (ho ▸ Option.some_ne_none outputs)
      (ho' ▸ Option.some_ne_none outputs')
    exact Option.some.inj (ho'.symm.trans (hsame.trans ho))
  · intro hstateless previous cs s ctx plain
    obtain ⟨hs, hp⟩ := settled previous cs
    refine ⟨?_, evalNode_eq_plainOutputs hw hs hp hgr hstateless⟩
    intro outputs ho
    have hplain := hs.cached_eq_plainOutputs hw hp hgr hstateless (ho ▸ Option.some_ne_none outputs)
    exact Option.some.inj (ho.symm.trans hplain)

/-- A latch whose gate reads first an inverter of the input and then itself. -/
def invertedLatch : Netlist Gate :=
  let inverter := ((latch.place Primitive.not.gate).2.link 3 0 0 0).2
  (inverter.link 2 0 3 0).2

theorem reachable_invertedLatch : invertedLatch.Reachable :=
  ((reachable_latch.place Primitive.not.gate).link 3 0 0 0).link 2 0 3 0

theorem grounded_invertedLatch : invertedLatch.Grounded 3 := by
  have hinput : invertedLatch.Grounded 0 :=
    .intro 0 fun b hr => absurd hr (reachable_invertedLatch.wellFormed.not_reads_of_input rfl)
  refine .intro 3 fun b hr => ?_
  obtain ⟨link, hl, rfl⟩ := hr
  have hslots : invertedLatch.slots 3 = [some ⟨0, 0⟩] := rfl
  rw [hslots, List.mem_singleton] at hl
  obtain rfl := Option.some.inj hl
  exact hinput

/-- The inverter has the same outputs when it is met from within the loop and when it is evaluated
first, also where it has another cached in the previous tick. -/
theorem acyclic_outputs_invertedLatch :
    let before := (invertedLatch.within none).calls ∅ [.pin 1]
    let s := invertedLatch.within (some before)
    let ctx := s.calls (.withPins [(0, true)]) [.pin 1]
    let ctx' := s.calls (.withPins [(0, true)]) [.link (some ⟨3, 0⟩), .node 2]
    invertedLatch.Reachable ∧ (∀ b, ReflTransGen invertedLatch.Reads 3 b →
      ¬ TransGen invertedLatch.Reads b b) ∧ invertedLatch.Stateless 3 ∧
      before.cached.get? 3 = some [true] ∧ ctx.cached.get? 3 = some [false] ∧
      (s.evalNode ctx' 3).value = (s.evalNode ctx 3).value ∧
      invertedLatch.plainOutputs (.ofList [(0, true)]) 3 grounded_invertedLatch = [false] := by
  intro before s ctx ctx'
  have hacyclic : ∀ b, ReflTransGen invertedLatch.Reads 3 b → ¬ TransGen invertedLatch.Reads b b :=
    fun _ hp => grounded_invertedLatch.acyclic hp
  have hstateless : invertedLatch.Stateless 3 := by
    have hcells : ∀ b < 4, invertedLatch.isHierarchical b = false := by decide +kernel
    intro b _
    rcases Nat.lt_or_ge b 4 with hlt | hge
    · exact hcells b hlt
    · apply isHierarchical_of_not_gate
      intro hg
      obtain ⟨g, hg⟩ := hg
      exact absurd (lt_next_of_role? hg) (Nat.not_lt.2 hge)
  have hcached : ctx.cached.get? 3 = some [false] := by decide +kernel
  obtain ⟨horder, hplain⟩ := Reachable.acyclic_outputs reachable_invertedLatch
    (.ofList [(0, true)]) hacyclic
  obtain ⟨_, hvalue⟩ := horder (some before) [.pin 1] [.link (some ⟨3, 0⟩), .node 2]
  obtain ⟨hrecursion, _⟩ := hplain hstateless (some before) [.pin 1]
  exact ⟨reachable_invertedLatch, hacyclic, hstateless, by decide +kernel, hcached, hvalue,
    (hrecursion [false] hcached).symm⟩

end Netlist

end Breadboard
