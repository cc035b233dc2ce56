import Breadboard.Proofs.Evaluation.Settled

namespace Breadboard

open Relation Netlist Surroundings

variable {s : Surroundings} {w w' : Walk} {ctx ctx' : Context} {frame : Frame}
  {below : List Frame} {part : NodeId → Prop} {id : NodeId} {outputs : Bits}

/-- Nothing is cached outside of the part. -/
def Context.Within (part : NodeId → Prop) (ctx : Context) : Prop :=
  ∀ id, ctx.cached.get? id ≠ none → part id

/-- Nothing is cached outside of the part, and no node outside of it waits. -/
structure Walk.Within (part : NodeId → Prop) (w : Walk) : Prop where
  context : w.context.Within part
  frames : ∀ frame ∈ w.frames, part frame.node

theorem Context.Within.caches (h : ctx.Within part) (hc : ctx.Caches ctx' id outputs)
    (hid : part id) : ctx'.Within part := by
  intro a ha
  by_cases he : a = id
  · exact he ▸ hid
  · rw [hc.get?_of_ne he] at ha
    exact h a ha

section Closed

variable (hclosed : ∀ {id source}, part id → s.netlist.Reads id source → part source)

namespace Walk

include hclosed

theorem Turn.within (h : Turn s w frame below w') (hi : w.Stacked s.netlist)
    (hf : w.frames = frame :: below) (hp : w.Within part) : w'.Within part := by
  obtain ⟨hframe, hbelow⟩ := List.forall_mem_cons.1 (hf ▸ hp.frames)
  cases h with
  | value slot bit hs => exact ⟨hp.context, List.forall_mem_cons.2 ⟨hframe, hbelow⟩⟩
  | pin link pin hs hpin hc =>
    have hread : part link.node := hclosed hframe (reads_of_getElem? hs)
    refine ⟨hp.context.caches (Context.caches_cache _ hc) hread, ?_⟩
    exact List.forall_mem_cons.2 ⟨hframe, hbelow⟩
  | descend link hs hg hc hn =>
    have hread : part link.node := hclosed hframe (reads_of_getElem? hs)
    exact ⟨hp.context, List.forall_mem_cons.2 ⟨hread, List.forall_mem_cons.2 ⟨hframe, hbelow⟩⟩⟩
  | fire hs =>
    have hfresh := hi.fresh frame (hf ▸ List.mem_cons_self)
    exact ⟨hp.context.caches (Context.caches_fire _ hfresh) hframe, hbelow⟩

theorem Within.run (hp : w.Within part) (hi : w.Stacked s.netlist) (fuel : Nat) :
    (w.run s fuel).Within part := by
  induction fuel generalizing w with
  | zero => exact hp
  | succ fuel ih =>
    cases hf : w.frames with
    | nil => rwa [run_of_done hf]
    | cons frame below =>
      have ht := hi.turn hf
      rw [run_succ hf]
      exact ih (ht.within hclosed hi hf hp) (ht.stacked hi hf)

end Walk

namespace Surroundings

include hclosed

theorem evalNode_within (h : ctx.Settled s) (hp : ctx.Within part) {root : NodeId}
    (hroot : part root) : (s.evalNode ctx root).context.Within part := by
  unfold evalNode
  cases hc : ctx.cached.get? root with
  | some outputs => exact hp
  | none =>
    cases hk : s.netlist.kind? root with
    | none => exact hp
    | some kind =>
      cases kind with
      | gate g =>
        have hi := Walk.stacked_start h.idle h.coherent ⟨g, kind?_eq_gate_iff.1 hk⟩ hc
        have hstart : (Walk.start ctx root).Within part :=
          ⟨hp, List.forall_mem_singleton.2 hroot⟩
        exact (hstart.run hclosed hi s.netlist.walkBound).context
      | input pin => exact hp.caches (Context.caches_cache _ hc) hroot
      | output pin => exact hp

theorem readPin_within (h : ctx.Settled s) (hp : ctx.Within part) {pin : NodeId}
    (hpin : ∀ source, s.netlist.source? pin 0 = some source → part source.node) :
    (s.readPin ctx pin).context.Within part := by
  unfold readPin evalLink
  cases hsource : s.netlist.source? pin 0 with
  | none => exact hp
  | some source =>
    dsimp only
    split
    · exact evalNode_within hclosed h hp (hpin source hsource)
    · exact hp

theorem readPins_within (hw : s.netlist.WellFormed) (h : ctx.Settled s) (hp : ctx.Within part)
    {pins : List NodeId}
    (hpins : ∀ pin ∈ pins, ∀ source, s.netlist.source? pin 0 = some source → part source.node) :
    (s.readPins ctx pins).context.Within part := by
  induction pins generalizing ctx with
  | nil => exact hp
  | cons pin pins ih =>
    obtain ⟨hpin, hpins⟩ := List.forall_mem_cons.1 hpins
    exact ih (readPin_settled hw h pin).1 (readPin_within hclosed h hp hpin) hpins

end Surroundings

end Closed

namespace Surroundings

/-- From a fresh context on, the gates that reading pins caches lie behind these pins. -/
theorem readPins_behind (hw : s.netlist.WellFormed) (overrides : NodeMap Bool)
    {pins : List NodeId} (hg : s.netlist.IsGate id)
    (hc : (s.readPins { pins := overrides } pins).context.cached.get? id ≠ none) :
    s.netlist.Behind pins id := by
  have hclosed : ∀ {b source}, (∃ o ∈ pins, TransGen s.netlist.Reads o b) →
      s.netlist.Reads b source → ∃ o ∈ pins, TransGen s.netlist.Reads o source := by
    intro b source hb hr
    obtain ⟨o, ho, hp⟩ := hb
    exact ⟨o, ho, hp.tail hr⟩
  have hempty : Context.Within (fun b => ∃ o ∈ pins, TransGen s.netlist.Reads o b)
      { pins := overrides } := fun b hb => absurd rfl hb
  have hwithin := readPins_within hclosed hw (Context.settled_fresh s overrides) hempty
    fun o ho source hsource => ⟨o, ho, .single (hw.reads_of_source? hsource)⟩
  exact ⟨hg, hwithin id hc⟩

end Surroundings

end Breadboard
