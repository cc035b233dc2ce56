import Breadboard.Proofs.Evaluation.Invariant

namespace Breadboard

open Relation Netlist Surroundings

variable {s : Surroundings} {w w' : Walk} {ctx ctx' : Context} {frame : Frame} {below : List Frame}

namespace Walk

/-- What the latest node computes is explained by the gates that were cached before. -/
private theorem explained_fire (hw : s.netlist.WellFormed) (hi : w.Inv s)
    (hf : w.frames = frame :: below)
    (hs : (s.netlist.slots frame.node).length = frame.resolved.length)
    (hc : w.context.Caches ctx' frame.node (s.fire frame.node frame.resolved w.context).value)
    (hself : ctx'.nested.get? frame.node =
      (s.fire frame.node frame.resolved ∅).context.nested.get? frame.node) :
    s.Explained ctx' (s.gateOrder w.context) frame.node := by
  have hwait : Waiting s w.context (frame :: below) := hf ▸ hi.waiting
  have hvalues : s.slotValues ctx' (s.gateOrder w.context) frame.node = frame.resolved := by
    rw [slotValues_caches hc fun b hb => (mem_gateOrder.1 hb).2]
    exact (hwait.1.resolved_eq hs).symm
  refine ⟨?_, ?_, ?_⟩
  · rw [hvalues, hc.get?_self, value_fire _ (hi.context.nested hwait.1.fresh)]
  · rw [hvalues, hself]
  · intro link hl hp hm
    have hg : s.netlist.IsGate link.node := by
      refine (hw.role?_of_reads ⟨link, hl, rfl⟩).resolve_right fun hin => ?_
      obtain ⟨pin, hpin⟩ := exists_inputPin? hin
      simp [hp] at hpin
    have hn : w.context.cached.get? link.node = none := by
      by_contra h
      exact hm (mem_gateOrder.2 ⟨hg, h⟩)
    exact hwait.reflTransGen (hwait.1.source_mem hs hl hn)

/-- The latest node leaves the stack when it has computed. -/
private theorem inv_fire (hw : s.netlist.WellFormed) (hi : w.Inv s)
    (hf : w.frames = frame :: below)
    (hs : (s.netlist.slots frame.node).length = frame.resolved.length) :
    Inv s
      { frames := below
        context := ((s.fire frame.node frame.resolved w.context).context.cache frame.node
          (s.fire frame.node frame.resolved w.context).value).leave
        calls := (s.fire frame.node frame.resolved w.context).calls ++ w.calls } := by
  have hwait : Waiting s w.context (frame :: below) := hf ▸ hi.waiting
  have hc := Context.caches_fire (s := s) frame.resolved hwait.1.fresh
  have hself := nested_fire_self (s := s) frame.resolved (hi.context.nested hwait.1.fresh)
  have hst := Turn.stacked (.fire hs) hi.stacked hf
  have hid : frame.node ∉ below.map (·.node) := by
    have hnodup := hi.coherent.1
    rw [hi.stack, hf, List.map_cons] at hnodup
    exact (List.nodup_cons.1 hnodup).1
  refine ⟨?_, hst.stack, hst.coherent, hwait.2.caches hc hid⟩
  refine hi.context.caches hc (.inl hwait.1.gate) ?_
    (fun _ => explained_fire hw hi hf hs hc hself) ?_ ?_
  · intro pin hp
    simp [hwait.1.gate.inputPin?_eq_none] at hp
  · intro a ha
    have hm := hi.stacked.contains_iff.1 ha
    rw [hf, List.map_cons, List.mem_cons] at hm
    exact hm.imp_right hst.contains_iff.2
  · intro source hr
    obtain ⟨link, hl, rfl⟩ := hr
    by_cases hn : w.context.cached.get? link.node = none
    · exact .inr ((List.mem_cons.1 (hwait.1.source_mem hs hl hn)).imp_right hst.contains_iff.2)
    · exact .inl hn

theorem Move.inv (hw : s.netlist.WellFormed) (h : Move s w frame below w') (hi : w.Inv s)
    (hf : w.frames = frame :: below) : w'.Inv s := by
  have hwait : Waiting s w.context (frame :: below) := hf ▸ hi.waiting
  have hst := h.turn.stacked hi.stacked hf
  have hmem {id : NodeId} : w.context.processing.contains id = true ↔
      id ∈ (frame :: below).map (·.node) := hf ▸ hi.stacked.contains_iff
  cases h with
  | known slot hs hk =>
    refine ⟨hi.context, hst.stack, hst.coherent, hwait.1.resolve hs rfl ?_, hwait.2⟩
    intro link hl hn
    exact hmem.1 ((hk link hl).resolve_left (not_not_intro hn))
  | pin link pin hs hp hc =>
    have hcache := Context.caches_cache [pinValue w.context link.node pin] hc
    have hid : link.node ∉ (frame :: below).map (·.node) := fun hm =>
      (hi.on_stack (hmem.2 hm)).1.role?_ne_input (role?_of_inputPin? hp)
    have hwait' := hwait.caches hcache hid
    refine ⟨hi.context.cache_pin hw hp hc, hst.stack, hst.coherent, hwait'.1.resolve hs ?_ ?_,
      hwait'.2⟩
    · rw [slotValue_input _ hp]
      rfl
    · intro l hl hn
      obtain rfl := Option.some.inj hl
      simp [hcache.get?_self] at hn
  | descend link hs hg hc hp =>
    refine ⟨hi.context.enter link.node, hst.stack, hst.coherent, ⟨hg, hc, by simp, ?_, ?_⟩,
      hwait.congr rfl rfl⟩
    · intro l hl
      simp at hl
    · intro caller hcaller
      obtain rfl := Option.some.inj hcaller
      exact ⟨link, rfl, hs⟩
  | fire hs => exact inv_fire hw hi hf hs

theorem Inv.step (hw : s.netlist.WellFormed) (hi : w.Inv s) : (w.step s).Inv s := by
  cases hf : w.frames with
  | nil => rwa [Walk.step, hf]
  | cons frame below => exact (hi.move hw hf).inv hw hi hf

theorem Inv.run (hw : s.netlist.WellFormed) (hi : w.Inv s) (fuel : Nat) : (w.run s fuel).Inv s := by
  induction fuel generalizing w with
  | zero => exact hi
  | succ fuel ih =>
    cases hf : w.frames with
    | nil => rwa [run_of_done hf]
    | cons frame below =>
      rw [run_succ hf]
      exact ih (hi.step hw)

/-- A walk comes to its end within its work; it keeps the invariant on the way, and what was
entered or cached stays so. -/
theorem run_complete (hw : s.netlist.WellFormed) (hi : w.Inv s) {fuel : Nat}
    (h : work s w ≤ fuel) :
    (w.run s fuel).frames = [] ∧ (w.run s fuel).Inv s ∧
      w.context.Extends (w.run s fuel).context ∧
      ∀ id, (w.context.cached.contains id || w.context.processing.contains id) = true →
        ((w.run s fuel).context.cached.contains id ||
          (w.run s fuel).context.processing.contains id) = true := by
  obtain ⟨hd, _, he, hv⟩ := hi.stacked.run_complete h
  exact ⟨hd, hi.run hw fuel, he, hv⟩

end Walk

end Breadboard
