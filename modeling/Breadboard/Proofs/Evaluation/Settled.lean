import Breadboard.Proofs.Evaluation.Run

namespace Breadboard

open Relation Netlist Surroundings

structure Context.Settled (s : Surroundings) (ctx : Context) : Prop where
  inv : ctx.Inv s
  idle : ctx.processing.nodes = []
  coherent : ctx.processing.Coherent

/-- The value of a link as the context has it cached. -/
def Context.linkValue (ctx : Context) : Option Link → Bool
  | none => false
  | some link => (ctx.output? link).getD false

/-- What a boundary output shows as the context has its source cached. -/
def Context.shown (ctx : Context) (nl : Netlist Gate) (pin : NodeId) : Bool :=
  ctx.linkValue (nl.source? pin 0)

variable {s : Surroundings} {ctx ctx' : Context}

namespace Context

theorem Settled.contains_eq_false (h : ctx.Settled s) (id : NodeId) :
    ctx.processing.contains id = false := by
  rw [Bool.eq_false_iff, Ne, h.coherent.2, h.idle]
  exact List.not_mem_nil

/-- In a settled context everything that a cached node reads is cached. -/
theorem Settled.cached_of_reads (h : ctx.Settled s) {id source : NodeId}
    (hc : ctx.cached.get? id ≠ none) (hr : s.netlist.Reads id source) :
    ctx.cached.get? source ≠ none :=
  (h.inv.closed hc hr).resolve_right (Bool.eq_false_iff.1 (h.contains_eq_false source))

theorem Settled.cached_of_reflTransGen (h : ctx.Settled s) {id source : NodeId}
    (hc : ctx.cached.get? id ≠ none) (hr : ReflTransGen s.netlist.Reads id source) :
    ctx.cached.get? source ≠ none := by
  induction hr with
  | refl => exact hc
  | tail _ hr ih => exact h.cached_of_reads ih hr

/-- A fresh context, with any overrides of pin states. -/
theorem settled_fresh (s : Surroundings) (pins : NodeMap Bool) :
    Settled s { pins : Context } where
  inv :=
    { nodup := List.nodup_nil
      role := fun h => absurd rfl h
      pins := fun _ h => by simp at h
      nested := fun _ => rfl
      explained := fun h => by simp [gateOrder, NodeMap.ids, EmptyCollection.emptyCollection] at h
      closed := fun h => absurd rfl h }
  idle := rfl
  coherent := WalkStack.coherent_empty

theorem settled_withPins (s : Surroundings) (pins : List (NodeId × Bool)) :
    (withPins pins).Settled s := settled_fresh s _

theorem Extends.linkValue (h : ctx.Extends ctx') {link : Link}
    (hc : ctx.cached.get? link.node ≠ none) :
    ctx'.linkValue (some link) = ctx.linkValue (some link) := by
  obtain ⟨outputs, ho⟩ := Option.ne_none_iff_exists'.1 hc
  simp only [Context.linkValue, output?, ho, h.cached ho]

theorem Extends.pinValue (h : ctx.Extends ctx') (id : NodeId) (pin : InputPin) :
    pinValue ctx' id pin = pinValue ctx id pin := by
  rw [Surroundings.pinValue, Surroundings.pinValue, h.pins]

theorem pinValue_of_pins (h : ctx.pins = ∅) (id : NodeId) (pin : InputPin) :
    pinValue ctx id pin = pin.state := by
  rw [Surroundings.pinValue, h]
  rfl

/-- An output shows the same when more is cached than its source. -/
theorem Extends.shown (h : ctx.Extends ctx') {nl : Netlist Gate} {pin : NodeId}
    (hc : ∀ source, nl.source? pin 0 = some source → ctx.cached.get? source.node ≠ none) :
    ctx'.shown nl pin = ctx.shown nl pin := by
  rw [Context.shown, Context.shown]
  cases hsource : nl.source? pin 0 with
  | none => rfl
  | some source => exact h.linkValue (hc source hsource)

end Context

namespace Surroundings

open Context

/-- A walk may start at any gate that is not cached. -/
theorem inv_start (h : ctx.Settled s) {root : NodeId} (hg : s.netlist.IsGate root)
    (hc : ctx.cached.get? root = none) : (Walk.start ctx root).Inv s := by
  have hst := Walk.stacked_start h.idle h.coherent hg hc
  refine ⟨h.inv.enter root, hst.stack, hst.coherent, ⟨hg, hc, by simp [Walk.start], ?_, ?_⟩,
    trivial⟩
  · intro link hl
    simp at hl
  · intro caller hcaller
    simp at hcaller

theorem walk_settled (hw : s.netlist.WellFormed) (h : ctx.Settled s) {root : NodeId}
    (hg : s.netlist.IsGate root) (hc : ctx.cached.get? root = none) :
    let w := (Walk.start ctx root).run s s.netlist.walkBound
    w.frames = [] ∧ w.context.Settled s ∧ ctx.Extends w.context ∧
      w.context.cached.get? root ≠ none := by
  obtain ⟨hd, hi, he, hv⟩ := Walk.run_complete hw (inv_start h hg hc) (Walk.work_start_le hg)
  have hidle := hi.stack
  rw [hd, List.map_nil] at hidle
  have hsettled : Settled s ((Walk.start ctx root).run s s.netlist.walkBound).context :=
    ⟨hi.context, hidle, hi.coherent⟩
  have hroot := hv root (by simp [Walk.start])
  rw [hsettled.contains_eq_false, Bool.or_false] at hroot
  exact ⟨hd, hsettled, ⟨he.cached, he.nested, he.pins⟩, Option.isSome_iff_ne_none.1 hroot⟩

theorem evalNode_settled (hw : s.netlist.WellFormed) (h : ctx.Settled s) (root : NodeId) :
    (s.evalNode ctx root).context.Settled s ∧ ctx.Extends (s.evalNode ctx root).context ∧
      (s.evalNode ctx root).value = ((s.evalNode ctx root).context.cached.get? root).getD [] ∧
      (s.netlist.IsGate root ∨ s.netlist.role? root = some .input →
        (s.evalNode ctx root).context.cached.get? root ≠ none) := by
  unfold evalNode
  cases hc : ctx.cached.get? root with
  | some outputs =>
    refine ⟨h, .refl ctx, ?_, ?_⟩
    · simp [hc]
    · intro _
      simp [hc]
  | none =>
    cases hk : s.netlist.kind? root with
    | none =>
      refine ⟨h, .refl ctx, by simp [hc], ?_⟩
      intro hr
      simp [role?, hk, IsGate] at hr
    | some kind =>
      cases kind with
      | gate g =>
        obtain ⟨_, hs, he, hr⟩ := walk_settled hw h ⟨g, kind?_eq_gate_iff.1 hk⟩ hc
        exact ⟨hs, he, rfl, fun _ => hr⟩
      | input pin =>
        have hp : s.netlist.inputPin? root = some pin := by simp [inputPin?, hk, NodeKind.inputPin?]
        have hcache := caches_cache [pinValue ctx root pin] hc
        refine ⟨⟨h.inv.cache_pin hw hp hc, h.idle, h.coherent⟩, hcache.extends_of, ?_, ?_⟩
        · dsimp only
          rw [hcache.get?_self, Option.getD_some]
        · intro _
          dsimp only
          rw [hcache.get?_self]
          exact Option.some_ne_none _
      | output pin =>
        refine ⟨h, .refl ctx, by simp [hc], ?_⟩
        intro hr
        simp [role?, hk, IsGate, NodeKind.role] at hr

/-- A live source of a link is cached once the link was evaluated. -/
theorem evalLink_settled (hw : s.netlist.WellFormed) (h : ctx.Settled s) (link : Option Link) :
    (s.evalLink ctx link).context.Settled s ∧ ctx.Extends (s.evalLink ctx link).context ∧
      (s.evalLink ctx link).value = (s.evalLink ctx link).context.linkValue link ∧
      ∀ l, link = some l → s.netlist.IsGate l.node ∨ s.netlist.role? l.node = some .input →
        (s.evalLink ctx link).context.cached.get? l.node ≠ none := by
  cases link with
  | none => exact ⟨h, .refl ctx, rfl, nofun⟩
  | some link =>
    obtain ⟨hs, he, hv, hc⟩ := evalNode_settled hw h link.node
    unfold evalLink
    by_cases hl : s.netlist.isLive link.node = true
    · dsimp only
      rw [if_pos hl]
      refine ⟨hs, he, ?_, fun l hl => Option.some.inj hl ▸ hc⟩
      dsimp only
      rw [hv, linkValue, output?]
      cases (s.evalNode ctx link.node).context.cached.get? link.node <;> simp
    · have hr : s.netlist.role? link.node = none := by
        simpa [isLive_eq_isSome_role?] using hl
      have hn : ctx.cached.get? link.node = none := by
        by_contra hn
        rcases h.inv.role hn with hg | hi
        · exact hg.role?_ne_none hr
        · simp [hr] at hi
      dsimp only
      rw [if_neg hl]
      refine ⟨h, .refl ctx, by simp [linkValue, output?, hn], ?_⟩
      intro l hl hrole
      obtain rfl := Option.some.inj hl
      rcases hrole with hg | hi
      · exact absurd hr hg.role?_ne_none
      · simp [hr] at hi

theorem readPin_settled (hw : s.netlist.WellFormed) (h : ctx.Settled s) (pin : NodeId) :
    (s.readPin ctx pin).context.Settled s ∧ ctx.Extends (s.readPin ctx pin).context ∧
      (s.readPin ctx pin).value = (s.readPin ctx pin).context.shown s.netlist pin ∧
      ∀ source, s.netlist.source? pin 0 = some source →
        (s.readPin ctx pin).context.cached.get? source.node ≠ none := by
  obtain ⟨hs, he, hv, hc⟩ := evalLink_settled hw h (s.netlist.source? pin 0)
  refine ⟨hs, he, hv, fun source hsource => hc source hsource ?_⟩
  exact hw.role?_of_reads (hw.reads_of_source? hsource)

/-- Pins read one after another show what the last context has cached, since nothing that was
cached changes on the way. -/
theorem readPins_settled (hw : s.netlist.WellFormed) (h : ctx.Settled s) (pins : List NodeId) :
    (s.readPins ctx pins).context.Settled s ∧ ctx.Extends (s.readPins ctx pins).context ∧
      (s.readPins ctx pins).value = pins.map ((s.readPins ctx pins).context.shown s.netlist) ∧
      ∀ pin ∈ pins, ∀ source, s.netlist.source? pin 0 = some source →
        (s.readPins ctx pins).context.cached.get? source.node ≠ none := by
  induction pins generalizing ctx with
  | nil => exact ⟨h, .refl ctx, rfl, nofun⟩
  | cons pin pins ih =>
    obtain ⟨hs, he, hv, hc⟩ := readPin_settled hw h pin
    obtain ⟨hs', he', hv', hc'⟩ := ih hs
    unfold readPins
    refine ⟨hs', he.trans he', ?_, ?_⟩
    · have hfirst : (s.readPins (s.readPin ctx pin).context pins).context.shown s.netlist pin =
          (s.readPin ctx pin).value := by
        rw [hv]
        exact he'.shown hc
      simp only [hv', List.map_cons, hfirst]
    · intro p hp source hsource
      rcases List.mem_cons.1 hp with rfl | hp
      · exact he'.cached_ne_none (hc source hsource)
      · exact hc' p hp source hsource

theorem evalNodes_settled (hw : s.netlist.WellFormed) (h : ctx.Settled s) (ids : List NodeId) :
    (s.evalNodes ctx ids).context.Settled s ∧ ctx.Extends (s.evalNodes ctx ids).context ∧
      ∀ id ∈ ids, s.netlist.IsGate id ∨ s.netlist.role? id = some .input →
        (s.evalNodes ctx ids).context.cached.get? id ≠ none := by
  induction ids generalizing ctx with
  | nil => exact ⟨h, .refl ctx, nofun⟩
  | cons id ids ih =>
    obtain ⟨hs, he, _, hc⟩ := evalNode_settled hw h id
    obtain ⟨hs', he', hc'⟩ := ih hs
    unfold evalNodes
    refine ⟨hs', he.trans he', ?_⟩
    intro a ha hr
    rcases List.mem_cons.1 ha with rfl | ha
    · exact he'.cached_ne_none (hc hr)
    · exact hc' a ha hr

end Surroundings

end Breadboard
