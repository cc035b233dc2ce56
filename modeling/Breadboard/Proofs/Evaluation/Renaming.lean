import Breadboard.Proofs.Evaluation.Settled
import Breadboard.Proofs.Netlist.Embedding

namespace Breadboard

open Surroundings

def Frame.rename (f : NodeId → NodeId) (frame : Frame) : Frame := ⟨f frame.node, frame.resolved⟩

namespace Surroundings

variable {s : Surroundings} {id : NodeId} {values : Bits} {ctx : Context}

theorem fire_of_hierarchical (h : s.netlist.isHierarchical id = true) :
    s.fire id values ctx =
      let answer := s.respond id values ((ctx.nested.get? id).getD ∅)
        (s.previous.bind (·.nested.get? id))
      ⟨answer.value, ctx.setNested id answer.context, answer.calls⟩ := if_pos h

theorem fire_of_not_hierarchical (h : ¬ s.netlist.isHierarchical id = true) :
    s.fire id values ctx =
      let answer := s.respond id values ∅ none
      ⟨answer.value, ctx, answer.calls⟩ := if_neg h

end Surroundings

namespace Netlist

/-- Two previous ticks that have the same cached for the gates of a part and for their copies. -/
def SameBefore (nl : Netlist Gate) (part : NodeId → Prop) (f : NodeId → NodeId)
    (before before' : Option Context) : Prop :=
  ∀ a, part a → nl.IsGate a →
    before'.bind (·.cached.get? (f a)) = before.bind (·.cached.get? a) ∧
      before'.bind (·.nested.get? (f a)) = before.bind (·.nested.get? a)

/-- Two contexts that have the same for the nodes of a part and for their copies. -/
structure Tracks (nl nl' : Netlist Gate) (part : NodeId → Prop) (f : NodeId → NodeId)
    (ctx ctx' : Context) : Prop where
  cached : ∀ {a}, part a → ctx'.cached.get? (f a) = ctx.cached.get? a
  nested : ∀ {a}, part a → ctx'.nested.get? (f a) = ctx.nested.get? a
  processing : ∀ {a}, part a → ctx'.processing.contains (f a) = ctx.processing.contains a
  pins : ∀ {a pin pin'}, part a → nl.inputPin? a = some pin → nl'.inputPin? (f a) = some pin' →
    pinValue ctx' (f a) pin' = pinValue ctx a pin

/-- Two walks with the same frames up to names, all in the part. -/
structure WalkTracks (nl nl' : Netlist Gate) (part : NodeId → Prop) (f : NodeId → NodeId)
    (w w' : Walk) : Prop where
  frames : w'.frames = w.frames.map (Frame.rename f)
  inside : ∀ frame ∈ w.frames, part frame.node
  context : nl.Tracks nl' part f w.context w'.context

variable {nl nl' : Netlist Gate} {part : NodeId → Prop} {f : NodeId → NodeId}
  {before before' : Option Context} {ctx ctx' : Context} {a : NodeId}

theorem Embeds.respond (h : nl.Embeds nl' part f) (ha : part a) (hg : nl.IsGate a) :
    nl'.respond (f a) = nl.respond a := by
  obtain ⟨g, hg⟩ := hg
  funext inputs inner earlier
  simp only [Netlist.respond, gate?_eq_some_iff.2 hg, gate?_eq_some_iff.2 ((h.role ha).trans hg)]

namespace Tracks

theorem output? (h : nl.Tracks nl' part f ctx ctx') {link : Link} (hl : part link.node) :
    ctx'.output? (link.rename f) = ctx.output? link := by
  simp only [Context.output?, Link.rename, h.cached hl]

theorem cache (h : nl.Tracks nl' part f ctx ctx') (he : nl.Embeds nl' part f) (ha : part a)
    (outputs : Bits) : nl.Tracks nl' part f (ctx.cache a outputs) (ctx'.cache (f a) outputs) where
  cached {b} hb := by
    rw [Context.cached_cache, Context.cached_cache]
    by_cases hab : a = b
    · simp [hab]
    · rw [if_neg hab, if_neg fun hf => hab (he.injective ha hb hf), h.cached hb]
  nested := h.nested
  processing := h.processing
  pins := h.pins

theorem setNested (h : nl.Tracks nl' part f ctx ctx') (he : nl.Embeds nl' part f) (ha : part a)
    (inner : Context) :
    nl.Tracks nl' part f (ctx.setNested a inner) (ctx'.setNested (f a) inner) where
  cached := h.cached
  nested {b} hb := by
    rw [Context.nested_setNested, Context.nested_setNested]
    by_cases hab : a = b
    · simp [hab]
    · rw [if_neg hab, if_neg fun hf => hab (he.injective ha hb hf), h.nested hb]
  processing := h.processing
  pins := h.pins

theorem enter (h : nl.Tracks nl' part f ctx ctx') (he : nl.Embeds nl' part f) (ha : part a) :
    nl.Tracks nl' part f (ctx.enter a) (ctx'.enter (f a)) where
  cached := h.cached
  nested := h.nested
  processing {b} hb := by
    rw [Context.contains_enter, Context.contains_enter, h.processing hb]
    by_cases hab : a = b
    · simp [hab]
    · have hf : f a ≠ f b := fun hf => hab (he.injective ha hb hf)
      rw [beq_eq_false_iff_ne.2 hab, beq_eq_false_iff_ne.2 hf]
  pins := h.pins

theorem leave (h : nl.Tracks nl' part f ctx ctx') (he : nl.Embeds nl' part f) (ha : part a)
    {rest rest' : List NodeId} (hs : ctx.processing.nodes = a :: rest)
    (hs' : ctx'.processing.nodes = f a :: rest') :
    nl.Tracks nl' part f ctx.leave ctx'.leave where
  cached := h.cached
  nested := h.nested
  processing {b} hb := by
    change ctx'.processing.pop.2.contains (f b) = ctx.processing.pop.2.contains b
    have hsame : ctx'.processing.members.contains (f b) = ctx.processing.members.contains b :=
      h.processing hb
    simp only [WalkStack.pop, hs, hs', WalkStack.contains, NodeSet.contains_set, hsame]
    by_cases hab : a = b
    · rw [if_pos hab, if_pos (congrArg f hab)]
    · rw [if_neg hab, if_neg fun hf => hab (he.injective ha hb hf)]
  pins := h.pins

theorem fire (h : nl.Tracks nl' part f ctx ctx') (he : nl.Embeds nl' part f)
    (hb : nl.SameBefore part f before before') (ha : part a) (hg : nl.IsGate a) (values : Bits) :
    ((nl'.within before').fire (f a) values ctx').value =
        ((nl.within before).fire a values ctx).value ∧
      nl.Tracks nl' part f ((nl.within before).fire a values ctx).context
        ((nl'.within before').fire (f a) values ctx').context := by
  have hinner : (nl'.respond (f a) values ((ctx'.nested.get? (f a)).getD ∅)
      (before'.bind (·.nested.get? (f a)))) = nl.respond a values ((ctx.nested.get? a).getD ∅)
        (before.bind (·.nested.get? a)) := by
    rw [he.respond ha hg, h.nested ha, (hb a ha hg).2]
  by_cases hh : nl.isHierarchical a = true
  · have hh' : nl'.isHierarchical (f a) = true := (he.isHierarchical ha hg).trans hh
    rw [fire_of_hierarchical (s := nl.within before) hh,
      fire_of_hierarchical (s := nl'.within before') hh']
    dsimp only [within]
    rw [hinner]
    exact ⟨rfl, h.setNested he ha _⟩
  · have hh' : ¬ nl'.isHierarchical (f a) = true := by rwa [he.isHierarchical ha hg]
    rw [fire_of_not_hierarchical (s := nl.within before) hh,
      fire_of_not_hierarchical (s := nl'.within before') hh']
    dsimp only [within]
    rw [he.respond ha hg]
    exact ⟨rfl, h⟩

end Tracks

theorem delayed_rename (nl' : Netlist Gate) {link : Link} (hb : nl.SameBefore part f before before')
    (hl : part link.node) (hg : nl.IsGate link.node) :
    (nl'.within before').delayed (link.rename f) = (nl.within before).delayed link := by
  have hc := (hb link.node hl hg).1
  simp only [delayed, within, Context.output?, Link.rename]
  rw [← Option.bind_assoc, ← Option.bind_assoc, hc]

/-- A pin of the part and its copy show the same. -/
theorem Tracks.shown (h : nl.Tracks nl' part f ctx ctx') (he : nl.Embeds nl' part f)
    (hw : nl.WellFormed) (hw' : nl'.WellFormed) (ha : part a) :
    ctx'.shown nl' (f a) = ctx.shown nl a := by
  have hsource := he.source?_eq hw hw' ha
  rw [Context.shown, Context.shown, hsource]
  cases hl : nl.source? a 0 with
  | none => rfl
  | some link =>
    have hlink : part link.node := he.closed ha (hw.reads_of_source? hl)
    exact congrArg (·.getD false) (h.output? hlink)

/-- A slot yields the same value in the part and in the copy, or the same node to descend to. -/
theorem Tracks.resolve (h : nl.Tracks nl' part f ctx ctx') (he : nl.Embeds nl' part f)
    (hw : nl.WellFormed) (hb : nl.SameBefore part f before before') (ha : part a)
    (hg : ∀ id, ctx.processing.contains id = true → nl.IsGate id) {slot : Option Link}
    (hs : slot ∈ nl.slots a) :
    (∃ bit c c', (nl.within before).resolve ctx slot = .value bit c ∧
      (nl'.within before').resolve ctx' (slot.map (Link.rename f)) = .value bit c' ∧
      nl.Tracks nl' part f c c') ∨
    ∃ b, part b ∧ (nl.within before).resolve ctx slot = .descend b ∧
      (nl'.within before').resolve ctx' (slot.map (Link.rename f)) = .descend (f b) := by
  cases slot with
  | none => exact .inl ⟨false, ctx, ctx', rfl, rfl, h⟩
  | some link =>
    have hl := he.part_of_link ha hs
    have hrole := he.role hl
    have hlive := hw.isLive_of_link hs
    have hlive' : nl'.isLive (f link.node) = true := (he.isLive hl).trans hlive
    have hprocessing := h.processing hl
    have hcached := h.cached hl
    cases hp : ctx.processing.contains link.node with
    | true =>
      have hvalue := resolve_waiting (s := nl.within before) link hlive hp
      have hvalue' := resolve_waiting (s := nl'.within before') (link.rename f) hlive'
        (hprocessing.trans hp)
      rw [delayed_rename nl' hb hl (hg _ hp)] at hvalue'
      exact .inl ⟨_, ctx, ctx', hvalue, hvalue', h⟩
    | false =>
      have hp' := hprocessing.trans hp
      by_cases hc : ctx.cached.get? link.node = none
      · have hc' := hcached.trans hc
        rcases hw.role?_of_reads ⟨link, hs, rfl⟩ with hgate | hi
        · have hgate' := (he.isGate hl).2 hgate
          exact .inr ⟨link.node, hl, resolve_gate (s := nl.within before) link hgate hp hc,
            resolve_gate (s := nl'.within before') (link.rename f) hgate' hp' hc'⟩
        · obtain ⟨pin, hpin⟩ := exists_inputPin? hi
          obtain ⟨pin', hpin'⟩ := exists_inputPin? (hrole.trans hi)
          have hvalue := resolve_pin (s := nl.within before) link hpin hp hc
          have hvalue' := resolve_pin (s := nl'.within before') (link.rename f) hpin' hp' hc'
          have hstate : pinValue ctx' (link.rename f).node pin' = pinValue ctx link.node pin :=
            h.pins hl hpin hpin'
          rw [hstate] at hvalue'
          exact .inl ⟨_, _, _, hvalue, hvalue', h.cache he hl _⟩
      · have hc' : ctx'.cached.get? (f link.node) ≠ none := by rwa [hcached]
        have hvalue := resolve_cached (s := nl.within before) link hlive hp hc
        have hvalue' := resolve_cached (s := nl'.within before') (link.rename f) hlive' hp' hc'
        rw [h.output? hl] at hvalue'
        exact .inl ⟨_, ctx, ctx', hvalue, hvalue', h⟩

theorem WalkTracks.step {w w' : Walk} (h : nl.WalkTracks nl' part f w w')
    (he : nl.Embeds nl' part f) (hw : nl.WellFormed) (hb : nl.SameBefore part f before before')
    (hi : w.Inv (nl.within before)) (hi' : w'.Inv (nl'.within before')) :
    nl.WalkTracks nl' part f (w.step (nl.within before)) (w'.step (nl'.within before')) := by
  cases hf : w.frames with
  | nil =>
    have hf' : w'.frames = [] := by rw [h.frames, hf, List.map_nil]
    rw [Walk.step, Walk.step, hf, hf']
    exact h
  | cons frame below =>
    have hf' : w'.frames = frame.rename f :: below.map (Frame.rename f) := by
      rw [h.frames, hf, List.map_cons]
    have ha : part frame.node := h.inside frame (by simp [hf])
    have hbelow : ∀ g ∈ below, part g.node := fun g hg => h.inside g (by simp [hf, hg])
    have hg : nl.IsGate frame.node := (hi.waiting.fits_of_mem (by simp [hf])).1
    have hslot : (nl'.slots (f frame.node))[frame.resolved.length]? =
        (nl.slots frame.node)[frame.resolved.length]?.map (Option.map (Link.rename f)) := by
      rw [he.slots ha, List.getElem?_map]
    have hstack : w.context.processing.nodes = frame.node :: below.map (·.node) := by
      rw [hi.stack, hf, List.map_cons]
    have hstack' : w'.context.processing.nodes =
        f frame.node :: (below.map (Frame.rename f)).map (·.node) := by
      rw [hi'.stack, hf', List.map_cons]
      rfl
    cases hs : (nl.slots frame.node)[frame.resolved.length]? with
    | none =>
      rw [hs, Option.map_none] at hslot
      rw [Walk.step_fire (s := nl.within before) hf hs,
        Walk.step_fire (s := nl'.within before') hf' hslot]
      obtain ⟨hv, ht⟩ := h.context.fire he hb ha hg frame.resolved
      refine ⟨rfl, hbelow, ?_⟩
      dsimp only [Frame.rename]
      rw [hv]
      exact (ht.cache he ha _).leave he ha
        ((congrArg WalkStack.nodes (processing_fire ..)).trans hstack)
        ((congrArg WalkStack.nodes (processing_fire ..)).trans hstack')
    | some slot =>
      rw [hs, Option.map_some] at hslot
      rcases h.context.resolve he hw hb ha (fun id hid => (hi.on_stack hid).1)
        (List.mem_of_getElem? hs) with ⟨bit, c, c', hr, hr', ht⟩ | ⟨b, hpb, hr, hr'⟩
      · rw [Walk.step_value (s := nl.within before) hf hs hr,
          Walk.step_value (s := nl'.within before') hf' hslot hr']
        exact ⟨rfl, List.forall_mem_cons.2 ⟨ha, hbelow⟩, ht⟩
      · rw [Walk.step_descend (s := nl.within before) hf hs hr,
          Walk.step_descend (s := nl'.within before') hf' hslot hr']
        refine ⟨rfl, ?_, h.context.enter he hpb⟩
        exact List.forall_mem_cons.2 ⟨hpb, List.forall_mem_cons.2 ⟨ha, hbelow⟩⟩

theorem WalkTracks.run {w w' : Walk} (h : nl.WalkTracks nl' part f w w')
    (he : nl.Embeds nl' part f) (hw : nl.WellFormed) (hw' : nl'.WellFormed)
    (hb : nl.SameBefore part f before before')
    (hi : w.Inv (nl.within before)) (hi' : w'.Inv (nl'.within before')) (fuel : Nat) :
    nl.WalkTracks nl' part f (w.run (nl.within before) fuel)
      (w'.run (nl'.within before') fuel) := by
  induction fuel generalizing w w' with
  | zero => exact h
  | succ fuel ih =>
    cases hf : w.frames with
    | nil =>
      have hf' : w'.frames = [] := by rw [h.frames, hf, List.map_nil]
      rw [Walk.run_of_done hf, Walk.run_of_done hf']
      exact h
    | cons frame below =>
      have hf' : w'.frames = frame.rename f :: below.map (Frame.rename f) := by
        rw [h.frames, hf, List.map_cons]
      rw [Walk.run_succ hf, Walk.run_succ hf']
      exact ih (h.step he hw hb hi hi') (hi.step hw) (hi'.step hw')

section

variable (he : nl.Embeds nl' part f) (hw : nl.WellFormed) (hw' : nl'.WellFormed)
  (hb : nl.SameBefore part f before before')

include he hw hw' hb

theorem walk_rename (h : nl.Tracks nl' part f ctx ctx') (hs : ctx.Settled (nl.within before))
    (hs' : ctx'.Settled (nl'.within before')) (ha : part a) (hg : nl.IsGate a)
    (hc : ctx.cached.get? a = none) :
    nl.Tracks nl' part f ((Walk.start ctx a).run (nl.within before) nl.walkBound).context
      ((Walk.start ctx' (f a)).run (nl'.within before') nl'.walkBound).context := by
  have hg' := (he.isGate ha).2 hg
  have hc' := (h.cached ha).trans hc
  have hstart : nl.WalkTracks nl' part f (Walk.start ctx a) (Walk.start ctx' (f a)) := by
    refine ⟨rfl, ?_, h.enter he ha⟩
    intro frame hf
    rw [List.mem_singleton.1 hf]
    exact ha
  have hi := inv_start (s := nl.within before) hs hg hc
  have hi' := inv_start (s := nl'.within before') hs' hg' hc'
  obtain ⟨hd, _⟩ := walk_settled (s := nl.within before) hw hs hg hc
  obtain ⟨hd', _⟩ := walk_settled (s := nl'.within before') hw' hs' hg' hc'
  -- the bounds differ, but a walk that has ended stays as it is
  have hrun := (hstart.run he hw hw' hb hi hi' (max nl.walkBound nl'.walkBound)).context
  rwa [Walk.run_of_le (n := nl.walkBound) hd (Nat.le_max_left _ _),
    Walk.run_of_le (n := nl'.walkBound) hd' (Nat.le_max_right _ _)] at hrun

theorem evalNode_rename (h : nl.Tracks nl' part f ctx ctx') (hs : ctx.Settled (nl.within before))
    (hs' : ctx'.Settled (nl'.within before')) (ha : part a) :
    ((nl'.within before').evalNode ctx' (f a)).value =
        ((nl.within before).evalNode ctx a).value ∧
      nl.Tracks nl' part f ((nl.within before).evalNode ctx a).context
        ((nl'.within before').evalNode ctx' (f a)).context := by
  have hrole := he.role ha
  cases hc : ctx.cached.get? a with
  | some outputs =>
    have hc' := (h.cached ha).trans hc
    simp only [evalNode, hc, hc']
    exact ⟨trivial, h⟩
  | none =>
    have hc' := (h.cached ha).trans hc
    cases hr : nl.role? a with
    | none =>
      have hk : nl.kind? a = none := role?_eq_none_iff.1 hr
      have hk' : nl'.kind? (f a) = none := role?_eq_none_iff.1 (hrole.trans hr)
      simp only [evalNode, hc, hc', within, hk, hk']
      exact ⟨trivial, h⟩
    | some r =>
      cases r with
      | gate g =>
        have hk := kind?_eq_gate_iff.2 hr
        have hk' := kind?_eq_gate_iff.2 (hrole.trans hr)
        have hrun := walk_rename he hw hw' hb h hs hs' ha ⟨g, hr⟩ hc
        simp only [evalNode, hc, hc', within, hk, hk']
        exact ⟨congrArg (·.getD []) (hrun.cached ha), hrun⟩
      | input =>
        obtain ⟨pin, hp⟩ := exists_inputPin? hr
        obtain ⟨pin', hp'⟩ := exists_inputPin? (hrole.trans hr)
        have hv := h.pins ha hp hp'
        simp only [evalNode, hc, hc', within, kind?_of_inputPin? hp, kind?_of_inputPin? hp', hv]
        exact ⟨trivial, h.cache he ha _⟩
      | output =>
        obtain ⟨pin, hp⟩ := exists_outputPin? hr
        obtain ⟨pin', hp'⟩ := exists_outputPin? (hrole.trans hr)
        simp only [evalNode, hc, hc', within, hp, hp']
        exact ⟨trivial, h⟩

theorem evalLink_rename (h : nl.Tracks nl' part f ctx ctx') (hs : ctx.Settled (nl.within before))
    (hs' : ctx'.Settled (nl'.within before')) {link : Option Link}
    (hp : ∀ l, link = some l → part l.node) :
    ((nl'.within before').evalLink ctx' (link.map (Link.rename f))).value =
        ((nl.within before).evalLink ctx link).value ∧
      nl.Tracks nl' part f ((nl.within before).evalLink ctx link).context
        ((nl'.within before').evalLink ctx' (link.map (Link.rename f))).context := by
  cases link with
  | none => exact ⟨rfl, h⟩
  | some link =>
    have hpart := hp link rfl
    have hlive := he.isLive hpart
    obtain ⟨hv, ht⟩ := evalNode_rename he hw hw' hb h hs hs' hpart
    simp only [within] at hv ht
    cases hl : nl.isLive link.node with
    | true =>
      rw [hl] at hlive
      simp only [Option.map_some, evalLink, within, Link.rename, hl, hlive, if_true, hv]
      exact ⟨trivial, ht⟩
    | false =>
      rw [hl] at hlive
      simp only [Option.map_some, evalLink, within, Link.rename, hl, hlive]
      exact ⟨rfl, h⟩

theorem readPin_rename (h : nl.Tracks nl' part f ctx ctx') (hs : ctx.Settled (nl.within before))
    (hs' : ctx'.Settled (nl'.within before')) (ha : part a) :
    ((nl'.within before').readPin ctx' (f a)).value = ((nl.within before).readPin ctx a).value ∧
      nl.Tracks nl' part f ((nl.within before).readPin ctx a).context
        ((nl'.within before').readPin ctx' (f a)).context := by
  have hpart : ∀ l, nl.source? a 0 = some l → part l.node := fun l hl =>
    he.closed ha (hw.reads_of_source? hl)
  have hlink := evalLink_rename he hw hw' hb h hs hs' hpart
  rw [← he.source?_eq hw hw' ha] at hlink
  exact hlink

/-- Pins of the part and their copies show the same, and the contexts still agree afterwards. -/
theorem readPins_rename (h : nl.Tracks nl' part f ctx ctx') (hs : ctx.Settled (nl.within before))
    (hs' : ctx'.Settled (nl'.within before')) {pins : List NodeId} (hp : ∀ a ∈ pins, part a) :
    ((nl'.within before').readPins ctx' (pins.map f)).value =
        ((nl.within before).readPins ctx pins).value ∧
      nl.Tracks nl' part f ((nl.within before).readPins ctx pins).context
        ((nl'.within before').readPins ctx' (pins.map f)).context := by
  induction pins generalizing ctx ctx' with
  | nil => exact ⟨rfl, h⟩
  | cons pin pins ih =>
    obtain ⟨hv, ht⟩ := readPin_rename he hw hw' hb h hs hs' (hp pin List.mem_cons_self)
    obtain ⟨hv', ht'⟩ := ih ht (readPin_settled (s := nl.within before) hw hs pin).1
      (readPin_settled (s := nl'.within before') hw' hs' (f pin)).1
      fun a ha => hp a (List.mem_cons_of_mem _ ha)
    simp only [List.map_cons, readPins, hv, hv']
    exact ⟨trivial, ht'⟩

end

end Netlist

end Breadboard
