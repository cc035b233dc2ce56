import Breadboard.Proofs.Evaluation.Meaning
import Breadboard.Proofs.Evaluation.Renaming

namespace Breadboard

open Surroundings

namespace Netlist

/-- Two contexts that have the same nodes cached and waiting, and for the nodes of a part the same
altogether. -/
structure Lockstep (nl nl' : Netlist Gate) (part : NodeId → Prop) (ctx ctx' : Context) :
    Prop where
  known : ∀ a, ctx'.cached.get? a = none ↔ ctx.cached.get? a = none
  waiting : ctx'.processing = ctx.processing
  tracks : nl.Tracks nl' part id ctx ctx'

end Netlist

/-- Two waiting frames of one node that have got to the same slot. -/
structure Frame.Paired (part : NodeId → Prop) (frame frame' : Frame) : Prop where
  node : frame'.node = frame.node
  length : frame'.resolved.length = frame.resolved.length
  values : part frame.node → frame'.resolved = frame.resolved

namespace Netlist

structure WalkLockstep (nl nl' : Netlist Gate) (part : NodeId → Prop) (w w' : Walk) : Prop where
  frames : List.Forall₂ (Frame.Paired part) w.frames w'.frames
  context : nl.Lockstep nl' part w.context w'.context

variable {nl nl' : Netlist Gate} {part : NodeId → Prop} {before before' : Option Context}
  {ctx ctx' : Context} {a : NodeId} {w w' : Walk}

namespace Lockstep

theorem cache (h : nl.Lockstep nl' part ctx ctx') {outputs outputs' : Bits}
    (hv : part a → outputs' = outputs) :
    nl.Lockstep nl' part (ctx.cache a outputs) (ctx'.cache a outputs') where
  known b := by
    rw [Context.cached_cache, Context.cached_cache]
    split
    · simp
    · exact h.known b
  waiting := h.waiting
  tracks :=
    { h.tracks with
      cached := fun {b} hb => by
        rw [Context.cached_cache, Context.cached_cache, id_eq]
        split
        · next he => rw [hv (he ▸ hb)]
        · exact h.tracks.cached hb }

theorem enter (h : nl.Lockstep nl' part ctx ctx') (a : NodeId) :
    nl.Lockstep nl' part (ctx.enter a) (ctx'.enter a) where
  known := h.known
  waiting := congrArg (fun stack => (stack.push a).2) h.waiting
  tracks :=
    { h.tracks with
      processing := fun {b} hb => by
        rw [Context.contains_enter, Context.contains_enter, h.tracks.processing hb]
        rfl }

theorem leave (h : nl.Lockstep nl' part ctx ctx') :
    nl.Lockstep nl' part ctx.leave ctx'.leave :=
  have hstack : ctx'.leave.processing = ctx.leave.processing := congrArg (·.pop.2) h.waiting
  ⟨h.known, hstack, { h.tracks with processing := fun {b} _ => congrArg (·.contains b) hstack }⟩

/-- A gate outside the part may answer anything; that concerns no node of the part. -/
theorem fire (h : nl.Lockstep nl' part ctx ctx') (he : nl.Embeds nl' part id)
    (hb : nl.SameBefore part id before before') (hg : nl.IsGate a) {values values' : Bits}
    (hv : part a → values' = values) :
    (part a → ((nl'.within before').fire a values' ctx').value =
        ((nl.within before).fire a values ctx).value) ∧
      nl.Lockstep nl' part ((nl.within before).fire a values ctx).context
        ((nl'.within before').fire a values' ctx').context := by
  by_cases ha : part a
  · obtain rfl := hv ha
    obtain ⟨hvalue, htracks⟩ := h.tracks.fire he hb ha hg values'
    refine ⟨fun _ => hvalue, ?_, ?_, htracks⟩
    · intro b
      rw [cached_fire, cached_fire]
      exact h.known b
    · rw [processing_fire, processing_fire]
      exact h.waiting
  · refine ⟨fun hin => absurd hin ha, ?_, ?_, ?_⟩
    · intro b
      rw [cached_fire, cached_fire]
      exact h.known b
    · rw [processing_fire, processing_fire]
      exact h.waiting
    · have hne {b : NodeId} (hb : part b) : b ≠ a := fun he => ha (he ▸ hb)
      refine ⟨?_, ?_, ?_, ?_⟩
      · intro b hb
        rw [cached_fire, cached_fire]
        exact h.tracks.cached hb
      · intro b hb
        rw [id_eq, nested_fire_of_ne _ (hne hb), nested_fire_of_ne _ (hne hb)]
        exact h.tracks.nested hb
      · intro b hb
        rw [processing_fire, processing_fire]
        exact h.tracks.processing hb
      · intro b pin pin' hb hp hp'
        rw [pinValue, pinValue, pins_fire, pins_fire]
        exact h.tracks.pins hb hp hp'

/-- A slot yields a value in both contexts, or the same node to descend to. -/
theorem resolve (h : nl.Lockstep nl' part ctx ctx') (ha : Alike nl nl')
    (he : nl.Embeds nl' part id) (hw : nl.WellFormed) (hb : nl.SameBefore part id before before')
    (hg : ∀ id, ctx.processing.contains id = true → nl.IsGate id) {slot : Option Link}
    (hs : slot ∈ nl.slots a) :
    (∃ bit bit' c c', (nl.within before).resolve ctx slot = .value bit c ∧
      (nl'.within before').resolve ctx' slot = .value bit' c' ∧
      (part a → bit' = bit) ∧ nl.Lockstep nl' part c c') ∨
    ∃ b, (nl.within before).resolve ctx slot = .descend b ∧
      (nl'.within before').resolve ctx' slot = .descend b := by
  cases slot with
  | none => exact .inl ⟨false, false, ctx, ctx', rfl, rfl, fun _ => rfl, h⟩
  | some link =>
    have hl (hin : part a) : part link.node := he.part_of_link hin hs
    have hlive := hw.isLive_of_link hs
    have hlive' : nl'.isLive link.node = true := by
      rw [isLive_eq_isSome_role?, ha.role, ← isLive_eq_isSome_role?, hlive]
    have hwaiting : ctx'.processing.contains link.node = ctx.processing.contains link.node :=
      congrArg (·.contains link.node) h.waiting
    cases hp : ctx.processing.contains link.node with
    | true =>
      refine .inl ⟨_, _, ctx, ctx', resolve_waiting (s := nl.within before) link hlive hp,
        resolve_waiting (s := nl'.within before') link hlive' (hwaiting.trans hp), ?_, h⟩
      intro hin
      exact delayed_rename nl' hb (hl hin) (hg _ hp)
    | false =>
      have hp' := hwaiting.trans hp
      by_cases hc : ctx.cached.get? link.node = none
      · have hc' := (h.known link.node).2 hc
        rcases hw.role?_of_reads ⟨link, hs, rfl⟩ with ⟨g, hgate⟩ | hi
        · have hgate' := (ha.role link.node).trans hgate
          exact .inr ⟨link.node, resolve_gate (s := nl.within before) link ⟨g, hgate⟩ hp hc,
            resolve_gate (s := nl'.within before') link ⟨g, hgate'⟩ hp' hc'⟩
        · obtain ⟨pin, hpin⟩ := exists_inputPin? hi
          obtain ⟨pin', hpin'⟩ := exists_inputPin? ((ha.role link.node).trans hi)
          have hstate (hin : part link.node) :
              pinValue ctx' link.node pin' = pinValue ctx link.node pin :=
            h.tracks.pins hin hpin hpin'
          refine .inl ⟨_, _, _, _, resolve_pin (s := nl.within before) link hpin hp hc,
            resolve_pin (s := nl'.within before') link hpin' hp' hc', fun hin => hstate (hl hin),
            h.cache fun hin => ?_⟩
          rw [hstate hin]
      · have hc' := mt (h.known link.node).1 hc
        refine .inl ⟨_, _, ctx, ctx', resolve_cached (s := nl.within before) link hlive hp hc,
          resolve_cached (s := nl'.within before') link hlive' hp' hc', fun hin => ?_, h⟩
        exact congrArg (·.getD false) (h.tracks.output? (hl hin))

end Lockstep

section

variable (ha : Alike nl nl') (he : nl.Embeds nl' part id) (hw : nl.WellFormed)
  (hb : nl.SameBefore part id before before')

include ha he hw hb

theorem WalkLockstep.step (h : nl.WalkLockstep nl' part w w') (hi : w.Inv (nl.within before)) :
    nl.WalkLockstep nl' part (w.step (nl.within before)) (w'.step (nl'.within before')) := by
  have hframes := h.frames
  cases hf : w.frames with
  | nil =>
    rw [hf, List.forall₂_nil_left_iff] at hframes
    rw [Walk.step, Walk.step, hf, hframes]
    exact h
  | cons frame below =>
    rw [hf, List.forall₂_cons_left_iff] at hframes
    obtain ⟨frame', below', hpaired, hbelow, hf'⟩ := hframes
    have hg : nl.IsGate frame.node := (hi.waiting.fits_of_mem (by simp [hf])).1
    have hslot : (nl'.slots frame'.node)[frame'.resolved.length]? =
        (nl.slots frame.node)[frame.resolved.length]? := by
      rw [ha.slots, hpaired.node, hpaired.length]
    cases hs : (nl.slots frame.node)[frame.resolved.length]? with
    | none =>
      rw [hs] at hslot
      rw [Walk.step_fire (s := nl.within before) hf hs,
        Walk.step_fire (s := nl'.within before') hf' hslot, hpaired.node]
      obtain ⟨hv, hc⟩ := h.context.fire he hb hg hpaired.values
      exact ⟨hbelow, (hc.cache hv).leave⟩
    | some slot =>
      rw [hs] at hslot
      rcases h.context.resolve ha he hw hb (fun id hid => (hi.on_stack hid).1)
        (List.mem_of_getElem? hs) with ⟨bit, bit', c, c', hr, hr', hv, hc⟩ | ⟨b, hr, hr'⟩
      · rw [Walk.step_value (s := nl.within before) hf hs hr,
          Walk.step_value (s := nl'.within before') hf' hslot hr']
        refine ⟨.cons ⟨hpaired.node, ?_, fun hin => ?_⟩ hbelow, hc⟩
        · simp only [List.length_append, hpaired.length, List.length_singleton]
        · dsimp only
          rw [hpaired.values hin, hv hin]
      · rw [Walk.step_descend (s := nl.within before) hf hs hr,
          Walk.step_descend (s := nl'.within before') hf' hslot hr']
        exact ⟨.cons ⟨rfl, rfl, fun _ => rfl⟩ (.cons hpaired hbelow), h.context.enter b⟩

theorem WalkLockstep.run (h : nl.WalkLockstep nl' part w w') (hi : w.Inv (nl.within before))
    (fuel : Nat) :
    nl.WalkLockstep nl' part (w.run (nl.within before) fuel)
      (w'.run (nl'.within before') fuel) := by
  induction fuel generalizing w w' with
  | zero => exact h
  | succ fuel ih =>
    have hframes := h.frames
    cases hf : w.frames with
    | nil =>
      rw [hf, List.forall₂_nil_left_iff] at hframes
      rw [Walk.run_of_done hf, Walk.run_of_done hframes]
      exact h
    | cons frame below =>
      rw [hf, List.forall₂_cons_left_iff] at hframes
      obtain ⟨frame', below', _, _, hf'⟩ := hframes
      rw [Walk.run_succ hf, Walk.run_succ hf']
      exact ih (h.step ha he hw hb hi) (hi.step hw)

theorem Lockstep.walk (h : nl.Lockstep nl' part ctx ctx') (hs : ctx.Settled (nl.within before))
    (hs' : ctx'.Settled (nl'.within before')) (hg : nl.IsGate a) (hc : ctx.cached.get? a = none) :
    nl.Lockstep nl' part ((Walk.start ctx a).run (nl.within before) nl.walkBound).context
      ((Walk.start ctx' a).run (nl'.within before') nl'.walkBound).context := by
  have hg' : nl'.IsGate a := by
    obtain ⟨g, hg⟩ := hg
    exact ⟨g, (ha.role a).trans hg⟩
  have hc' := (h.known a).2 hc
  have hstart : nl.WalkLockstep nl' part (Walk.start ctx a) (Walk.start ctx' a) :=
    ⟨.cons ⟨rfl, rfl, fun _ => rfl⟩ .nil, h.enter a⟩
  have hi := inv_start (s := nl.within before) hs hg hc
  obtain ⟨hd, _⟩ := walk_settled (s := nl.within before) hw hs hg hc
  obtain ⟨hd', _⟩ := walk_settled (s := nl'.within before') (hw.alike ha) hs' hg' hc'
  have hrun := (hstart.run ha he hw hb hi (max nl.walkBound nl'.walkBound)).context
  rwa [Walk.run_of_le (n := nl.walkBound) hd (Nat.le_max_left _ _),
    Walk.run_of_le (n := nl'.walkBound) hd' (Nat.le_max_right _ _)] at hrun

theorem Lockstep.evalNode (h : nl.Lockstep nl' part ctx ctx')
    (hs : ctx.Settled (nl.within before)) (hs' : ctx'.Settled (nl'.within before')) (a : NodeId) :
    nl.Lockstep nl' part ((nl.within before).evalNode ctx a).context
      ((nl'.within before').evalNode ctx' a).context := by
  have hrole := ha.role a
  cases hc : ctx.cached.get? a with
  | some outputs =>
    have hknown := mt (h.known a).1 (by rw [hc]; exact Option.some_ne_none _)
    obtain ⟨outputs', hc'⟩ := Option.ne_none_iff_exists'.1 hknown
    simpa only [Surroundings.evalNode, hc, hc'] using h
  | none =>
    have hc' := (h.known a).2 hc
    cases hr : nl.role? a with
    | none =>
      have hk : nl.kind? a = none := role?_eq_none_iff.1 hr
      have hk' : nl'.kind? a = none := role?_eq_none_iff.1 (hrole.trans hr)
      simpa only [Surroundings.evalNode, hc, hc', within, hk, hk'] using h
    | some r =>
      cases r with
      | gate g =>
        have hk := kind?_eq_gate_iff.2 hr
        have hk' := kind?_eq_gate_iff.2 (hrole.trans hr)
        simpa only [Surroundings.evalNode, hc, hc', within, hk, hk'] using
          h.walk ha he hw hb hs hs' ⟨g, hr⟩ hc
      | input =>
        obtain ⟨pin, hp⟩ := exists_inputPin? hr
        obtain ⟨pin', hp'⟩ := exists_inputPin? (hrole.trans hr)
        have hv (hin : part a) : pinValue ctx' a pin' = pinValue ctx a pin :=
          h.tracks.pins hin hp hp'
        simpa only [Surroundings.evalNode, hc, hc', within, kind?_of_inputPin? hp,
          kind?_of_inputPin? hp'] using h.cache fun hin => by rw [hv hin]
      | output =>
        obtain ⟨pin, hp⟩ := exists_outputPin? hr
        obtain ⟨pin', hp'⟩ := exists_outputPin? (hrole.trans hr)
        simpa only [Surroundings.evalNode, hc, hc', within, hp, hp'] using h

theorem Lockstep.evalLink (h : nl.Lockstep nl' part ctx ctx')
    (hs : ctx.Settled (nl.within before)) (hs' : ctx'.Settled (nl'.within before'))
    (link : Option Link) :
    nl.Lockstep nl' part ((nl.within before).evalLink ctx link).context
      ((nl'.within before').evalLink ctx' link).context := by
  cases link with
  | none => exact h
  | some link =>
    have hlive : nl'.isLive link.node = nl.isLive link.node := by
      rw [isLive_eq_isSome_role?, isLive_eq_isSome_role?, ha.role]
    have hnode := h.evalNode ha he hw hb hs hs' link.node
    cases hl : nl.isLive link.node with
    | true => simpa only [Surroundings.evalLink, within, hlive, hl, if_true] using hnode
    | false =>
      simpa only [Surroundings.evalLink, within, hlive, hl, Bool.false_eq_true, if_false] using h

/-- Contexts in lock step stay so through any evaluations. -/
theorem Lockstep.calls (h : nl.Lockstep nl' part ctx ctx') (hs : ctx.Settled (nl.within before))
    (hs' : ctx'.Settled (nl'.within before')) (cs : List Call) :
    nl.Lockstep nl' part ((nl.within before).calls ctx cs)
      ((nl'.within before').calls ctx' cs) := by
  have hw' := hw.alike ha
  induction cs generalizing ctx ctx' with
  | nil => exact h
  | cons c cs ih =>
    have hfirst : nl.Lockstep nl' part ((nl.within before).call ctx c)
        ((nl'.within before').call ctx' c) := by
      cases c with
      | node id => exact h.evalNode ha he hw hb hs hs' id
      | link link => exact h.evalLink ha he hw hb hs hs' link
      | pin id =>
        have hsource : nl'.source? id 0 = nl.source? id 0 := by
          rw [hw'.source?_eq, hw.source?_eq, ha.slots]
        have hlink := h.evalLink ha he hw hb hs hs' (nl.source? id 0)
        simpa only [call, readPin, within, hsource] using hlink
    exact ih hfirst (calls_settled (s := nl.within before) hw hs [c]).1
      (calls_settled (s := nl'.within before') hw' hs' [c]).1

end

end Netlist

end Breadboard
