import Breadboard.Proofs.Evaluation.Turns

namespace Breadboard

open Relation Netlist Surroundings

/-- What holds of a context in which nothing but walks over one netlist took place. -/
structure Context.Inv (s : Surroundings) (ctx : Context) : Prop where
  nodup : ctx.cached.ids.Nodup
  role : ∀ {id}, ctx.cached.get? id ≠ none →
    s.netlist.IsGate id ∨ s.netlist.role? id = some .input
  pins : ∀ {id pin outputs}, s.netlist.inputPin? id = some pin →
    ctx.cached.get? id = some outputs → outputs = [pinValue ctx id pin]
  nested : ∀ {id}, ctx.cached.get? id = none → ctx.nested.get? id = none
  explained : ∀ {before id after}, s.gateOrder ctx = before ++ id :: after →
    s.Explained ctx before id
  closed : ∀ {id source}, ctx.cached.get? id ≠ none → s.netlist.Reads id source →
    ctx.cached.get? source ≠ none ∨ ctx.processing.contains source = true

/-- A waiting frame above the frames `below`: its first slots are resolved to the values that they
will have when the node computes. -/
structure Frame.Fits (s : Surroundings) (ctx : Context) (frame : Frame) (below : List Frame) :
    Prop where
  gate : s.netlist.IsGate frame.node
  fresh : ctx.cached.get? frame.node = none
  values : frame.resolved = ((s.netlist.slots frame.node).take frame.resolved.length).map
    (s.slotValue ctx (s.gateOrder ctx))
  sources : ∀ link, some link ∈ (s.netlist.slots frame.node).take frame.resolved.length →
    ctx.cached.get? link.node = none → link.node ∈ (frame :: below).map (·.node)
  called : ∀ caller ∈ below.head?, ∃ link, link.node = frame.node ∧
    (s.netlist.slots caller.node)[caller.resolved.length]? = some (some link)

def Waiting (s : Surroundings) (ctx : Context) : List Frame → Prop
  | [] => True
  | frame :: below => frame.Fits s ctx below ∧ Waiting s ctx below

namespace Walk

structure Inv (s : Surroundings) (w : Walk) : Prop where
  context : w.context.Inv s
  stack : w.context.processing.nodes = w.frames.map (·.node)
  coherent : w.context.processing.Coherent
  waiting : Waiting s w.context w.frames

/-- The steps of a walk whose latest frame is `frame`: a slot yields a value that is there already,
a slot reads an input pin for the first time, a source has to be evaluated first, or the node
computes. -/
inductive Move (s : Surroundings) (w : Walk) (frame : Frame) (below : List Frame) :
    Walk → Prop where
  | known (slot : Option Link)
      (hs : (s.netlist.slots frame.node)[frame.resolved.length]? = some slot)
      (hk : ∀ link, slot = some link → w.context.cached.get? link.node ≠ none ∨
        w.context.processing.contains link.node = true) :
      Move s w frame below { w with
        frames := { frame with resolved :=
          frame.resolved ++ [s.slotValue w.context (s.gateOrder w.context) slot] } :: below }
  | pin (link : Link) (pin : InputPin)
      (hs : (s.netlist.slots frame.node)[frame.resolved.length]? = some (some link))
      (hp : s.netlist.inputPin? link.node = some pin)
      (hc : w.context.cached.get? link.node = none) :
      Move s w frame below { w with
        frames := { frame with resolved :=
          frame.resolved ++ [pinValue w.context link.node pin] } :: below
        context := w.context.cache link.node [pinValue w.context link.node pin] }
  | descend (link : Link)
      (hs : (s.netlist.slots frame.node)[frame.resolved.length]? = some (some link))
      (hg : s.netlist.IsGate link.node)
      (hc : w.context.cached.get? link.node = none)
      (hp : w.context.processing.contains link.node = false) :
      Move s w frame below { w with
        frames := ⟨link.node, []⟩ :: frame :: below
        context := w.context.enter link.node }
  | fire (hs : (s.netlist.slots frame.node).length = frame.resolved.length) :
      Move s w frame below
        { frames := below
          context := ((s.fire frame.node frame.resolved w.context).context.cache frame.node
            (s.fire frame.node frame.resolved w.context).value).leave
          calls := (s.fire frame.node frame.resolved w.context).calls ++ w.calls }

end Walk

variable {s : Surroundings} {ctx ctx' : Context} {frame : Frame} {below frames : List Frame}
  {id : NodeId} {outputs : Bits}

/-- A new gate comes last in the order, so what the gates before it are explained by stays. -/
theorem Context.Inv.explained_caches (h : ctx.Inv s) (hc : ctx.Caches ctx' id outputs)
    (hgate : s.netlist.IsGate id → s.Explained ctx' (s.gateOrder ctx) id)
    {before after : List NodeId} {a : NodeId} (ho : s.gateOrder ctx' = before ++ a :: after) :
    s.Explained ctx' before a := by
  have old : ∀ {after}, s.gateOrder ctx = before ++ a :: after → s.Explained ctx' before a := by
    intro after ho
    apply (h.explained ho).caches hc
    intro b hb
    have hm : b ∈ s.gateOrder ctx := by
      rw [ho]
      exact List.mem_append_left _ hb
    exact (mem_gateOrder.1 hm).2
  by_cases hg : s.netlist.IsGate id
  · rw [gateOrder_caches_gate hc hg] at ho
    rcases List.eq_nil_or_concat after with rfl | ⟨rest, last, rfl⟩
    · obtain ⟨hbefore, hlast⟩ := List.append_inj' ho rfl
      obtain rfl := List.singleton_inj.1 hlast
      exact hbefore ▸ hgate hg
    · rw [List.concat_eq_append, ← List.cons_append, ← List.append_assoc] at ho
      exact old (List.append_inj' ho rfl).1
  · rw [gateOrder_caches_input hc hg] at ho
    exact old ho

theorem Context.Inv.closed_caches (h : ctx.Inv s) (hc : ctx.Caches ctx' id outputs)
    (hstack : ∀ a, ctx.processing.contains a = true → a = id ∨ ctx'.processing.contains a = true)
    (hsource : ∀ source, s.netlist.Reads id source →
      ctx.cached.get? source ≠ none ∨ source = id ∨ ctx'.processing.contains source = true)
    {a source : NodeId} (ha : ctx'.cached.get? a ≠ none) (hr : s.netlist.Reads a source) :
    ctx'.cached.get? source ≠ none ∨ ctx'.processing.contains source = true := by
  have hcases : ctx.cached.get? source ≠ none ∨ source = id ∨
      ctx'.processing.contains source = true := by
    by_cases he : a = id
    · subst he
      exact hsource source hr
    · rw [hc.get?_of_ne he] at ha
      exact (h.closed ha hr).imp_right (hstack source)
  rcases hcases with hs | rfl | hs
  · exact .inl (hc.extends_of.cached_ne_none hs)
  · rw [hc.get?_self]
    exact .inl (Option.some_ne_none _)
  · exact .inr hs

/-- The invariant of a context stays when a node is cached that has the value it should have. -/
theorem Context.Inv.caches (h : ctx.Inv s) (hc : ctx.Caches ctx' id outputs)
    (hrole : s.netlist.IsGate id ∨ s.netlist.role? id = some .input)
    (hpin : ∀ pin, s.netlist.inputPin? id = some pin → outputs = [pinValue ctx id pin])
    (hgate : s.netlist.IsGate id → s.Explained ctx' (s.gateOrder ctx) id)
    (hstack : ∀ a, ctx.processing.contains a = true → a = id ∨ ctx'.processing.contains a = true)
    (hsource : ∀ source, s.netlist.Reads id source →
      ctx.cached.get? source ≠ none ∨ source = id ∨ ctx'.processing.contains source = true) :
    ctx'.Inv s where
  nodup := by
    rw [NodeMap.ids, hc.cached]
    exact NodeMap.nodup_ids_insert h.nodup id outputs
  role {a} ha := by
    by_cases he : a = id
    · exact he ▸ hrole
    · rw [hc.get?_of_ne he] at ha
      exact h.role ha
  pins {a pin outputs'} hp ha := by
    rw [pinValue, hc.pins]
    by_cases he : a = id
    · subst he
      rw [hc.get?_self] at ha
      injection ha with ha
      exact ha ▸ hpin pin hp
    · rw [hc.get?_of_ne he] at ha
      exact h.pins hp ha
  nested {a} ha := by
    have he : a ≠ id := by
      intro he
      simp [he, hc.get?_self] at ha
    rw [hc.get?_of_ne he] at ha
    rw [hc.nested a he]
    exact h.nested ha
  explained ho := h.explained_caches hc hgate ho
  closed ha hr := h.closed_caches hc hstack hsource ha hr

/-- An input pin is cached with its state. -/
theorem Context.Inv.cache_pin (h : ctx.Inv s) (hw : s.netlist.WellFormed) {pin : InputPin}
    (hp : s.netlist.inputPin? id = some pin) (hc : ctx.cached.get? id = none) :
    (ctx.cache id [pinValue ctx id pin]).Inv s := by
  have hrole := role?_of_inputPin? hp
  refine h.caches (Context.caches_cache _ hc) (.inr hrole) ?_ ?_ (fun _ ha => .inr ha) ?_
  · intro pin' hp'
    rw [Option.some.inj (hp.symm.trans hp')]
  · intro hg
    exact absurd hrole hg.role?_ne_input
  · intro source hr
    exact absurd hr (hw.not_reads_of_input hrole)

/-- A new entry on the stack changes nothing that the invariant says. -/
theorem Context.Inv.enter (h : ctx.Inv s) (id : NodeId) : (ctx.enter id).Inv s where
  nodup := h.nodup
  role := h.role
  pins := h.pins
  nested := h.nested
  explained ho :=
    have he := h.explained ho
    ⟨he.value, he.nested, he.feedback⟩
  closed ha hr := by
    apply (h.closed ha hr).imp_right
    intro hs
    rw [Context.contains_enter, hs, Bool.true_or]

namespace Frame.Fits

theorem congr (h : frame.Fits s ctx below) (hc : ctx'.cached = ctx.cached)
    (hp : ctx'.pins = ctx.pins) : frame.Fits s ctx' below where
  gate := h.gate
  fresh := by rw [hc, h.fresh]
  values := by
    refine h.values.trans (List.map_congr_left fun slot _ => (slotValue_congr hp ?_).symm)
    intro link _ _
    rw [mem_gateOrder, mem_gateOrder, hc]
    exact ⟨Iff.rfl, fun _ => rfl⟩
  sources link hl hn := h.sources link hl (by rw [← hc, hn])
  called := h.called

theorem caches (h : frame.Fits s ctx below) (hc : ctx.Caches ctx' id outputs)
    (hid : id ∉ (frame :: below).map (·.node)) : frame.Fits s ctx' below := by
  -- a resolved slot whose source is not cached reads a waiting node, which `id` is not
  have hne : ∀ link, some link ∈ (s.netlist.slots frame.node).take frame.resolved.length →
      link.node ≠ id := fun link hl he =>
    hid (he ▸ h.sources link hl (he ▸ hc.fresh))
  refine ⟨h.gate, ?_, ?_, ?_, h.called⟩
  · rw [hc.get?_of_ne fun he => hid (by simp [he]), h.fresh]
  · refine h.values.trans (List.map_congr_left fun slot hslot => (slotValue_congr hc.pins ?_).symm)
    intro link hlink _
    subst hlink
    rw [mem_gateOrder, mem_gateOrder, hc.get?_of_ne (hne link hslot)]
    exact ⟨Iff.rfl, fun _ => rfl⟩
  · intro link hl hn
    rw [hc.get?_of_ne (hne link hl)] at hn
    exact h.sources link hl hn

/-- One more slot of the frame is resolved. -/
theorem resolve (h : frame.Fits s ctx below) {slot : Option Link} {bit : Bool}
    (hs : (s.netlist.slots frame.node)[frame.resolved.length]? = some slot)
    (hb : bit = s.slotValue ctx (s.gateOrder ctx) slot)
    (hl : ∀ link, slot = some link → ctx.cached.get? link.node = none →
      link.node ∈ (frame :: below).map (·.node)) :
    Frame.Fits s ctx { frame with resolved := frame.resolved ++ [bit] } below := by
  have take : (s.netlist.slots frame.node).take (frame.resolved ++ [bit]).length =
      (s.netlist.slots frame.node).take frame.resolved.length ++ [slot] := by
    rw [List.length_append, List.length_singleton, List.take_add_one, hs, Option.toList_some]
  refine ⟨h.gate, h.fresh, ?_, ?_, h.called⟩
  · rw [take, List.map_append, ← h.values, hb, List.map_singleton]
  · intro link hm hn
    change some link ∈ (s.netlist.slots frame.node).take (frame.resolved ++ [bit]).length at hm
    rw [take, List.mem_append, List.mem_singleton] at hm
    rcases hm with hm | hm
    · exact h.sources link hm hn
    · exact hl link hm.symm hn

/-- A frame whose slots are all resolved holds the values that its node computes with. -/
theorem resolved_eq (h : frame.Fits s ctx below)
    (hs : (s.netlist.slots frame.node).length = frame.resolved.length) :
    frame.resolved = s.slotValues ctx (s.gateOrder ctx) frame.node := by
  have hvalues := h.values
  rwa [← hs, List.take_length] at hvalues

theorem source_mem (h : frame.Fits s ctx below)
    (hs : (s.netlist.slots frame.node).length = frame.resolved.length) {link : Link}
    (hl : some link ∈ s.netlist.slots frame.node) (hn : ctx.cached.get? link.node = none) :
    link.node ∈ (frame :: below).map (·.node) := by
  apply h.sources link _ hn
  rwa [← hs, List.take_length]

end Frame.Fits

namespace Waiting

theorem congr (h : Waiting s ctx frames) (hc : ctx'.cached = ctx.cached)
    (hp : ctx'.pins = ctx.pins) : Waiting s ctx' frames := by
  induction frames with
  | nil => trivial
  | cons frame below ih => exact ⟨h.1.congr hc hp, ih h.2⟩

theorem caches (h : Waiting s ctx frames) (hc : ctx.Caches ctx' id outputs)
    (hid : id ∉ frames.map (·.node)) : Waiting s ctx' frames := by
  induction frames with
  | nil => trivial
  | cons frame below ih =>
    exact ⟨h.1.caches hc hid, ih h.2 fun hm => hid (List.mem_cons_of_mem _ hm)⟩

theorem fits_of_mem (h : Waiting s ctx frames) (hf : frame ∈ frames) :
    s.netlist.IsGate frame.node ∧ ctx.cached.get? frame.node = none := by
  induction frames with
  | nil => cases hf
  | cons first below ih =>
    rcases List.mem_cons.1 hf with rfl | hf
    · exact ⟨h.1.gate, h.1.fresh⟩
    · exact ih h.2 hf

theorem resolved_le (h : Waiting s ctx frames) (hf : frame ∈ frames) :
    frame.resolved.length ≤ (s.netlist.slots frame.node).length := by
  induction frames with
  | nil => cases hf
  | cons first below ih =>
    rcases List.mem_cons.1 hf with rfl | hf
    · have hl := congrArg List.length h.1.values
      rw [List.length_map, List.length_take] at hl
      omega
    · exact ih h.2 hf

theorem isChain (h : Waiting s ctx frames) : frames.IsChain fun frame caller =>
    ∃ link, link.node = frame.node ∧
      (s.netlist.slots caller.node)[caller.resolved.length]? = some (some link) := by
  induction frames with
  | nil => exact .nil
  | cons first below ih =>
    cases below with
    | nil => exact .singleton _
    | cons caller below => exact List.isChain_cons_cons.2 ⟨h.1.called caller rfl, ih h.2⟩

/-- Every waiting node depends on the latest one. -/
theorem reflTransGen (h : Waiting s ctx (frame :: below)) {id : NodeId}
    (hid : id ∈ (frame :: below).map (·.node)) :
    ReflTransGen s.netlist.Reads id frame.node := by
  induction below generalizing frame with
  | nil => rw [List.mem_singleton.1 hid]
  | cons caller below ih =>
    rcases List.mem_cons.1 hid with rfl | hid
    · exact .refl
    · obtain ⟨link, hn, hl⟩ := h.1.called caller rfl
      exact (ih h.2 hid).tail ⟨link, List.mem_of_getElem? hl, hn⟩

end Waiting

namespace Surroundings

variable (link : Link)

theorem resolve_waiting (hl : s.netlist.isLive link.node = true)
    (hp : ctx.processing.contains link.node = true) :
    s.resolve ctx (some link) = .value (s.delayed link) ctx := by
  obtain ⟨kind, hk⟩ := exists_kind? hl
  simp only [resolve, hk, hp, if_true]

theorem resolve_cached (hl : s.netlist.isLive link.node = true)
    (hp : ctx.processing.contains link.node = false) (hc : ctx.cached.get? link.node ≠ none) :
    s.resolve ctx (some link) = .value ((ctx.output? link).getD false) ctx := by
  obtain ⟨kind, hk⟩ := exists_kind? hl
  have hsome : (ctx.cached.get? link.node).isSome = true := Option.isSome_iff_ne_none.2 hc
  simp only [resolve, hk, hp, hsome, Bool.false_eq_true, if_false, if_true]

theorem resolve_gate (hg : s.netlist.IsGate link.node)
    (hp : ctx.processing.contains link.node = false) (hc : ctx.cached.get? link.node = none) :
    s.resolve ctx (some link) = .descend link.node := by
  obtain ⟨g, hrole⟩ := hg
  have hk := kind?_eq_gate_iff.2 hrole
  simp only [resolve, hk, hp, hc, Option.isSome_none, Bool.false_eq_true, if_false]

theorem resolve_pin {pin : InputPin} (hi : s.netlist.inputPin? link.node = some pin)
    (hp : ctx.processing.contains link.node = false) (hc : ctx.cached.get? link.node = none) :
    s.resolve ctx (some link) = .value (pinValue ctx link.node pin)
      (ctx.cache link.node [pinValue ctx link.node pin]) := by
  have hk := kind?_of_inputPin? hi
  simp only [resolve, hk, hp, hc, Option.isSome_none, Bool.false_eq_true, if_false]

end Surroundings

/-- A move is a turn that yields the value which is expected. -/
theorem Walk.Move.turn {w w' : Walk} (h : Move s w frame below w') : Turn s w frame below w' := by
  cases h with
  | known slot hs hk => exact .value slot _ hs
  | pin link pin hs hp hc => exact .pin link pin hs hp hc
  | descend link hs hg hc hp => exact .descend link hs hg hc hp
  | fire hs => exact .fire hs

namespace Walk.Inv

variable {w : Walk}

theorem stacked (h : w.Inv s) : w.Stacked s.netlist where
  stack := h.stack
  coherent := h.coherent
  gate _ hf := (h.waiting.fits_of_mem hf).1
  fresh _ hf := (h.waiting.fits_of_mem hf).2
  resolved _ hf := h.waiting.resolved_le hf
  called := h.waiting.isChain

theorem on_stack (h : w.Inv s) {id : NodeId} (hid : w.context.processing.contains id = true) :
    s.netlist.IsGate id ∧ w.context.cached.get? id = none := by
  obtain ⟨frame, hf, rfl⟩ := List.mem_map.1 (h.stacked.contains_iff.1 hid)
  exact h.waiting.fits_of_mem hf

/-- A slot of a walk yields a value that is there already, an input pin's state, or a gate. -/
private theorem resolve_cases (hw : s.netlist.WellFormed) (h : w.Inv s) {node : NodeId}
    {slot : Option Link} (hs : slot ∈ s.netlist.slots node) :
    (s.resolve w.context slot =
        .value (s.slotValue w.context (s.gateOrder w.context) slot) w.context ∧
      ∀ link, slot = some link → w.context.cached.get? link.node ≠ none ∨
        w.context.processing.contains link.node = true) ∨
    (∃ link pin, slot = some link ∧ s.netlist.inputPin? link.node = some pin ∧
      w.context.cached.get? link.node = none ∧
      s.resolve w.context slot = .value (pinValue w.context link.node pin)
        (w.context.cache link.node [pinValue w.context link.node pin])) ∨
    ∃ link, slot = some link ∧ s.netlist.IsGate link.node ∧
      w.context.cached.get? link.node = none ∧
      w.context.processing.contains link.node = false ∧
      s.resolve w.context slot = .descend link.node := by
  cases slot with
  | none => exact .inl ⟨rfl, nofun⟩
  | some link =>
    have hlive := hw.isLive_of_link hs
    rcases hw.source_cases hs with ⟨g, hg, ho⟩ | ⟨hi, ho⟩
    · have hgate : s.netlist.IsGate link.node := ⟨g, hg⟩
      have hpin := hgate.inputPin?_eq_none
      cases hp : w.context.processing.contains link.node with
      | true =>
        have hn := (h.on_stack hp).2
        have hm : link.node ∉ s.gateOrder w.context := fun hm => (mem_gateOrder.1 hm).2 hn
        refine .inl ⟨?_, fun l hl => .inr (Option.some.inj hl ▸ hp)⟩
        rw [slotValue_of_not_mem hpin hm]
        exact resolve_waiting link hlive hp
      | false =>
        by_cases hc : w.context.cached.get? link.node = none
        · exact .inr (.inr ⟨link, rfl, hgate, hc, hp, resolve_gate link hgate hp hc⟩)
        · refine .inl ⟨?_, fun l hl => .inl (Option.some.inj hl ▸ hc)⟩
          rw [slotValue_of_mem hpin (mem_gateOrder.2 ⟨hgate, hc⟩)]
          exact resolve_cached link hlive hp hc
    · obtain ⟨pin, hpin⟩ := exists_inputPin? hi
      have hp : w.context.processing.contains link.node = false :=
        Bool.eq_false_iff.2 fun hp => (h.on_stack hp).1.role?_ne_input hi
      by_cases hc : w.context.cached.get? link.node = none
      · exact .inr (.inl ⟨link, pin, rfl, hpin, hc, resolve_pin link hpin hp hc⟩)
      · obtain ⟨outputs, houtputs⟩ := Option.ne_none_iff_exists'.1 hc
        obtain rfl := h.context.pins hpin houtputs
        have hvalue : (w.context.output? link).getD false = pinValue w.context link.node pin := by
          rw [Context.output?, houtputs, ho]
          rfl
        refine .inl ⟨?_, fun l hl => .inl (Option.some.inj hl ▸ hc)⟩
        rw [slotValue_input _ hpin, ← hvalue]
        exact resolve_cached link hlive hp hc

theorem move (hw : s.netlist.WellFormed) (h : w.Inv s) (hf : w.frames = frame :: below) :
    Walk.Move s w frame below (w.step s) := by
  have hwait : Waiting s w.context (frame :: below) := hf ▸ h.waiting
  cases hs : (s.netlist.slots frame.node)[frame.resolved.length]? with
  | none =>
    rw [step_fire hf hs]
    exact .fire (Nat.le_antisymm (List.getElem?_eq_none_iff.1 hs)
      (h.waiting.resolved_le (hf ▸ List.mem_cons_self)))
  | some slot =>
    rcases resolve_cases hw h (List.mem_of_getElem? hs) with
      ⟨hr, hk⟩ | ⟨link, pin, rfl, hp, hc, hr⟩ | ⟨link, rfl, hg, hc, hp, hr⟩
    · rw [step_value hf hs hr]
      exact .known slot hs hk
    · rw [step_value hf hs hr]
      exact .pin link pin hs hp hc
    · rw [step_descend hf hs hr]
      exact .descend link hs hg hc hp

end Walk.Inv

end Breadboard
