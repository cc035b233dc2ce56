import Breadboard.Evaluation.Compute
import Breadboard.Proofs.Netlist.Cone

namespace Breadboard

open Relation Netlist

namespace Context

/-- One more node is cached; no other nested context changes. -/
structure Caches (ctx ctx' : Context) (id : NodeId) (outputs : Bits) : Prop where
  fresh : ctx.cached.get? id = none
  cached : ctx'.cached = ctx.cached.insert id outputs
  pins : ctx'.pins = ctx.pins
  nested : ∀ id', id' ≠ id → ctx'.nested.get? id' = ctx.nested.get? id'

/-- What is known about cached nodes stays. -/
structure Extends (ctx ctx' : Context) : Prop where
  cached : ∀ {id outputs}, ctx.cached.get? id = some outputs → ctx'.cached.get? id = some outputs
  nested : ∀ {id}, ctx.cached.get? id ≠ none → ctx'.nested.get? id = ctx.nested.get? id
  pins : ctx'.pins = ctx.pins

theorem Extends.refl (ctx : Context) : Extends ctx ctx := ⟨id, fun _ => rfl, rfl⟩

theorem Extends.cached_ne_none {ctx ctx' : Context} (h : Extends ctx ctx') {id : NodeId}
    (hc : ctx.cached.get? id ≠ none) : ctx'.cached.get? id ≠ none := by
  obtain ⟨outputs, ho⟩ := Option.ne_none_iff_exists'.1 hc
  rw [h.cached ho]
  exact Option.some_ne_none _

theorem Extends.trans {ctx ctx' ctx'' : Context} (h : Extends ctx ctx') (h' : Extends ctx' ctx'') :
    Extends ctx ctx'' where
  cached hc := h'.cached (h.cached hc)
  nested hc := by rw [h'.nested (h.cached_ne_none hc), h.nested hc]
  pins := h'.pins.trans h.pins

theorem contains_enter (ctx : Context) (id id' : NodeId) :
    (ctx.enter id).processing.contains id' = (ctx.processing.contains id' || id == id') :=
  ctx.processing.contains_push id id'

@[simp] theorem contains_enter_self (ctx : Context) (id : NodeId) :
    (ctx.enter id).processing.contains id = true := by
  rw [contains_enter, beq_self_eq_true, Bool.or_true]

theorem nodes_enter {ctx : Context} {id : NodeId} (h : ctx.processing.contains id = false) :
    (ctx.enter id).processing.nodes = id :: ctx.processing.nodes := by
  change (ctx.processing.push id).2.nodes = _
  rw [WalkStack.push, h, if_neg Bool.false_ne_true]

namespace Caches

variable {ctx ctx' : Context} {id : NodeId} {outputs : Bits}

theorem get?_self (h : Caches ctx ctx' id outputs) : ctx'.cached.get? id = some outputs := by
  rw [h.cached, NodeMap.get?_insert_self]

theorem get?_of_ne (h : Caches ctx ctx' id outputs) {id' : NodeId} (hne : id' ≠ id) :
    ctx'.cached.get? id' = ctx.cached.get? id' := by
  rw [h.cached, NodeMap.get?_insert_of_ne _ _ hne.symm]

theorem ne_of_cached (h : Caches ctx ctx' id outputs) {id' : NodeId}
    (hc : ctx.cached.get? id' ≠ none) : id' ≠ id := fun he => hc (he ▸ h.fresh)

theorem extends_of (h : Caches ctx ctx' id outputs) : Extends ctx ctx' where
  cached hc := by
    rw [h.get?_of_ne (h.ne_of_cached (by rw [hc]; exact Option.some_ne_none _)), hc]
  nested hc := h.nested _ (h.ne_of_cached hc)
  pins := h.pins

theorem ids_eq (h : Caches ctx ctx' id outputs) : ctx'.cached.ids = id :: ctx.cached.ids := by
  have hid : id ∉ ctx.cached.ids := by
    rw [NodeMap.mem_ids_iff, h.fresh]
    exact Bool.false_ne_true
  have keep : ctx.cached.entries.filter (·.1 != id) = ctx.cached.entries :=
    List.filter_eq_self.2 fun e he => bne_iff_ne.2 fun heq => hid (List.mem_map.2 ⟨e, he, heq⟩)
  simp only [NodeMap.ids, h.cached, NodeMap.entries_insert, keep, List.map_cons]

end Caches

end Context

namespace Surroundings

/-- The value that a slot has for a gate when exactly the gates in `before` were cached earlier: an
input pin has its state, a gate cached earlier its output of this tick, and any other source its
output of the previous tick. -/
def slotValue (s : Surroundings) (ctx : Context) (before : List NodeId) : Option Link → Bool
  | none => false
  | some link =>
    match s.netlist.inputPin? link.node with
    | some pin => pinValue ctx link.node pin
    | none => if link.node ∈ before then (ctx.output? link).getD false else s.delayed link

/-- The cached gates in the order in which they were cached. -/
def gateOrder (s : Surroundings) (ctx : Context) : List NodeId :=
  (ctx.cached.ids.filter fun id => (s.netlist.gate? id).isSome).reverse

/-- The values of all slots of a node. -/
def slotValues (s : Surroundings) (ctx : Context) (before : List NodeId) (id : NodeId) : Bits :=
  (s.netlist.slots id).map (s.slotValue ctx before)

/-- The outputs and the nested context of a gate are its response, and it reads the previous tick
only where it closes a loop. -/
structure Explained (s : Surroundings) (ctx : Context) (before : List NodeId) (id : NodeId) :
    Prop where
  value : ctx.cached.get? id = some (s.fire id (s.slotValues ctx before id) ∅).value
  nested : ctx.nested.get? id =
    (s.fire id (s.slotValues ctx before id) ∅).context.nested.get? id
  feedback : ∀ link, some link ∈ s.netlist.slots id → s.netlist.inputPin? link.node = none →
    link.node ∉ before → ReflTransGen s.netlist.Reads link.node id

variable {s : Surroundings} {ctx ctx' : Context} {id : NodeId} {outputs : Bits}

@[simp] theorem cached_fire (s : Surroundings) (id : NodeId) (values : Bits) (ctx : Context) :
    (s.fire id values ctx).context.cached = ctx.cached := by
  unfold fire
  split <;> rfl

@[simp] theorem pins_fire (s : Surroundings) (id : NodeId) (values : Bits) (ctx : Context) :
    (s.fire id values ctx).context.pins = ctx.pins := by
  unfold fire
  split <;> rfl

@[simp] theorem processing_fire (s : Surroundings) (id : NodeId) (values : Bits) (ctx : Context) :
    (s.fire id values ctx).context.processing = ctx.processing := by
  unfold fire
  split <;> rfl

/-- A node without a nested context responds as in a fresh context. -/
theorem value_fire (values : Bits) (hn : ctx.nested.get? id = none) :
    (s.fire id values ctx).value = (s.fire id values ∅).value := by
  unfold fire
  rw [hn]
  split <;> rfl

theorem nested_fire_self (values : Bits) (hn : ctx.nested.get? id = none) :
    (s.fire id values ctx).context.nested.get? id =
      (s.fire id values ∅).context.nested.get? id := by
  unfold fire
  rw [hn]
  split
  · simp only [Context.nested_setNested, if_true]
    rfl
  · exact hn

theorem nested_fire_of_ne (values : Bits) {id' : NodeId} (hne : id' ≠ id) :
    (s.fire id values ctx).context.nested.get? id' = ctx.nested.get? id' := by
  unfold fire
  split
  · rw [Context.nested_setNested, if_neg hne.symm]
  · rfl

theorem mem_gateOrder :
    id ∈ s.gateOrder ctx ↔ s.netlist.IsGate id ∧ ctx.cached.get? id ≠ none := by
  rw [gateOrder, List.mem_reverse, List.mem_filter, NodeMap.mem_ids_iff, gate?_isSome_iff,
    Option.isSome_iff_ne_none, and_comm]

theorem gateOrder_caches_gate (h : Context.Caches ctx ctx' id outputs)
    (hg : s.netlist.IsGate id) : s.gateOrder ctx' = s.gateOrder ctx ++ [id] := by
  have hp : (s.netlist.gate? id).isSome = true := gate?_isSome_iff.2 hg
  simp only [gateOrder, h.ids_eq, List.filter_cons, hp, if_true, List.reverse_cons]

theorem gateOrder_caches_input (h : Context.Caches ctx ctx' id outputs)
    (hg : ¬ s.netlist.IsGate id) : s.gateOrder ctx' = s.gateOrder ctx := by
  have hp : ¬ (s.netlist.gate? id).isSome = true := mt gate?_isSome_iff.1 hg
  simp only [gateOrder, h.ids_eq, List.filter_cons, if_neg hp]

theorem slotValue_input (before : List NodeId) {link : Link} {pin : InputPin}
    (h : s.netlist.inputPin? link.node = some pin) :
    s.slotValue ctx before (some link) = pinValue ctx link.node pin := by
  simp only [slotValue, h]

theorem slotValue_of_mem {before : List NodeId} {link : Link}
    (h : s.netlist.inputPin? link.node = none) (hm : link.node ∈ before) :
    s.slotValue ctx before (some link) = (ctx.output? link).getD false := by
  simp only [slotValue, h, if_pos hm]

theorem slotValue_of_not_mem {before : List NodeId} {link : Link}
    (h : s.netlist.inputPin? link.node = none) (hm : link.node ∉ before) :
    s.slotValue ctx before (some link) = s.delayed link := by
  simp only [slotValue, h, if_neg hm]

/-- A slot is read in the same way in contexts and orders that agree on its source. -/
theorem slotValue_congr {before before' : List NodeId} {slot : Option Link}
    (hp : ctx'.pins = ctx.pins)
    (hm : ∀ link, slot = some link → s.netlist.inputPin? link.node = none →
      (link.node ∈ before' ↔ link.node ∈ before) ∧
        (link.node ∈ before → ctx'.cached.get? link.node = ctx.cached.get? link.node)) :
    s.slotValue ctx' before' slot = s.slotValue ctx before slot := by
  cases slot with
  | none => rfl
  | some link =>
    cases hi : s.netlist.inputPin? link.node with
    | some pin => rw [slotValue_input _ hi, slotValue_input _ hi, pinValue, pinValue, hp]
    | none =>
      obtain ⟨hb, hc⟩ := hm link rfl hi
      by_cases h : link.node ∈ before
      · rw [slotValue_of_mem hi h, slotValue_of_mem hi (hb.2 h), Context.output?, Context.output?,
          hc h]
      · rw [slotValue_of_not_mem hi h, slotValue_of_not_mem hi (mt hb.1 h)]

theorem slotValues_caches {before : List NodeId} {new : NodeId}
    (hc : Context.Caches ctx ctx' new outputs) (hb : ∀ b ∈ before, ctx.cached.get? b ≠ none)
    (id : NodeId) : s.slotValues ctx' before id = s.slotValues ctx before id := by
  refine List.map_congr_left fun slot _ => slotValue_congr hc.pins fun link _ _ => ⟨Iff.rfl, ?_⟩
  intro hm
  exact hc.get?_of_ne (hc.ne_of_cached (hb link.node hm))

theorem Explained.caches {before : List NodeId} {new : NodeId} (h : Explained s ctx before id)
    (hc : Context.Caches ctx ctx' new outputs) (hb : ∀ b ∈ before, ctx.cached.get? b ≠ none) :
    Explained s ctx' before id := by
  have same : s.slotValues ctx' before id = s.slotValues ctx before id :=
    slotValues_caches hc hb id
  have hne : id ≠ new := hc.ne_of_cached (by rw [h.value]; exact Option.some_ne_none _)
  refine ⟨?_, ?_, h.feedback⟩
  · rw [same, hc.get?_of_ne hne, h.value]
  · rw [same, hc.nested id hne, h.nested]

end Surroundings

end Breadboard
