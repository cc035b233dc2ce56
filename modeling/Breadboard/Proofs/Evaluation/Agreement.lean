import Breadboard.Proofs.Evaluation.Renaming

namespace Breadboard

open Relation Netlist Surroundings

theorem NodeMap.get?_ofList {α : Type} {bindings : List (NodeId × α)}
    (hn : (bindings.map (·.1)).Nodup) {id : NodeId} {value : α} (h : (id, value) ∈ bindings) :
    (ofList bindings).get? id = some value := by
  induction bindings using List.reverseRecOn with
  | nil => cases h
  | append_singleton bindings last ih =>
    have hlast : ofList (bindings ++ [last]) = (ofList bindings).insert last.1 last.2 := by
      simp only [ofList, List.foldl_append, List.foldl_cons, List.foldl_nil]
    rw [List.map_append, List.map_singleton] at hn
    rw [hlast]
    rcases List.mem_append.1 h with h | h
    · have hmem : id ∈ bindings.map (·.1) := List.mem_map.2 ⟨_, h, rfl⟩
      have hne : last.1 ≠ id := by
        intro he
        exact List.disjoint_of_nodup_append hn hmem (he ▸ List.mem_singleton_self _)
      rw [get?_insert_of_ne _ _ hne]
      exact ih hn.of_append_left h
    · obtain rfl := List.mem_singleton.1 h
      exact get?_insert_self ..

namespace Context

theorem setPins_empty (ids : List NodeId) (values : Bits) :
    (∅ : Context).setPins ids values = withPins (ids.zip values) := by
  have fold : ∀ (bindings : List (NodeId × Bool)) (pins : NodeMap Bool),
      bindings.foldl (fun ctx b => ctx.setPin b.1 b.2) { pins : Context } =
        { pins := bindings.foldl (fun m b => m.insert b.1 b.2) pins } := by
    intro bindings
    induction bindings with
    | nil => exact fun _ => rfl
    | cons b bindings ih => exact fun pins => ih _
  exact fold _ ∅

/-- Pins that are overridden have the values that stand at their places. -/
theorem pinValue_withPins {ids : List NodeId} {values : Bits} (hn : ids.Nodup)
    (hl : values.length = ids.length) {k : Nat} {id : NodeId} (hi : ids[k]? = some id)
    (pin : InputPin) : values[k]? = some (pinValue (withPins (ids.zip values)) id pin) := by
  have hlt : k < values.length := hl ▸ (List.getElem?_eq_some_iff.1 hi).1
  have hv := List.getElem?_eq_getElem hlt
  have hget : (withPins (ids.zip values)).pins.get? id = some values[k] := by
    apply NodeMap.get?_ofList
    · rwa [List.map_fst_zip hl.ge]
    · exact List.mem_of_getElem? (List.getElem?_zip_eq_some.2 ⟨hi, hv⟩)
  rw [hv, pinValue, hget, Option.getD_some]

end Context

variable {s : Surroundings} {ctx ctx' : Context} {nl nl' : Netlist Gate} {part : NodeId → Prop}
  {f : NodeId → NodeId} {before before' : Option Context} {a : NodeId}

namespace Netlist

/-- The nodes behind `a`, and `a` itself, hold no state. -/
def Stateless (nl : Netlist Gate) (a : NodeId) : Prop :=
  ∀ b, ReflTransGen nl.Reads a b → nl.isHierarchical b = false

theorem Stateless.of_reads {b : NodeId} (h : nl.Stateless a) (hr : nl.Reads a b) :
    nl.Stateless b := fun c hc => h c (.head hr hc)

/-- The input pins behind `a` have the same values as their copies. -/
def SamePins (nl nl' : Netlist Gate) (f : NodeId → NodeId) (ctx ctx' : Context) (a : NodeId) :
    Prop :=
  ∀ b pin pin', ReflTransGen nl.Reads a b → nl.inputPin? b = some pin →
    nl'.inputPin? (f b) = some pin' → pinValue ctx' (f b) pin' = pinValue ctx b pin

theorem SamePins.of_reads {b : NodeId} (h : nl.SamePins nl' f ctx ctx' a) (hr : nl.Reads a b) :
    nl.SamePins nl' f ctx ctx' b := fun c pin pin' hc => h c pin pin' (.head hr hc)

end Netlist

/-- A gate without a loop behind it has cached its response to what its sources have cached. -/
theorem Context.Settled.fired_of_grounded (hw : s.netlist.WellFormed) (h : ctx.Settled s)
    (hg : s.netlist.IsGate a) (hgr : s.netlist.Grounded a) (hc : ctx.cached.get? a ≠ none) :
    ctx.cached.get? a = some (s.fire a ((s.netlist.slots a).map ctx.linkValue) ∅).value := by
  obtain ⟨before, after, ho⟩ := List.append_of_mem (mem_gateOrder.2 ⟨hg, hc⟩)
  have hx := h.inv.explained ho
  have hvalues : s.slotValues ctx before a = (s.netlist.slots a).map ctx.linkValue := by
    apply List.map_congr_left
    intro slot hslot
    cases slot with
    | none => rfl
    | some link =>
      have hr : s.netlist.Reads a link.node := ⟨link, hslot, rfl⟩
      rcases hw.source_cases hslot with ⟨g, hrole, _⟩ | ⟨hrole, hout⟩
      · have hpin := IsGate.inputPin?_eq_none ⟨g, hrole⟩
        -- a source that was cached later would close a loop
        have hmem : link.node ∈ before := by
          by_contra hm
          exact hgr.not_loop (TransGen.head' hr (hx.feedback link hslot hpin hm))
        rw [slotValue_of_mem hpin hmem]
        rfl
      · obtain ⟨pin, hpin⟩ := exists_inputPin? hrole
        obtain ⟨outputs, hcached⟩ := Option.ne_none_iff_exists'.1 (h.cached_of_reads hc hr)
        obtain rfl := h.inv.pins hpin hcached
        rw [slotValue_input _ hpin, Context.linkValue, Context.output?, hcached, hout]
        rfl
  rw [hx.value, hvalues]

/-- What a gate without state and without a loop behind it has cached. -/
theorem Context.Settled.cached_of_grounded (hw : s.netlist.WellFormed) (h : ctx.Settled s)
    (hg : s.netlist.IsGate a) (hgr : s.netlist.Grounded a)
    (hh : s.netlist.isHierarchical a = false) (hc : ctx.cached.get? a ≠ none) :
    ctx.cached.get? a =
      some (s.respond a ((s.netlist.slots a).map ctx.linkValue) ∅ none).value := by
  rw [h.fired_of_grounded hw hg hgr hc,
    fire_of_not_hierarchical (by rw [hh]; exact Bool.false_ne_true)]

section

variable (he : nl.Embeds nl' part f) (hw : nl.WellFormed) (hw' : nl'.WellFormed)
  (hs : ctx.Settled (nl.within before)) (hs' : ctx'.Settled (nl'.within before'))

include he hw hw' hs hs'

/-- A node and its copy have the same cached in any two contexts with the same pins. -/
theorem cached_agree (hgr : nl.Grounded a) (ha : part a) (hh : nl.Stateless a)
    (hp : nl.SamePins nl' f ctx ctx' a) (hc : ctx.cached.get? a ≠ none)
    (hc' : ctx'.cached.get? (f a) ≠ none) : ctx'.cached.get? (f a) = ctx.cached.get? a := by
  have hgr' := he.grounded hgr ha
  induction hgr with
  | intro a hacc ih =>
    rcases hs.inv.role hc with hg | hi
    · have hh' : nl'.isHierarchical (f a) = false := (he.isHierarchical ha hg).trans (hh a .refl)
      rw [hs.cached_of_grounded hw hg (.intro a hacc) (hh a .refl) hc,
        hs'.cached_of_grounded hw' ((he.isGate ha).2 hg) hgr' hh' hc']
      dsimp only [within]
      rw [he.respond ha hg, he.slots ha, List.map_map]
      congr 3
      apply List.map_congr_left
      intro slot hslot
      cases slot with
      | none => rfl
      | some link =>
        have hr : nl.Reads a link.node := ⟨link, hslot, rfl⟩
        have hr' := he.reads ha hr
        have hsame := ih link.node hr (he.closed ha hr) (hh.of_reads hr) (hp.of_reads hr)
          (hs.cached_of_reads hc hr) (hs'.cached_of_reads hc' hr') (hgr'.inv hr')
        simp only [Function.comp_apply, Option.map_some, Context.linkValue, Context.output?,
          Link.rename, hsame]
    · obtain ⟨pin, hpin⟩ := exists_inputPin? hi
      obtain ⟨pin', hpin'⟩ := exists_inputPin? ((he.role ha).trans hi)
      obtain ⟨outputs, ho⟩ := Option.ne_none_iff_exists'.1 hc
      obtain ⟨outputs', ho'⟩ := Option.ne_none_iff_exists'.1 hc'
      rw [ho, ho', hs.inv.pins hpin ho, hs'.inv.pins hpin' ho', hp a pin pin' .refl hpin hpin']

theorem shown_agree (hgr : nl.Grounded a) (ha : part a) (hh : nl.Stateless a)
    (hp : nl.SamePins nl' f ctx ctx' a)
    (hc : ∀ link, nl.source? a 0 = some link → ctx.cached.get? link.node ≠ none)
    (hc' : ∀ link, nl'.source? (f a) 0 = some link → ctx'.cached.get? link.node ≠ none) :
    ctx'.shown nl' (f a) = ctx.shown nl a := by
  have hsource := he.source?_eq hw hw' ha
  cases hl : nl.source? a 0 with
  | none =>
    rw [hl, Option.map_none] at hsource
    rw [Context.shown, Context.shown, hl, hsource]
    rfl
  | some link =>
    rw [hl, Option.map_some] at hsource
    have hr : nl.Reads a link.node := hw.reads_of_source? hl
    have hsame := cached_agree he hw hw' hs hs' (hgr.inv hr) (he.closed ha hr) (hh.of_reads hr)
      (hp.of_reads hr) (hc link hl) (hc' _ hsource)
    simp only [Context.shown, hl, hsource, Context.linkValue, Context.output?, Link.rename, hsame]

end

namespace Netlist

/-- The boundary in a context: every output shows a source that was evaluated, and the inputs have
the values `x`. -/
structure Shows (nl : Netlist Gate) (inputs outputs : List NodeId) (ctx : Context) (x : Bits) :
    Prop where
  cached : ∀ o ∈ outputs, ∀ source, nl.source? o 0 = some source →
    ctx.cached.get? source.node ≠ none
  pins : ∀ (k : Nat) id pin, inputs[k]? = some id → nl.inputPin? id = some pin →
    x[k]? = some (pinValue ctx id pin)

variable {inputs outputs outputs' : List NodeId} {x : Bits}

theorem shows_readPins (before : Option Context) (outputs : List NodeId) (hw : nl.WellFormed)
    (hn : inputs.Nodup) (hx : x.length = inputs.length) :
    nl.Shows inputs outputs
      ((nl.within before).readPins (Context.withPins (inputs.zip x)) outputs).context x := by
  obtain ⟨_, hext, _, hcached⟩ := readPins_settled (s := nl.within before) hw
    (Context.settled_withPins _ (inputs.zip x)) outputs
  refine ⟨hcached, ?_⟩
  intro k id pin hk _
  rw [hext.pinValue]
  exact Context.pinValue_withPins hn hx hk pin

/-- A part and its copy that show the same inputs have the same pins behind every node. -/
theorem Shows.samePins (h : nl.Shows inputs outputs ctx x)
    (h' : nl'.Shows (inputs.map f) outputs' ctx' x) (he : nl.Embeds nl' part f)
    (hp : ∀ b, part b → nl.role? b = some .input → b ∈ inputs) (ha : part a) :
    nl.SamePins nl' f ctx ctx' a := by
  intro b pin pin' hpath hpin hpin'
  have hb : part b := by
    clear hpin hpin'
    induction hpath with
    | refl => exact ha
    | tail _ hr ih => exact he.closed ih hr
  obtain ⟨k, hk⟩ := List.mem_iff_getElem?.1 (hp b hb (role?_of_inputPin? hpin))
  have hk' : (inputs.map f)[k]? = some (f b) := by rw [List.getElem?_map, hk, Option.map_some]
  exact Option.some.inj ((h'.pins k (f b) pin' hk' hpin').symm.trans (h.pins k b pin hk hpin))

end Netlist

end Breadboard
