import Breadboard.Proofs.Evaluation.Explained
import Mathlib.Algebra.BigOperators.Intervals
import Mathlib.Algebra.Order.BigOperators.Group.Finset

namespace Breadboard

open Netlist Surroundings

variable {s : Surroundings} {ctx ctx' : Context} {frame : Frame} {below : List Frame} {id : NodeId}
  {outputs : Bits}

theorem Context.caches_cache (outputs : Bits) (h : ctx.cached.get? id = none) :
    ctx.Caches (ctx.cache id outputs) id outputs := ⟨h, rfl, rfl, fun _ _ => rfl⟩

theorem Context.caches_fire (values : Bits) (h : ctx.cached.get? id = none) :
    ctx.Caches ((s.fire id values ctx).context.cache id (s.fire id values ctx).value).leave id
      (s.fire id values ctx).value where
  fresh := h
  cached := by
    change (s.fire id values ctx).context.cached.insert id _ = _
    rw [cached_fire]
  pins := pins_fire s id values ctx
  nested _ := nested_fire_of_ne values

/-- The waiting nodes are those on the stack, each once, and each is a gate that is not cached, with
no more values than slots. Each is read by the one below it, in the slot that comes next there. -/
structure Walk.Stacked (nl : Netlist Gate) (w : Walk) : Prop where
  stack : w.context.processing.nodes = w.frames.map (·.node)
  coherent : w.context.processing.Coherent
  gate : ∀ frame ∈ w.frames, nl.IsGate frame.node
  fresh : ∀ frame ∈ w.frames, w.context.cached.get? frame.node = none
  resolved : ∀ frame ∈ w.frames, frame.resolved.length ≤ (nl.slots frame.node).length
  called : w.frames.IsChain fun frame caller => ∃ link, link.node = frame.node ∧
    (nl.slots caller.node)[caller.resolved.length]? = some (some link)

namespace Walk

/-- The steps of a walk whose latest frame is `frame`: a slot yields a value, a slot reads an input
pin that is not cached, a source has to be evaluated first, or the node computes. -/
inductive Turn (s : Surroundings) (w : Walk) (frame : Frame) (below : List Frame) :
    Walk → Prop where
  | value (slot : Option Link) (bit : Bool)
      (hs : (s.netlist.slots frame.node)[frame.resolved.length]? = some slot) :
      Turn s w frame below { w with
        frames := { frame with resolved := frame.resolved ++ [bit] } :: below }
  | pin (link : Link) (pin : InputPin)
      (hs : (s.netlist.slots frame.node)[frame.resolved.length]? = some (some link))
      (hp : s.netlist.inputPin? link.node = some pin)
      (hc : w.context.cached.get? link.node = none) :
      Turn s w frame below { w with
        frames := { frame with resolved :=
          frame.resolved ++ [pinValue w.context link.node pin] } :: below
        context := w.context.cache link.node [pinValue w.context link.node pin] }
  | descend (link : Link)
      (hs : (s.netlist.slots frame.node)[frame.resolved.length]? = some (some link))
      (hg : s.netlist.IsGate link.node)
      (hc : w.context.cached.get? link.node = none)
      (hp : w.context.processing.contains link.node = false) :
      Turn s w frame below { w with
        frames := ⟨link.node, []⟩ :: frame :: below
        context := w.context.enter link.node }
  | fire (hs : (s.netlist.slots frame.node).length = frame.resolved.length) :
      Turn s w frame below
        { frames := below
          context := ((s.fire frame.node frame.resolved w.context).context.cache frame.node
            (s.fire frame.node frame.resolved w.context).value).leave
          calls := (s.fire frame.node frame.resolved w.context).calls ++ w.calls }

variable {w w' : Walk} {slot : Option Link}

theorem step_value (hf : w.frames = frame :: below)
    (hs : (s.netlist.slots frame.node)[frame.resolved.length]? = some slot) {bit : Bool}
    (hr : s.resolve w.context slot = .value bit ctx) :
    w.step s = { w with
      frames := { frame with resolved := frame.resolved ++ [bit] } :: below, context := ctx } := by
  simp only [step, hf, hs, hr]

theorem step_descend (hf : w.frames = frame :: below)
    (hs : (s.netlist.slots frame.node)[frame.resolved.length]? = some slot)
    (hr : s.resolve w.context slot = .descend id) :
    w.step s = { w with
      frames := ⟨id, []⟩ :: frame :: below, context := w.context.enter id } := by
  simp only [step, hf, hs, hr]

theorem step_fire (hf : w.frames = frame :: below)
    (hs : (s.netlist.slots frame.node)[frame.resolved.length]? = none) :
    w.step s =
      { frames := below
        context := ((s.fire frame.node frame.resolved w.context).context.cache frame.node
          (s.fire frame.node frame.resolved w.context).value).leave
        calls := (s.fire frame.node frame.resolved w.context).calls ++ w.calls } := by
  simp only [step, hf, hs]

/-- A slot yields a value and changes nothing, it reads an input pin that is not cached, or its
source has to be evaluated first. -/
theorem resolve_turn (s : Surroundings) (ctx : Context) (slot : Option Link) :
    (∃ bit, s.resolve ctx slot = .value bit ctx) ∨
    (∃ link pin, slot = some link ∧ s.netlist.inputPin? link.node = some pin ∧
      ctx.cached.get? link.node = none ∧ s.resolve ctx slot =
        .value (pinValue ctx link.node pin) (ctx.cache link.node [pinValue ctx link.node pin])) ∨
    ∃ link, slot = some link ∧ s.netlist.IsGate link.node ∧ ctx.cached.get? link.node = none ∧
      ctx.processing.contains link.node = false ∧ s.resolve ctx slot = .descend link.node := by
  cases slot with
  | none => exact .inl ⟨false, rfl⟩
  | some link =>
    cases hk : s.netlist.kind? link.node with
    | none => exact .inl ⟨false, by simp only [resolve, hk]⟩
    | some kind =>
      cases hp : ctx.processing.contains link.node with
      | true => exact .inl ⟨_, by simp only [resolve, hk, hp, if_true]; rfl⟩
      | false =>
        cases hc : ctx.cached.get? link.node with
        | some outputs => exact .inl ⟨_, by simp [resolve, hk, hp, hc]; rfl⟩
        | none =>
          cases kind with
          | gate g =>
            refine .inr (.inr ⟨link, rfl, ⟨g, kind?_eq_gate_iff.1 hk⟩, hc, hp, ?_⟩)
            simp [resolve, hk, hp, hc]
          | input pin =>
            refine .inr (.inl ⟨link, pin, rfl, ?_, hc, ?_⟩)
            · simp [inputPin?, hk, NodeKind.inputPin?]
            · simp [resolve, hk, hp, hc]
          | output pin => exact .inl ⟨false, by simp [resolve, hk, hp, hc]⟩

namespace Stacked

variable {nl : Netlist Gate}

theorem contains_iff (h : w.Stacked nl) :
    w.context.processing.contains id = true ↔ id ∈ w.frames.map (·.node) := by
  rw [h.coherent.2, h.stack]

theorem turn (h : w.Stacked s.netlist) (hf : w.frames = frame :: below) :
    Turn s w frame below (w.step s) := by
  have hm : frame ∈ w.frames := hf ▸ List.mem_cons_self
  cases hs : (s.netlist.slots frame.node)[frame.resolved.length]? with
  | none =>
    rw [step_fire hf hs]
    exact .fire (Nat.le_antisymm (List.getElem?_eq_none_iff.1 hs) (h.resolved frame hm))
  | some slot =>
    rcases resolve_turn s w.context slot with
      ⟨bit, hr⟩ | ⟨link, pin, rfl, hp, hc, hr⟩ | ⟨link, rfl, hg, hc, hp, hr⟩
    · rw [step_value hf hs hr]
      exact .value slot bit hs
    · rw [step_value hf hs hr]
      exact .pin link pin hs hp hc
    · rw [step_descend hf hs hr]
      exact .descend link hs hg hc hp

/-- The latest node has one more value, and none of the waiting nodes was cached. -/
theorem resolve (h : w.Stacked nl) (hf : w.frames = frame :: below) {slot : Option Link}
    (hs : (nl.slots frame.node)[frame.resolved.length]? = some slot) (bit : Bool)
    (hp : ctx.processing = w.context.processing)
    (hc : ∀ f ∈ w.frames, ctx.cached.get? f.node = w.context.cached.get? f.node) :
    Stacked nl { w with
      frames := { frame with resolved := frame.resolved ++ [bit] } :: below, context := ctx } := by
  have hlt := (List.getElem?_eq_some_iff.1 hs).1
  have hcalled := h.called
  obtain ⟨hframe, hbelow⟩ := List.forall_mem_cons.1 (hf ▸ h.resolved)
  rw [hf] at hc hcalled
  refine ⟨?_, hp ▸ h.coherent, ?_, ?_, List.forall_mem_cons.2 ⟨?_, hbelow⟩, ?_⟩
  · rw [hp, h.stack, hf]
    rfl
  · exact List.forall_mem_cons.2 (List.forall_mem_cons.1 (hf ▸ h.gate))
  · have hfresh := List.forall_mem_cons.1 (hf ▸ h.fresh)
    refine List.forall_mem_cons.2 ⟨?_, fun f hm => ?_⟩
    · exact (hc frame List.mem_cons_self).trans hfresh.1
    · exact (hc f (List.mem_cons_of_mem _ hm)).trans (hfresh.2 f hm)
  · simpa using hlt
  · cases below with
    | nil => exact .singleton _
    | cons caller below => exact List.isChain_cons_cons.2 (List.isChain_cons_cons.1 hcalled)

end Stacked

namespace Turn

variable (h : Turn s w frame below w') (hi : w.Stacked s.netlist) (hf : w.frames = frame :: below)

include h hi hf

theorem extends_of : w.context.Extends w'.context := by
  cases h with
  | value slot bit hs => exact .refl _
  | pin link pin hs hp hc => exact (Context.caches_cache _ hc).extends_of
  | descend link hs hg hc hp => exact ⟨id, fun _ => rfl, rfl⟩
  | fire hs => exact (Context.caches_fire _ (hi.fresh frame (hf ▸ List.mem_cons_self))).extends_of

theorem stacked : w'.Stacked s.netlist := by
  obtain ⟨hgate, hgates⟩ := List.forall_mem_cons.1 (hf ▸ hi.gate)
  obtain ⟨hresolved, hresolveds⟩ := List.forall_mem_cons.1 (hf ▸ hi.resolved)
  have hcalled := hi.called
  have hstack := hi.stack
  rw [hf] at hcalled
  rw [hf, List.map_cons] at hstack
  cases h with
  | value slot bit hs => exact hi.resolve hf hs bit rfl fun _ _ => rfl
  | pin link pin hs hp hc =>
    refine hi.resolve hf hs _ rfl fun f hm => ?_
    have hne : f.node ≠ link.node := fun he =>
      (hi.gate f hm).role?_ne_input (he ▸ role?_of_inputPin? hp)
    exact (Context.caches_cache _ hc).get?_of_ne hne
  | descend link hs hg hc hp =>
    refine ⟨?_, hi.coherent.push link.node, ?_, ?_, ?_, ?_⟩
    · rw [Context.nodes_enter hp, hi.stack, hf]
      rfl
    · exact List.forall_mem_cons.2 ⟨hg, List.forall_mem_cons.2 ⟨hgate, hgates⟩⟩
    · exact List.forall_mem_cons.2 ⟨hc, hf ▸ hi.fresh⟩
    · exact List.forall_mem_cons.2
        ⟨Nat.zero_le _, List.forall_mem_cons.2 ⟨hresolved, hresolveds⟩⟩
    · exact List.isChain_cons_cons.2 ⟨⟨link, rfl, hs⟩, hcalled⟩
  | fire hs =>
    obtain ⟨hfresh, hfreshes⟩ := List.forall_mem_cons.1 (hf ▸ hi.fresh)
    have hcaches := Context.caches_fire (s := s) frame.resolved hfresh
    have hnodup : (frame.node :: below.map (·.node)).Nodup := hstack ▸ hi.coherent.1
    have hprocessing : (s.fire frame.node frame.resolved w.context).context.processing.pop.2 =
        w.context.processing.pop.2 := by rw [processing_fire]
    refine ⟨?_, ?_, hgates, fun f hm => ?_, hresolveds, hcalled.tail⟩
    · change (s.fire frame.node frame.resolved w.context).context.processing.pop.2.nodes = _
      rw [hprocessing, WalkStack.pop, hstack]
    · change (s.fire frame.node frame.resolved w.context).context.processing.pop.2.Coherent
      rw [hprocessing]
      exact hi.coherent.pop
    · have hne : f.node ≠ frame.node := fun he =>
        (List.nodup_cons.1 hnodup).1 (he ▸ List.mem_map_of_mem hm)
      rw [hcaches.get?_of_ne hne, hfreshes f hm]

theorem visited (id : NodeId)
    (hv : (w.context.cached.contains id || w.context.processing.contains id) = true) :
    (w'.context.cached.contains id || w'.context.processing.contains id) = true := by
  rw [Bool.or_eq_true] at hv ⊢
  rcases hv with hc | hp
  · obtain ⟨outputs, ho⟩ := Option.isSome_iff_exists.1 hc
    exact .inl (Option.isSome_iff_exists.2 ⟨outputs, (h.extends_of hi hf).cached ho⟩)
  · cases h with
    | value slot bit hs => exact .inr hp
    | pin link pin hs hpin hc => exact .inr hp
    | descend link hs hg hc hn =>
      refine .inr ?_
      rw [Context.contains_enter, hp, Bool.true_or]
    | fire hs =>
      have hfresh := hi.fresh frame (hf ▸ List.mem_cons_self)
      have hc := Context.caches_fire (s := s) frame.resolved hfresh
      have hm := hi.contains_iff.1 hp
      rw [hf, List.map_cons, List.mem_cons] at hm
      rcases hm with rfl | hm
      · exact .inl (Option.isSome_iff_exists.2 ⟨_, hc.get?_self⟩)
      · refine .inr ?_
        change (s.fire frame.node frame.resolved w.context).context.processing.pop.2.contains id =
          true
        rw [processing_fire, hi.coherent.pop.2, WalkStack.pop, hi.stack, hf]
        exact hm

end Turn

/-- A walk may start at any gate that is not cached, when no other walk is under way. -/
theorem stacked_start {nl : Netlist Gate} (hn : ctx.processing.nodes = [])
    (hp : ctx.processing.Coherent) {root : NodeId} (hg : nl.IsGate root)
    (hc : ctx.cached.get? root = none) : (start ctx root).Stacked nl := by
  have hout : ctx.processing.contains root = false := by
    rw [Bool.eq_false_iff, Ne, hp.2, hn]
    exact List.not_mem_nil
  refine ⟨?_, hp.push root, List.forall_mem_singleton.2 hg, List.forall_mem_singleton.2 hc,
    List.forall_mem_singleton.2 (Nat.zero_le _), .singleton _⟩
  change (ctx.enter root).processing.nodes = [root]
  rw [Context.nodes_enter hout, hn]

/-- What is left to do at a gate that was not entered yet. -/
def pending (s : Surroundings) (ctx : Context) (id : NodeId) : Nat :=
  if (s.netlist.gate? id).isSome && !(ctx.cached.contains id || ctx.processing.contains id) then
    (s.netlist.slots id).length + 2
  else 0

/-- A bound on the steps that are left: entering, the slots and the computation of every gate that
was not entered, the other slots and the computation of every waiting node. -/
def work (s : Surroundings) (w : Walk) : Nat :=
  (w.frames.map fun f => (s.netlist.slots f.node).length - f.resolved.length + 1).sum +
    ∑ id ∈ Finset.range s.netlist.next, pending s w.context id

theorem pending_le {id : NodeId}
    (h : (ctx.cached.contains id || ctx.processing.contains id) = true →
      (ctx'.cached.contains id || ctx'.processing.contains id) = true) :
    pending s ctx' id ≤ pending s ctx id := by
  unfold pending
  split
  · next hc =>
    rw [Bool.and_eq_true, Bool.not_eq_true'] at hc
    have hn : (ctx.cached.contains id || ctx.processing.contains id) = false :=
      Bool.eq_false_iff.2 fun hv => Bool.false_ne_true (hc.2.symm.trans (h hv))
    simp [hc.1, hn]
  · exact Nat.zero_le _

theorem pending_enter_self (s : Surroundings) (ctx : Context) (id : NodeId) :
    pending s (ctx.enter id) id = 0 := by simp [pending]

theorem sum_add_le {n a c : Nat} {f g : Nat → Nat} (ha : a < n) (hc : f a + c ≤ g a)
    (hle : ∀ i, f i ≤ g i) :
    (∑ i ∈ Finset.range n, f i) + c ≤ ∑ i ∈ Finset.range n, g i := by
  have hin := Finset.mem_range.2 ha
  have hrest : ∑ i ∈ (Finset.range n).erase a, f i ≤ ∑ i ∈ (Finset.range n).erase a, g i :=
    Finset.sum_le_sum fun i _ => hle i
  rw [← Finset.add_sum_erase _ f hin, ← Finset.add_sum_erase _ g hin]
  omega

theorem Turn.work_lt (h : Turn s w frame below w') (hi : w.Stacked s.netlist)
    (hf : w.frames = frame :: below) : work s w' < work s w := by
  have hle : ∀ id, pending s w'.context id ≤ pending s w.context id :=
    fun id => pending_le (h.visited hi hf id)
  have hsum : ∑ id ∈ Finset.range s.netlist.next, pending s w'.context id ≤
      ∑ id ∈ Finset.range s.netlist.next, pending s w.context id :=
    Finset.sum_le_sum fun id _ => hle id
  have slot_lt {slot : Option Link}
      (hs : (s.netlist.slots frame.node)[frame.resolved.length]? = some slot) :
      frame.resolved.length < (s.netlist.slots frame.node).length :=
    (List.getElem?_eq_some_iff.1 hs).1
  unfold work
  rw [hf, List.map_cons, List.sum_cons]
  cases h with
  | value slot bit hs =>
    have hlt := slot_lt hs
    dsimp only at hsum ⊢
    simp only [List.map_cons, List.sum_cons, List.length_append, List.length_singleton]
    omega
  | pin link pin hs hp hc =>
    have hlt := slot_lt hs
    dsimp only at hsum ⊢
    simp only [List.map_cons, List.sum_cons, List.length_append, List.length_singleton]
    omega
  | descend link hs hg hc hp =>
    -- the gate that is entered was pending before and is not any more
    obtain ⟨g, hg'⟩ := hg
    have hbefore : pending s w.context link.node = (s.netlist.slots link.node).length + 2 := by
      simp [pending, gate?_eq_some_iff.2 hg', NodeMap.contains, hc, hp]
    have hafter := pending_enter_self s w.context link.node
    have hgap := sum_add_le (lt_next_of_role? hg') (c := (s.netlist.slots link.node).length + 2)
      (f := pending s (w.context.enter link.node)) (g := pending s w.context)
      (by rw [hbefore, hafter, Nat.zero_add]) hle
    simp only [List.map_cons, List.sum_cons, List.length_nil]
    omega
  | fire hs =>
    dsimp only at hsum ⊢
    omega

theorem run_of_done (h : w.frames = []) (fuel : Nat) : w.run s fuel = w := by
  cases fuel with
  | zero => rfl
  | succ fuel => rw [Walk.run, h, List.isEmpty_nil, if_pos rfl]

theorem run_succ (h : w.frames = frame :: below) (fuel : Nat) :
    w.run s (fuel + 1) = (w.step s).run s fuel := by
  rw [Walk.run, h, List.isEmpty_cons, if_neg Bool.false_ne_true]

/-- A walk that has ended does not change with more fuel. -/
theorem run_of_le {n m : Nat} (h : (w.run s n).frames = []) (hnm : n ≤ m) :
    w.run s m = w.run s n := by
  induction n generalizing w m with
  | zero => exact run_of_done h m
  | succ n ih =>
    cases hf : w.frames with
    | nil => rw [run_of_done hf, run_of_done hf]
    | cons frame below =>
      obtain ⟨m, rfl⟩ : ∃ k, m = k + 1 := ⟨m - 1, by omega⟩
      rw [run_succ hf] at h
      rw [run_succ hf, run_succ hf]
      exact ih h (by omega)

/-- A walk comes to its end within its work; it keeps the discipline of the stack on the way, and
what was entered or cached stays so. -/
theorem Stacked.run_complete (hi : w.Stacked s.netlist) {fuel : Nat} (h : work s w ≤ fuel) :
    (w.run s fuel).frames = [] ∧ (w.run s fuel).Stacked s.netlist ∧
      w.context.Extends (w.run s fuel).context ∧
      ∀ id, (w.context.cached.contains id || w.context.processing.contains id) = true →
        ((w.run s fuel).context.cached.contains id ||
          (w.run s fuel).context.processing.contains id) = true := by
  induction fuel generalizing w with
  | zero =>
    cases hf : w.frames with
    | nil =>
      rw [run_of_done hf]
      exact ⟨hf, hi, .refl _, fun _ => id⟩
    | cons frame below =>
      rw [work, hf, List.map_cons, List.sum_cons] at h
      omega
  | succ fuel ih =>
    cases hf : w.frames with
    | nil =>
      rw [run_of_done hf]
      exact ⟨hf, hi, .refl _, fun _ => id⟩
    | cons frame below =>
      have ht := hi.turn hf
      have hlt := ht.work_lt hi hf
      obtain ⟨hd, hi', he, hv⟩ := ih (ht.stacked hi hf) (by omega)
      rw [run_succ hf]
      exact ⟨hd, hi', (ht.extends_of hi hf).trans he, fun id h => hv id (ht.visited hi hf id h)⟩

end Walk

theorem Netlist.walkBound_eq (nl : Netlist Gate) :
    nl.walkBound = ∑ id ∈ Finset.range nl.next, (nl.node? id).elim 0 (·.slots.length + 2) := by
  have fold : ∀ l : List (Option (Node Gate)),
      l.foldl (fun steps node => steps + node.elim 0 (·.slots.length + 2)) 0 =
        ∑ i ∈ Finset.range l.length, (l[i]?.join).elim 0 (·.slots.length + 2) := by
    intro l
    induction l using List.reverseRecOn with
    | nil => rfl
    | append_singleton l node ih =>
      rw [List.foldl_append, ih, List.length_append, List.length_singleton,
        Finset.sum_range_succ, List.foldl_cons, List.foldl_nil, List.getElem?_concat_length]
      congr 1
      apply Finset.sum_congr rfl
      intro i hi
      rw [List.getElem?_append_left (Finset.mem_range.1 hi)]
  rw [walkBound, ← Array.foldl_toList, fold, Array.length_toList]
  simp only [next, node?, Array.getElem?_toList]

/-- The bound on the steps of a walk suffices when it starts. -/
theorem Walk.work_start_le {root : NodeId} (hg : s.netlist.IsGate root) :
    work s (start ctx root) ≤ s.netlist.walkBound := by
  obtain ⟨g, hg⟩ := hg
  have hcost : ∀ id, pending s (ctx.enter root) id ≤
      (s.netlist.node? id).elim 0 (·.slots.length + 2) := fun id => by
    unfold pending
    split
    · next h =>
      rw [Bool.and_eq_true, Option.isSome_iff_exists] at h
      obtain ⟨⟨part, hp⟩, _⟩ := h
      obtain ⟨node, hn, _⟩ := gate?_eq_some.1 hp
      simp [slots, hn]
    · exact Nat.zero_le _
  have hafter := pending_enter_self s ctx root
  have hroot : (s.netlist.node? root).elim 0 (·.slots.length + 2) =
      (s.netlist.slots root).length + 2 := by
    obtain ⟨node, hn, _⟩ := gate?_eq_some.1 (gate?_eq_some_iff.2 hg)
    simp [slots, hn]
  have hgap := sum_add_le (lt_next_of_role? hg) (c := (s.netlist.slots root).length + 2)
    (by rw [hafter, Nat.zero_add, hroot]) hcost
  rw [walkBound_eq, work, start]
  simp only [List.map_cons, List.map_nil, List.sum_cons, List.sum_nil, List.length_nil]
  omega

end Breadboard
