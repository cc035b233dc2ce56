import Breadboard.Proofs.Evaluation.Meaning
import Breadboard.Proofs.Netlist.Duplication
import Breadboard.Proofs.Netlist.Extraction
import Breadboard.Proofs.Simulation.Ticks

namespace Breadboard

open Netlist Surroundings

namespace Netlist

/-- The link of a copy: from the copy of the source, if the source was copied. -/
def Copies.link? (copies : Copies) (link : Link) : Option Link :=
  (copies.get? link.node).map fun source => { link with node := source }

/-- What the extraction of listed nodes yields. -/
structure Induces (nl : Netlist Gate) (ids : List NodeId) (copies : Copies)
    (part : Netlist Gate) : Prop where
  isSome_iff : ∀ id, (copies.get? id).isSome ↔ id ∈ ids
  injective : ∀ {a b copy}, copies.get? a = some copy → copies.get? b = some copy → a = b
  isLive_iff : ∀ copy, part.isLive copy = true ↔ ∃ id, copies.get? id = some copy
  copy : ∀ {id copy}, copies.get? id = some copy → ∃ node index, nl.node? id = some node ∧
    part.node? copy = some
      { kind := node.kind.withIndex index
        slots := node.slots.map fun slot => slot.bind copies.link? }
  inputs : part.inputs =
    (ids.eraseDups.filter fun id => (nl.inputPin? id).isSome).filterMap copies.get?
  outputs : part.outputs =
    (ids.eraseDups.filter fun id => (nl.outputPin? id).isSome).filterMap copies.get?
  indexed : part.Indexed

variable {nl target part : Netlist Gate} {ids set : List NodeId} {copies : Copies}
  {id copy : NodeId}

theorem Copied.link?_eq (h : nl.Copied ∅ set copies target) (slot : Option Link) :
    slot.bind copies.link? =
      (slot.filter fun link => link.node ∈ set).map (Link.rename set.idxOf) := by
  cases slot with
  | none => rfl
  | some link =>
    rw [Option.bind_some, Copies.link?, h.copies, copyPlace_empty]
    by_cases hm : link.node ∈ set <;> simp [hm, Link.rename]

theorem Copied.induces (h : nl.Copied ∅ set copies target) (hs : nl.copySet true ids = .ok set)
    (hi : (target.setSlots (nl.innerLinks set copies)).Indexed) :
    nl.Induces ids copies (target.setSlots (nl.innerLinks set copies)) where
  isSome_iff id := by
    have hmem : id ∈ set ↔ id ∈ ids := by
      rw [mem_copySet hs, copied?, Bool.true_or, eq_self_iff_true, and_true]
    rw [← hmem, h.copies]
    by_cases hid : id ∈ set <;> simp [hid]
  injective := h.eq_of_get?
  isLive_iff copy := by
    rw [isLive_eq_isSome_role?, role?_setSlots, ← isLive_eq_isSome_role?, isLive_iff]
    constructor
    · intro hlive
      obtain ⟨node, hnode⟩ := hlive
      obtain ⟨id, hid⟩ := h.exists_original (nodup_copySet hs) (Nat.zero_le _)
        (lt_next_of_node? hnode)
      exact ⟨id, h.get?_eq_some.2 hid⟩
    · intro hcopy
      obtain ⟨id, hcopy⟩ := hcopy
      obtain ⟨hid, rfl⟩ := h.get?_eq_some.1 hcopy
      obtain ⟨_, _, _, hnode⟩ := h.copy id hid
      exact ⟨_, hnode⟩
  copy hcopy := by
    obtain ⟨hid, rfl⟩ := h.get?_eq_some.1 hcopy
    simp only [h.link?_eq]
    exact h.node?_wired h.copiedLinks_innerLinks hid
  inputs := by
    rw [inputs_setSlots, h.inputs, h.map_copyPlace hs]
    rfl
  outputs := by
    rw [outputs_setSlots, h.outputs, h.map_copyPlace hs]
    rfl
  indexed := hi

namespace Induces

theorem exists_copy (h : nl.Induces ids copies part) (hid : id ∈ ids) :
    ∃ copy, copies.get? id = some copy := Option.isSome_iff_exists.1 ((h.isSome_iff id).2 hid)

theorem mem_ids (h : nl.Induces ids copies part) (hc : copies.get? id = some copy) : id ∈ ids :=
  (h.isSome_iff id).1 (Option.isSome_iff_exists.2 ⟨copy, hc⟩)

/-- The copies of a list that reads nothing outside have all its links. -/
theorem embeds (h : nl.Induces ids copies part)
    (hc : ∀ {a b}, a ∈ ids → nl.Reads a b → b ∈ ids) :
    nl.Embeds part (· ∈ ids) copies.redirect where
  injective {a b} ha hb he := by
    obtain ⟨copy, hcopy⟩ := h.exists_copy ha
    obtain ⟨copy', hcopy'⟩ := h.exists_copy hb
    rw [Copies.redirect, Copies.redirect, hcopy, hcopy', Option.getD_some, Option.getD_some] at he
    exact h.injective hcopy (he ▸ hcopy')
  role {a} ha := by
    obtain ⟨copy, hcopy⟩ := h.exists_copy ha
    obtain ⟨node, index, hnode, hnode'⟩ := h.copy hcopy
    rw [Copies.redirect, hcopy, Option.getD_some]
    simp [role?_eq_map, hnode, hnode']
  slots {a} ha := by
    obtain ⟨copy, hcopy⟩ := h.exists_copy ha
    obtain ⟨node, index, hnode, hnode'⟩ := h.copy hcopy
    have hslots : nl.slots a = node.slots := by simp [slots, hnode]
    have hslots' : part.slots copy = node.slots.map fun slot => slot.bind copies.link? := by
      simp [slots, hnode']
    rw [Copies.redirect, hcopy, Option.getD_some, hslots', hslots]
    apply List.map_congr_left
    intro slot hs
    cases slot with
    | none => rfl
    | some link =>
      obtain ⟨source, hsource⟩ := h.exists_copy (hc ha ⟨link, hslots ▸ hs, rfl⟩)
      simp [Copies.link?, Link.rename, Copies.redirect, hsource]
  closed := hc

/-- A copied pin keeps its state. -/
theorem state_eq (h : nl.Induces ids copies part) (hc : copies.get? id = some copy)
    {pin pin' : InputPin} (hp : nl.inputPin? id = some pin)
    (hp' : part.inputPin? copy = some pin') : pin'.state = pin.state := by
  obtain ⟨node, index, hnode, hnode'⟩ := h.copy hc
  have hkind := kind?_of_inputPin? hp
  have hkind' := kind?_of_inputPin? hp'
  rw [kind?, hnode, Option.map_some, Option.some.injEq] at hkind
  rw [kind?, hnode', Option.map_some, Option.some.injEq, hkind] at hkind'
  cases hkind'
  rfl

end Induces

end Netlist

namespace Surroundings

/-- What one evaluation in a context answers. -/
def reply (s : Surroundings) (ctx : Context) : Call → Bits
  | .node id => (s.evalNode ctx id).value
  | .pin id => [(s.readPin ctx id).value]
  | .link link => [(s.evalLink ctx link).value]

/-- What evaluations answer that are made one after another. -/
def replies (s : Surroundings) : Context → List Call → List Bits
  | _, [] => []
  | ctx, c :: cs => s.reply ctx c :: s.replies (s.call ctx c) cs

end Surroundings

/-- The evaluations of one tick, in a context with overrides of pin states. -/
structure TickCalls where
  pins : NodeMap Bool
  calls : List Call

/-- The same evaluation for an original and for its copy. -/
inductive Call.Copied (copies : Copies) : Call → Call → Prop where
  | node {id copy} (h : copies.get? id = some copy) : Copied copies (.node id) (.node copy)
  | pin {id copy} (h : copies.get? id = some copy) : Copied copies (.pin id) (.pin copy)
  | link {link copy} (h : copies.link? link = some copy) :
      Copied copies (.link (some link)) (.link (some copy))
  | unlinked : Copied copies (.link none) (.link none)

/-- The same evaluations for originals and for their copies, with the same overrides. -/
structure TickCalls.Copied (nl : Netlist Gate) (copies : Copies) (tick tick' : TickCalls) :
    Prop where
  calls : List.Forall₂ (Call.Copied copies) tick.calls tick'.calls
  pins : ∀ {id copy}, copies.get? id = some copy → (nl.inputPin? id).isSome →
    tick'.pins.get? copy = tick.pins.get? id

namespace Netlist

/-- What evaluations answer tick after tick. Each tick has a fresh context, which is the previous
one of the next tick. -/
def replies (nl : Netlist Gate) : Option Context → List TickCalls → List (List Bits)
  | _, [] => []
  | previous, tick :: ticks =>
    let fresh : Context := { pins := tick.pins }
    (nl.within previous).replies fresh tick.calls ::
      nl.replies (some ((nl.within previous).calls fresh tick.calls)) ticks

variable {nl part : Netlist Gate} {ids : List NodeId} {copies : Copies}
  {before before' : Option Context} {ctx ctx' : Context}

namespace Induces

section

variable (h : nl.Induces ids copies part) (hc : ∀ {a b}, a ∈ ids → nl.Reads a b → b ∈ ids)
  (hw : nl.WellFormed) (hw' : part.WellFormed)

include h hc hw hw'

theorem reply_eq (hb : nl.SameBefore (· ∈ ids) copies.redirect before before')
    (ht : nl.Tracks part (· ∈ ids) copies.redirect ctx ctx')
    (hs : ctx.Settled (nl.within before)) (hs' : ctx'.Settled (part.within before'))
    {c c' : Call} (hcall : c.Copied copies c') :
    (part.within before').reply ctx' c' = (nl.within before).reply ctx c ∧
      nl.Tracks part (· ∈ ids) copies.redirect ((nl.within before).call ctx c)
        ((part.within before').call ctx' c') := by
  have he := h.embeds hc
  cases hcall with
  | node hcopy =>
    have hnode := evalNode_rename he hw hw' hb ht hs hs' (h.mem_ids hcopy)
    rw [Copies.redirect, hcopy, Option.getD_some] at hnode
    exact hnode
  | pin hcopy =>
    obtain ⟨hv, ht⟩ := readPin_rename he hw hw' hb ht hs hs' (h.mem_ids hcopy)
    rw [Copies.redirect, hcopy, Option.getD_some] at hv ht
    exact ⟨congrArg ([·]) hv, ht⟩
  | @link link copy hcopy =>
    obtain ⟨source, hsource, rfl⟩ := Option.map_eq_some_iff.1 hcopy
    have hmem : ∀ l, some link = some l → l.node ∈ ids := by
      intro l hl
      obtain rfl := Option.some.inj hl
      exact h.mem_ids hsource
    obtain ⟨hv, ht⟩ := evalLink_rename he hw hw' hb ht hs hs' hmem
    rw [Option.map_some, Link.rename, Copies.redirect, hsource, Option.getD_some] at hv ht
    exact ⟨congrArg ([·]) hv, ht⟩
  | unlinked => exact ⟨rfl, ht⟩

theorem replies_calls (hb : nl.SameBefore (· ∈ ids) copies.redirect before before')
    (ht : nl.Tracks part (· ∈ ids) copies.redirect ctx ctx')
    (hs : ctx.Settled (nl.within before)) (hs' : ctx'.Settled (part.within before'))
    {cs cs' : List Call} (hcalls : List.Forall₂ (Call.Copied copies) cs cs') :
    (part.within before').replies ctx' cs' = (nl.within before).replies ctx cs ∧
      nl.Tracks part (· ∈ ids) copies.redirect ((nl.within before).calls ctx cs)
        ((part.within before').calls ctx' cs') := by
  induction hcalls generalizing ctx ctx' with
  | nil => exact ⟨rfl, ht⟩
  | @cons c c' cs cs' hcall _ ih =>
    obtain ⟨hreply, ht⟩ := h.reply_eq hc hw hw' hb ht hs hs' hcall
    obtain ⟨hreplies, ht⟩ := ih ht (calls_settled (s := nl.within before) hw hs [c]).1
      (calls_settled (s := part.within before') hw' hs' [c']).1
    rw [Surroundings.replies, Surroundings.replies, hreply, hreplies]
    exact ⟨rfl, ht⟩

theorem replies_ticks (hb : nl.SameBefore (· ∈ ids) copies.redirect before before')
    {ticks ticks' : List TickCalls}
    (hticks : List.Forall₂ (TickCalls.Copied nl copies) ticks ticks') :
    part.replies before' ticks' = nl.replies before ticks := by
  induction hticks generalizing before before' with
  | nil => rfl
  | @cons tick tick' ticks ticks' htick _ ih =>
    have hfresh : nl.Tracks part (· ∈ ids) copies.redirect { pins := tick.pins }
        { pins := tick'.pins } := by
      apply tracks_fresh
      intro a pin pin' ha hp hp'
      obtain ⟨copy, hcopy⟩ := h.exists_copy ha
      rw [Copies.redirect, hcopy, Option.getD_some] at hp' ⊢
      rw [pinValue, pinValue, htick.pins hcopy (Option.isSome_iff_exists.2 ⟨pin, hp⟩),
        h.state_eq hcopy hp hp']
    obtain ⟨hreplies, ht⟩ := h.replies_calls hc hw hw' hb hfresh (Context.settled_fresh _ _)
      (Context.settled_fresh _ _) htick.calls
    have hnext : nl.SameBefore (· ∈ ids) copies.redirect
        (some ((nl.within before).calls { pins := tick.pins } tick.calls))
        (some ((part.within before').calls { pins := tick'.pins } tick'.calls)) :=
      fun a ha _ => ⟨ht.cached ha, ht.nested ha⟩
    rw [Netlist.replies, Netlist.replies, hreplies, ih hnext]

end

end Induces

/-- Extraction is refused exactly when a listed node is not live. Otherwise it yields the part that
the listed nodes induce. If nothing outside the list is read, the same evaluations answer the same
in the part, over any number of ticks. -/
theorem Reachable.extract_exact (hr : nl.Reachable) (ids : List NodeId) :
    ((∃ e, nl.extract ids = .error e) ↔ ∃ id ∈ ids, nl.isLive id = false) ∧
    ∀ part copies, nl.extract ids = .ok (part, copies) →
      nl.Induces ids copies part ∧
      ((∀ a ∈ ids, ∀ b, nl.Reads a b → b ∈ ids) →
        ∀ ticks ticks', List.Forall₂ (TickCalls.Copied nl copies) ticks ticks' →
          part.replies none ticks' = nl.replies none ticks) := by
  have hw := hr.wellFormed
  cases hs : nl.copySet true ids with
  | error cause =>
    have hrefused : nl.extract ids = .error cause := by rw [Netlist.extract, hs]
    have hdead : ¬ ∀ id ∈ ids, nl.isLive id = true := by
      intro hlive
      obtain ⟨set, hset⟩ := exists_copySet_iff.2 hlive
      cases hs.symm.trans hset
    rw [hrefused]
    refine ⟨⟨fun _ => by simpa using hdead, fun _ => ⟨cause, rfl⟩⟩, ?_⟩
    intro part copies he
    cases he
  | ok set =>
    obtain ⟨copies, target, hcopied, hanswer⟩ := extract_of_copySet hw hs
    have hindexed := hw.indexed_extract hanswer
    have hw' := hw.extract hanswer
    have hinduces := hcopied.induces hs hindexed
    rw [hanswer]
    refine ⟨⟨?_, ?_⟩, ?_⟩
    · intro hrefused
      obtain ⟨_, he⟩ := hrefused
      cases he
    · intro hdead
      obtain ⟨id, hid, hdead⟩ := hdead
      rw [(copySet_eq_ok_iff.1 hs).1 id hid] at hdead
      cases hdead
    · intro part' copies' he
      obtain ⟨rfl, rfl⟩ := Prod.mk.inj (Except.ok.inj he)
      refine ⟨hinduces, fun hc ticks ticks' hticks => ?_⟩
      exact hinduces.replies_ticks (fun ha hab => hc _ ha _ hab) hw hw' (fun _ _ _ => ⟨rfl, rfl⟩)
        hticks

/-- The nodes of the latch in another order, one of them listed twice: the part is set in the first
tick and stays set. -/
theorem extract_exact_latch :
    latch.Reachable ∧ ∃ part copies, latch.extract [2, 0, 2, 1] = .ok (part, copies) ∧
      latch.Induces [2, 0, 2, 1] copies part ∧
      (∀ a ∈ [2, 0, 2, 1], ∀ b, latch.Reads a b → b ∈ [2, 0, 2, 1]) ∧
      part.replies none [⟨.ofList [(1, true)], [.pin 2]⟩, ⟨∅, [.node 0, .link none]⟩] =
        [[[true]], [[true], [false]]] ∧
      ∃ e, latch.extract [2, 5] = .error e := by
  obtain ⟨part, copies, he, hin, hout, hor⟩ : ∃ part copies,
      latch.extract [2, 0, 2, 1] = .ok (part, copies) ∧ copies.get? 0 = some 1 ∧
        copies.get? 1 = some 2 ∧ copies.get? 2 = some 0 := ⟨_, _, rfl, rfl, rfl, rfl⟩
  have hclosed : ∀ a ∈ [2, 0, 2, 1], ∀ b, latch.Reads a b → b ∈ [2, 0, 2, 1] := by
    intro a _ b hr
    obtain ⟨link, hl, rfl⟩ := hr
    obtain ⟨node, hnode⟩ := isLive_iff.1 (reachable_latch.wellFormed.isLive_of_link hl)
    have hlt : link.node < 3 := lt_next_of_node? hnode
    revert hlt
    generalize link.node = n
    revert n
    decide
  have hticks : List.Forall₂ (TickCalls.Copied latch copies)
      [⟨.ofList [(0, true)], [.pin 1]⟩, ⟨∅, [.node 2, .link none]⟩]
      [⟨.ofList [(1, true)], [.pin 2]⟩, ⟨∅, [.node 0, .link none]⟩] := by
    refine .cons ⟨.cons (.pin hout) .nil, ?_⟩
      (.cons ⟨.cons (.node hor) (.cons .unlinked .nil), fun _ _ => rfl⟩ .nil)
    intro id copy hcopy hpin
    obtain ⟨pin, hp⟩ := Option.isSome_iff_exists.1 hpin
    have hmem : id ∈ latch.inputs :=
      (reachable_latch.wellFormed.mem_inputs id).2 (role?_of_inputPin? hp)
    obtain rfl : id = 0 := List.mem_singleton.1 hmem
    obtain rfl := Option.some.inj (hin.symm.trans hcopy)
    rfl
  obtain ⟨_, hpart⟩ := Reachable.extract_exact reachable_latch [2, 0, 2, 1]
  obtain ⟨hinduces, hruns⟩ := hpart part copies he
  obtain ⟨hrefused, _⟩ := Reachable.extract_exact reachable_latch [2, 5]
  refine ⟨reachable_latch, part, copies, he, hinduces, hclosed, ?_,
    hrefused.2 ⟨5, by decide, rfl⟩⟩
  rw [hruns hclosed _ _ hticks]
  decide +kernel

end Netlist

end Breadboard
