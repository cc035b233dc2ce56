import Breadboard.Proofs.Netlist.Copying
import Breadboard.Proofs.Netlist.PinIndex

namespace Breadboard.Netlist

/-- Where a link from a node leads from after copying: from its copy, if there is one. -/
def Copies.redirect (copies : Copies) (id : NodeId) : NodeId := (copies.get? id).getD id

/-- What the duplication of listed nodes leaves. -/
structure Duplicated (nl : Netlist Gate) (ids : List NodeId) (withPins : Bool) (copies : Copies)
    (nl' : Netlist Gate) : Prop where
  isSome_iff : ∀ id, (copies.get? id).isSome ↔
    id ∈ ids ∧ (withPins = true ∨ (nl.gate? id).isSome)
  injective : ∀ {a b copy}, copies.get? a = some copy → copies.get? b = some copy → a = b
  fresh : ∀ {id copy}, copies.get? id = some copy → nl.next ≤ copy
  kept : ∀ id < nl.next, nl'.node? id = nl.node? id
  copy : ∀ {id copy}, copies.get? id = some copy → ∃ node index, nl.node? id = some node ∧
    nl'.node? copy = some
      { kind := node.kind.withIndex index
        slots := node.slots.map (Option.map (Link.rename copies.redirect)) }
  no_others : ∀ id, nl.next ≤ id → nl'.isLive id = true →
    ∃ original, copies.get? original = some id
  inputs : nl'.inputs = nl.inputs ++
    (ids.eraseDups.filter fun id => (nl.inputPin? id).isSome).filterMap copies.get?
  outputs : nl'.outputs = nl.outputs ++
    (ids.eraseDups.filter fun id => (nl.outputPin? id).isSome).filterMap copies.get?
  indexed : nl'.Indexed

/-- The links of copied nodes that have a live source, as links to the copies. -/
def redirectedLinks (grown : Netlist Gate) (set : List NodeId) (copies : Copies) :
    List (NodeId × Nat × Link) :=
  (grown.linksOf set).filterMap fun (id, slot, link) =>
    if grown.isLive link.node then
      (copies.get? id).map fun copy =>
        (copy, slot, { link with node := (copies.get? link.node).getD link.node })
    else none

variable {nl grown : Netlist Gate} {ids set : List NodeId} {withPins : Bool} {copies : Copies}
  {id : NodeId}

namespace Copied

section

variable (h : nl.Copied nl set copies grown)

include h

/-- A source has the same outputs where the link of a copy leads from. -/
theorem role_redirect (hl : nl.isLive id = true) :
    grown.role? (copies.redirect id) = nl.role? id := by
  rw [Copies.redirect, h.copies]
  by_cases hid : id ∈ set
  · rw [if_pos hid]
    exact h.role hid
  · obtain ⟨node, hnode⟩ := isLive_iff.1 hl
    rw [if_neg hid, Option.getD_none, h.role?_of_lt (lt_next_of_node? hnode)]

theorem copiedLinks_redirectedLinks (hw : nl.WellFormed) :
    nl.CopiedLinks nl set (fun _ => true) copies.redirect
      (grown.redirectedLinks set copies) := by
  have hslots : ∀ a ∈ set, grown.slots a = nl.slots a := by
    intro a ha
    obtain ⟨node, _, hnode, _⟩ := h.copy a ha
    exact h.slots_of_lt (lt_next_of_node? hnode)
  have hlive : ∀ a link, some link ∈ nl.slots a → grown.isLive link.node = true := by
    intro a link hl
    obtain ⟨node, hnode⟩ := isLive_iff.1 (hw.isLive_of_link hl)
    exact isLive_iff.2 ⟨node, (h.kept _ (lt_next_of_node? hnode)).trans hnode⟩
  intro dest slot link
  simp only [redirectedLinks, List.mem_filterMap, Prod.exists, mem_linksOf]
  constructor
  · intro hm
    obtain ⟨id, k, l, ⟨hid, hs⟩, hplace⟩ := hm
    rw [hslots id hid] at hs
    rw [if_pos (hlive id l (List.mem_of_getElem? hs)), h.copies id, if_pos hid, Option.map_some,
      Option.some.injEq, Prod.mk.injEq, Prod.mk.injEq] at hplace
    obtain ⟨rfl, rfl, rfl⟩ := hplace
    exact ⟨id, hid, l, hs, trivial, rfl, rfl⟩
  · intro hm
    obtain ⟨id, hid, l, hs, _, rfl, rfl⟩ := hm
    refine ⟨id, slot, l, ⟨hid, (hslots id hid).symm ▸ hs⟩, ?_⟩
    rw [if_pos (hlive id l (List.mem_of_getElem? hs)), h.copies id, if_pos hid]
    rfl

/-- The links that are made are never refused. -/
theorem linkAll_redirectedLinks (hw : nl.WellFormed) :
    grown.linkAll (grown.redirectedLinks set copies) =
      (.ok (), grown.setSlots (grown.redirectedLinks set copies)) := by
  apply linkAll_of_linkable
  exact h.linkable hw (h.copiedLinks_redirectedLinks hw) fun _ _ _ hl _ =>
    h.role_redirect (hw.isLive_of_link hl)

end

end Copied

theorem duplicate_eq_ok (hw : nl.WellFormed) (hs : nl.copySet withPins ids = .ok set) :
    ∃ copies grown, nl.Copied nl set copies grown ∧ nl.duplicate ids withPins =
      (.ok copies, grown.setSlots (grown.redirectedLinks set copies)) := by
  have hc := copied_copySet hs nl
  refine ⟨_, _, hc, ?_⟩
  have hlinked := hc.linkAll_redirectedLinks hw
  unfold redirectedLinks at hlinked ⊢
  simp only [duplicate, hs, hlinked]
  rfl

namespace Copied

variable (h : nl.Copied nl set copies grown)

include h

theorem node?_copyPlace (hw : nl.WellFormed) (hid : id ∈ set) :
    ∃ node index, nl.node? id = some node ∧
      (grown.setSlots (grown.redirectedLinks set copies)).node? (copyPlace nl set id) = some
        { kind := node.kind.withIndex index
          slots := node.slots.map (Option.map (Link.rename copies.redirect)) } := by
  have hall (slot : Option Link) : (slot.filter fun _ => true) = slot := by cases slot <;> rfl
  have hwired := h.node?_wired (h.copiedLinks_redirectedLinks hw) hid
  simp only [hall] at hwired
  exact hwired

theorem node?_of_lt (hw : nl.WellFormed) (hid : id < nl.next) :
    (grown.setSlots (grown.redirectedLinks set copies)).node? id = nl.node? id := by
  rw [node?_setSlots, h.kept id hid]
  intro place hm he
  obtain ⟨a, _, _, _, _, hplace, _⟩ := (h.copiedLinks_redirectedLinks hw _ _ _).1 hm
  rw [← he, hplace] at hid
  exact Nat.not_lt.2 (next_le_copyPlace nl set a) hid

theorem duplicated (hw : nl.WellFormed) (hs : nl.copySet withPins ids = .ok set)
    (hi : (grown.setSlots (grown.redirectedLinks set copies)).Indexed) :
    nl.Duplicated ids withPins copies (grown.setSlots (grown.redirectedLinks set copies)) where
  isSome_iff id := by
    have hcopied : nl.copied? withPins id = true ↔ withPins = true ∨ (nl.gate? id).isSome := by
      rw [copied?, Bool.or_eq_true]
    rw [← hcopied, ← mem_copySet hs, h.copies]
    by_cases hid : id ∈ set <;> simp [hid]
  injective := h.eq_of_get?
  fresh hcopy := by
    obtain ⟨_, rfl⟩ := h.get?_eq_some.1 hcopy
    exact next_le_copyPlace ..
  kept id hid := h.node?_of_lt hw hid
  copy hcopy := by
    obtain ⟨hid, rfl⟩ := h.get?_eq_some.1 hcopy
    exact h.node?_copyPlace hw hid
  no_others id hle hlive := by
    rw [isLive_eq_isSome_role?, role?_setSlots, Option.isSome_iff_exists] at hlive
    obtain ⟨r, hr⟩ := hlive
    obtain ⟨original, ho⟩ := h.exists_original (nodup_copySet hs) hle (lt_next_of_role? hr)
    exact ⟨original, h.get?_eq_some.2 ho⟩
  inputs := by rw [inputs_setSlots, h.inputs, h.map_copyPlace hs]
  outputs := by rw [outputs_setSlots, h.outputs, h.map_copyPlace hs]
  indexed := hi

end Copied

/-- Duplication is refused exactly when a listed node is not live, and then it changes nothing.
Otherwise it adds the copies of the listed nodes and nothing else. -/
theorem Reachable.duplicate_exact (hr : nl.Reachable) (ids : List NodeId) (withPins : Bool) :
    ((∃ e, (nl.duplicate ids withPins).1 = .error e) ↔ ∃ id ∈ ids, nl.isLive id = false) ∧
    (∀ e, (nl.duplicate ids withPins).1 = .error e → (nl.duplicate ids withPins).2 = nl) ∧
    ∀ copies, (nl.duplicate ids withPins).1 = .ok copies →
      nl.Duplicated ids withPins copies (nl.duplicate ids withPins).2 := by
  have hw := hr.wellFormed
  cases hs : nl.copySet withPins ids with
  | error cause =>
    have hrefused : nl.duplicate ids withPins = (.error cause, nl) := by
      rw [Netlist.duplicate, hs]
    have hdead : ¬ ∀ id ∈ ids, nl.isLive id = true := by
      intro hlive
      obtain ⟨set, hset⟩ := exists_copySet_iff.2 hlive
      cases hs.symm.trans hset
    rw [hrefused]
    refine ⟨⟨fun _ => ?_, fun _ => ⟨cause, rfl⟩⟩, fun _ _ => rfl, nofun⟩
    simpa using hdead
  | ok set =>
    obtain ⟨copies, grown, hcopied, hanswer⟩ := duplicate_eq_ok hw hs
    have hindexed := hr.indexed.duplicate hw ids withPins
    rw [hanswer] at hindexed ⊢
    refine ⟨⟨nofun, ?_⟩, nofun, ?_⟩
    · intro hdead
      obtain ⟨id, hid, hdead⟩ := hdead
      rw [(copySet_eq_ok_iff.1 hs).1 id hid] at hdead
      cases hdead
    · intro copies' hcopies
      obtain rfl := Except.ok.inj hcopies
      exact hcopied.duplicated hw hs hindexed

/-- The latch and its output copied: the loop of the copy is its own, the input is shared, and what
is listed again makes no second copy. -/
theorem duplicate_exact_latch :
    latch.Reachable ∧ ∃ copies, (latch.duplicate [2, 1, 2] true).1 = .ok copies ∧
      latch.Duplicated [2, 1, 2] true copies (latch.duplicate [2, 1, 2] true).2 ∧
      (latch.duplicate [2, 1, 2] true).2.slots 3 = [some ⟨0, 0⟩, some ⟨3, 0⟩] ∧
      (latch.duplicate [2, 1, 2] true).2.slots 4 = [some ⟨3, 0⟩] ∧
      (latch.duplicate [2, 1, 2] true).2.outputs = [1, 4] ∧
      ∃ e, (latch.duplicate [2, 5] true).1 = .error e := by
  obtain ⟨_, _, hcopied⟩ := Reachable.duplicate_exact reachable_latch [2, 1, 2] true
  obtain ⟨hrefused, _, _⟩ := Reachable.duplicate_exact reachable_latch [2, 5] true
  refine ⟨reachable_latch, _, rfl, hcopied _ rfl, rfl, rfl, rfl, hrefused.2 ⟨5, ?_, rfl⟩⟩
  decide

end Breadboard.Netlist
