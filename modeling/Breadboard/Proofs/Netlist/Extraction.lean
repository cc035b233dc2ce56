import Breadboard.Proofs.Netlist.Copying

namespace Breadboard

namespace Netlist

variable {nl target : Netlist Gate} {ids set : List NodeId} {copies : Copies} {id : NodeId}

theorem Copied.role_idxOf (h : nl.Copied ∅ ids copies target) (hid : id ∈ ids) :
    target.role? (ids.idxOf id) = nl.role? id := by
  have hrole := h.role hid
  rwa [copyPlace_empty] at hrole

/-- The links between listed nodes, from copy to copy. -/
def innerLinks (nl : Netlist Gate) (ids : List NodeId) (copies : Copies) :
    List (NodeId × Nat × Link) :=
  (nl.linksOf ids).filterMap fun (id, slot, link) =>
    (copies.get? id).bind fun copy =>
      (copies.get? link.node).map fun source => (copy, slot, { link with node := source })

theorem Copied.copiedLinks_innerLinks (h : nl.Copied ∅ ids copies target) :
    nl.CopiedLinks ∅ ids (fun link => link.node ∈ ids) ids.idxOf (nl.innerLinks ids copies) := by
  intro dest slot link
  simp only [innerLinks, List.mem_filterMap, Prod.exists, mem_linksOf, Option.bind_eq_some_iff,
    Option.map_eq_some_iff, Prod.mk.injEq, h.copies, Option.ite_none_right_eq_some,
    Option.some.injEq, copyPlace_empty, decide_eq_true_eq]
  constructor
  · intro hm
    obtain ⟨id, k, l, ⟨hid, hs⟩, copy, ⟨_, rfl⟩, source, ⟨hl, rfl⟩, rfl, rfl, rfl⟩ := hm
    exact ⟨id, hid, l, hs, hl, rfl, rfl⟩
  · intro hm
    obtain ⟨id, hid, l, hs, hl, rfl, rfl⟩ := hm
    exact ⟨id, slot, l, ⟨hid, hs⟩, _, ⟨hid, rfl⟩, _, ⟨hl, rfl⟩, rfl, rfl, rfl⟩

/-- What the extraction of the listed nodes yields. -/
structure Extracted (nl : Netlist Gate) (ids : List NodeId) (part : Netlist Gate) : Prop where
  role : ∀ id ∈ ids, part.role? (ids.idxOf id) = nl.role? id
  slots : ∀ id ∈ ids, part.slots (ids.idxOf id) = (nl.slots id).map fun slot =>
    (slot.filter fun link => link.node ∈ ids).map (Link.rename ids.idxOf)
  inputs : part.inputs =
    (ids.filter fun id => (nl.inputPin? id).isSome).map fun id => ids.idxOf id
  outputs : part.outputs =
    (ids.filter fun id => (nl.outputPin? id).isSome).map fun id => ids.idxOf id

/-- What is extracted is a copy, when nothing outside the list is read. -/
theorem Extracted.embeds {part : Netlist Gate} (h : nl.Extracted ids part)
    (hc : ∀ {a b}, a ∈ ids → nl.Reads a b → b ∈ ids) : nl.Embeds part (· ∈ ids) ids.idxOf where
  injective := eq_of_idxOf_eq
  role := h.role _
  slots {a} ha := by
    rw [h.slots a ha]
    apply List.map_congr_left
    intro slot hs
    cases slot with
    | none => rfl
    | some link => simp [Option.filter, hc ha ⟨link, hs, rfl⟩]
  closed := hc

theorem Copied.extracted (h : nl.Copied ∅ ids copies target) :
    nl.Extracted ids (target.setSlots (nl.innerLinks ids copies)) where
  role id hid := by rw [role?_setSlots, h.role_idxOf hid]
  slots id hid := by
    have hwired := h.slots_wired h.copiedLinks_innerLinks hid
    rwa [copyPlace_empty] at hwired
  inputs := by
    rw [inputs_setSlots, h.inputs, copyPlace_empty]
    rfl
  outputs := by
    rw [outputs_setSlots, h.outputs, copyPlace_empty]
    rfl

/-- The links that are made are never refused. -/
theorem Copied.linkAll_innerLinks (h : nl.Copied ∅ ids copies target) (hw : nl.WellFormed) :
    target.linkAll (nl.innerLinks ids copies) =
      (.ok (), target.setSlots (nl.innerLinks ids copies)) := by
  apply linkAll_of_linkable
  exact h.linkable hw h.copiedLinks_innerLinks fun _ _ link _ hp =>
    h.role_idxOf (of_decide_eq_true hp)

/-- Live nodes can be extracted, each once. -/
theorem extract_of_copySet (hw : nl.WellFormed) (hs : nl.copySet true ids = .ok set) :
    ∃ copies target, nl.Copied ∅ set copies target ∧
      nl.extract ids = .ok (target.setSlots (nl.innerLinks set copies), copies) := by
  have hc := copied_copySet hs ∅
  refine ⟨_, _, hc, ?_⟩
  have hlinked := hc.linkAll_innerLinks hw
  unfold innerLinks at hlinked ⊢
  simp only [extract, hs, hlinked]

/-- Distinct live nodes can be extracted. -/
theorem extract_eq_ok (hw : nl.WellFormed) (hn : ids.Nodup)
    (hl : ∀ id ∈ ids, nl.isLive id = true) :
    ∃ part copies, nl.extract ids = .ok (part, copies) ∧ nl.Extracted ids part := by
  obtain ⟨copies, target, hc, he⟩ := extract_of_copySet hw (copySet_eq_self hn hl)
  exact ⟨_, copies, he, hc.extracted⟩

end Netlist

end Breadboard
