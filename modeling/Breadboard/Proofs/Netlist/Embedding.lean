import Breadboard.Proofs.Netlist.Cone

namespace Breadboard

open Relation

/-- The link under other names of nodes. -/
def Link.rename (f : NodeId → NodeId) (link : Link) : Link := ⟨f link.node, link.output⟩

namespace Netlist

/-- The nodes of `part`, which is closed backward, have their copies in `nl'` under `f`. -/
structure Embeds (nl nl' : Netlist Gate) (part : NodeId → Prop) (f : NodeId → NodeId) : Prop where
  injective : ∀ {a b}, part a → part b → f a = f b → a = b
  role : ∀ {a}, part a → nl'.role? (f a) = nl.role? a
  slots : ∀ {a}, part a → nl'.slots (f a) = (nl.slots a).map (Option.map (Link.rename f))
  closed : ∀ {a b}, part a → nl.Reads a b → part b

variable {nl nl' : Netlist Gate} {part : NodeId → Prop} {f : NodeId → NodeId} {a : NodeId}

theorem Alike.reads_eq (h : Alike nl nl') : nl'.Reads = nl.Reads := by
  funext a b
  unfold Reads
  rw [h.slots]

/-- A part that keeps its roles and slots is its own copy. -/
theorem embeds_of_kept (hr : ∀ {a}, part a → nl'.role? a = nl.role? a)
    (hs : ∀ {a}, part a → nl'.slots a = nl.slots a)
    (hc : ∀ {a b}, part a → nl.Reads a b → part b) : nl.Embeds nl' part id where
  injective _ _ h := h
  role := hr
  slots {a} ha := by
    rw [id_eq, hs ha]
    refine (List.map_id'' (fun slot => ?_) _).symm
    cases slot <;> rfl
  closed := hc

theorem Alike.embeds (h : Alike nl nl') (hc : ∀ {a b}, part a → nl.Reads a b → part b) :
    nl.Embeds nl' part id := embeds_of_kept (fun _ => h.role _) (fun _ => h.slots _) hc

namespace Embeds

theorem isGate (h : nl.Embeds nl' part f) (ha : part a) : nl'.IsGate (f a) ↔ nl.IsGate a := by
  rw [IsGate, IsGate, h.role ha]

theorem isLive (h : nl.Embeds nl' part f) (ha : part a) : nl'.isLive (f a) = nl.isLive a := by
  rw [isLive_eq_isSome_role?, isLive_eq_isSome_role?, h.role ha]

theorem isHierarchical (h : nl.Embeds nl' part f) (ha : part a) (hg : nl.IsGate a) :
    nl'.isHierarchical (f a) = nl.isHierarchical a := by
  obtain ⟨g, hg⟩ := hg
  rw [isHierarchical_of_role? hg, isHierarchical_of_role? ((h.role ha).trans hg)]

theorem part_of_link (h : nl.Embeds nl' part f) (ha : part a) {link : Link}
    (hl : some link ∈ nl.slots a) : part link.node := h.closed ha ⟨link, hl, rfl⟩

theorem source?_eq (h : nl.Embeds nl' part f) (hw : nl.WellFormed) (hw' : nl'.WellFormed)
    (ha : part a) : nl'.source? (f a) 0 = (nl.source? a 0).map (Link.rename f) := by
  rw [hw'.source?_eq, hw.source?_eq, h.slots ha, List.getElem?_map]
  cases (nl.slots a)[0]? <;> rfl

theorem reads (h : nl.Embeds nl' part f) (ha : part a) {b : NodeId} (hr : nl.Reads a b) :
    nl'.Reads (f a) (f b) := by
  obtain ⟨link, hl, rfl⟩ := hr
  refine ⟨link.rename f, ?_, rfl⟩
  rw [h.slots ha]
  exact List.mem_map.2 ⟨some link, hl, rfl⟩

theorem exists_of_reads (h : nl.Embeds nl' part f) (ha : part a) {b' : NodeId}
    (hr : nl'.Reads (f a) b') : ∃ b, part b ∧ nl.Reads a b ∧ f b = b' := by
  obtain ⟨link', hl, rfl⟩ := hr
  rw [h.slots ha, List.mem_map] at hl
  obtain ⟨slot, hslot, hs⟩ := hl
  obtain ⟨link, rfl, rfl⟩ := Option.map_eq_some_iff.1 hs
  exact ⟨link.node, h.part_of_link ha hslot, ⟨link, hslot, rfl⟩, rfl⟩

/-- A backward path of the netlist is there in a copy. -/
theorem transGen (h : nl.Embeds nl' part f) {b : NodeId} (ha : part a)
    (hr : TransGen nl.Reads a b) : TransGen nl'.Reads (f a) (f b) ∧ part b := by
  induction hr with
  | single hr => exact ⟨.single (h.reads ha hr), h.closed ha hr⟩
  | tail _ hr ih => exact ⟨ih.1.tail (h.reads ih.2 hr), h.closed ih.2 hr⟩

/-- A backward path from a copy is the copy of a path. -/
theorem exists_of_transGen (h : nl.Embeds nl' part f) {b' : NodeId} (ha : part a)
    (hr : TransGen nl'.Reads (f a) b') : ∃ b, part b ∧ TransGen nl.Reads a b ∧ f b = b' := by
  induction hr with
  | single hr' =>
    obtain ⟨b, hb, hr, rfl⟩ := h.exists_of_reads ha hr'
    exact ⟨b, hb, .single hr, rfl⟩
  | tail _ hr' ih =>
    obtain ⟨b, hb, hp, rfl⟩ := ih
    obtain ⟨c, hc, hr, rfl⟩ := h.exists_of_reads hb hr'
    exact ⟨c, hc, hp.tail hr, rfl⟩

/-- A copy is on a loop only if its original is. -/
theorem loop_iff (h : nl.Embeds nl' part f) (ha : part a) :
    TransGen nl'.Reads (f a) (f a) ↔ TransGen nl.Reads a a := by
  constructor
  · intro hl
    obtain ⟨b, hb, hp, he⟩ := h.exists_of_transGen ha hl
    obtain rfl := h.injective hb ha he
    exact hp
  · intro hl
    exact (h.transGen ha hl).1

/-- What lies behind the copies of nodes are the copies of what lies behind the nodes. -/
theorem behind_iff (h : nl.Embeds nl' part f) {ids : List NodeId} (hp : ∀ id ∈ ids, part id)
    {id' : NodeId} :
    nl'.Behind (ids.map f) id' ↔ ∃ id, part id ∧ nl.Behind ids id ∧ f id = id' := by
  constructor
  · intro hb
    obtain ⟨hg, o', ho', hpath'⟩ := hb
    obtain ⟨o, ho, rfl⟩ := List.mem_map.1 ho'
    obtain ⟨id, hid, hpath, rfl⟩ := h.exists_of_transGen (hp o ho) hpath'
    exact ⟨id, hid, ⟨(h.isGate hid).1 hg, o, ho, hpath⟩, rfl⟩
  · intro hcopy
    obtain ⟨id, hid, ⟨hg, o, ho, hpath⟩, rfl⟩ := hcopy
    exact ⟨(h.isGate hid).2 hg, f o, List.mem_map_of_mem ho, (h.transGen (hp o ho) hpath).1⟩

/-- No copy has a loop behind it that its original has not. -/
theorem grounded (h : nl.Embeds nl' part f) (hg : nl.Grounded a) (ha : part a) :
    nl'.Grounded (f a) := by
  induction hg with
  | intro a _ ih =>
    refine .intro _ fun b' hr' => ?_
    obtain ⟨b, hb, hr, rfl⟩ := h.exists_of_reads ha hr'
    exact ih b hr hb

end Embeds

end Netlist

end Breadboard
