import Breadboard.Proofs.Netlist.Embedding
import Breadboard.Proofs.Netlist.Wiring
import Mathlib.Data.List.Induction
import Mathlib.Data.List.Nodup

namespace Breadboard.Netlist

variable {nl base target : Netlist Gate} {ids set : List NodeId} {copies : Copies} {id : NodeId}
  {withPins : Bool}

section CopySet

theorem eraseDups_filter (p : NodeId → Bool) (ids : List NodeId) :
    (ids.filter p).eraseDups = ids.eraseDups.filter p := by
  match ids with
  | [] => rfl
  | id :: ids =>
    have hrest := eraseDups_filter p (ids.filter fun a => !a == id)
    rw [List.eraseDups_cons, List.filter_cons, List.filter_cons, ← hrest]
    cases hp : p id with
    | true => rw [if_pos rfl, if_pos rfl, List.eraseDups_cons, List.filter_comm]
    | false =>
      have hkeep : (ids.filter fun a => !a == id).filter p = ids.filter p := by
        rw [List.filter_filter]
        apply List.filter_congr
        intro a _
        by_cases he : a = id <;> simp [he, hp]
      rw [if_neg Bool.false_ne_true, if_neg Bool.false_ne_true, hkeep]
termination_by ids.length
decreasing_by exact Nat.lt_succ_of_le (List.length_filter_le ..)

/-- The first element, and then the others without it. -/
theorem eraseDups_cons (id : NodeId) (ids : List NodeId) :
    (id :: ids).eraseDups = id :: ids.eraseDups.filter (· != id) := by
  rw [List.eraseDups_cons, ← eraseDups_filter]
  rfl

theorem nodup_eraseDups (ids : List NodeId) : ids.eraseDups.Nodup := by
  induction ids with
  | nil => exact List.nodup_nil
  | cons id ids ih =>
    rw [eraseDups_cons, List.nodup_cons]
    exact ⟨by simp, ih.filter _⟩

/-- A listed node that is to be copied: a gate, or any node `withPins`. -/
def copied? (nl : Netlist Gate) (withPins : Bool) (id : NodeId) : Bool :=
  withPins || (nl.gate? id).isSome

theorem copied?_of_node? {node : Node Gate} (h : nl.node? id = some node) (withPins : Bool) :
    nl.copied? withPins id = (withPins || !node.isPin) := by
  simp [copied?, gate?, kind?, h, Node.isPin]

/-- The nodes to be copied are there when all listed nodes are live, in the order in which they
first appear. -/
theorem copySet_eq_ok_iff : nl.copySet withPins ids = .ok set ↔
    (∀ id ∈ ids, nl.isLive id = true) ∧ set = (ids.filter (nl.copied? withPins)).eraseDups := by
  induction ids generalizing set with
  | nil =>
    rw [copySet, Except.ok.injEq]
    exact ⟨fun h => ⟨List.forall_mem_nil _, h.symm⟩, fun h => h.2.symm⟩
  | cons id ids ih =>
    rw [copySet, List.forall_mem_cons]
    cases hn : nl.node? id with
    | none => simp [isLive, hn]
    | some node =>
      have hlive : nl.isLive id = true := isLive_iff.2 ⟨node, hn⟩
      cases hs : nl.copySet withPins ids with
      | error cause =>
        constructor
        · intro h
          cases h
        · intro h
          rw [ih.2 ⟨h.1.2, rfl⟩] at hs
          cases hs
      | ok rest =>
        obtain ⟨hrest, rfl⟩ := ih.1 hs
        have hset : (if withPins || !node.isPin then
            id :: (ids.filter (nl.copied? withPins)).eraseDups.filter (· != id)
            else (ids.filter (nl.copied? withPins)).eraseDups) =
              ((id :: ids).filter (nl.copied? withPins)).eraseDups := by
          rw [List.filter_cons, copied?_of_node? hn]
          split
          · rw [eraseDups_cons]
          · rfl
        change Except.ok (if withPins || !node.isPin then _ else _) = Except.ok set ↔ _
        rw [hset, Except.ok.injEq]
        exact ⟨fun h => ⟨⟨hlive, hrest⟩, h.symm⟩, fun h => h.2.symm⟩

theorem exists_copySet_iff :
    (∃ set, nl.copySet withPins ids = .ok set) ↔ ∀ id ∈ ids, nl.isLive id = true := by
  simp only [copySet_eq_ok_iff, exists_and_left, exists_eq, and_true]

theorem nodup_copySet (h : nl.copySet withPins ids = .ok set) : set.Nodup := by
  obtain ⟨_, rfl⟩ := copySet_eq_ok_iff.1 h
  exact nodup_eraseDups _

theorem mem_copySet (h : nl.copySet withPins ids = .ok set) :
    id ∈ set ↔ id ∈ ids ∧ nl.copied? withPins id = true := by
  obtain ⟨_, rfl⟩ := copySet_eq_ok_iff.1 h
  rw [List.mem_eraseDups, List.mem_filter]

theorem isLive_of_copySet (h : nl.copySet withPins ids = .ok set) :
    ∀ id ∈ set, nl.isLive id = true := by
  intro id hid
  exact (copySet_eq_ok_iff.1 h).1 id ((mem_copySet h).1 hid).1

theorem eraseDups_eq_self (hn : ids.Nodup) : ids.eraseDups = ids := by
  induction ids with
  | nil => rfl
  | cons id ids ih =>
    obtain ⟨hid, hn⟩ := List.nodup_cons.1 hn
    rw [eraseDups_cons, ih hn, List.filter_eq_self.2]
    intro a ha
    exact bne_iff_ne.2 fun he => hid (he ▸ ha)

/-- Distinct live nodes are all copied, pins included, in their order. -/
theorem copySet_eq_self (hn : ids.Nodup) (hl : ∀ id ∈ ids, nl.isLive id = true) :
    nl.copySet true ids = .ok ids := by
  refine copySet_eq_ok_iff.2 ⟨hl, ?_⟩
  have hall : ids.filter (nl.copied? true) = ids := List.filter_eq_self.2 fun _ _ => rfl
  rw [hall, eraseDups_eq_self hn]

end CopySet

/-- The handle that the copy of a listed node gets behind the nodes of `base`. -/
def copyPlace (base : Netlist Gate) (ids : List NodeId) (id : NodeId) : NodeId :=
  base.next + ids.idxOf id

theorem copyPlace_empty (ids : List NodeId) : copyPlace ∅ ids = ids.idxOf :=
  funext fun _ => Nat.zero_add _

theorem next_le_copyPlace (base : Netlist Gate) (ids : List NodeId) (id : NodeId) :
    base.next ≤ copyPlace base ids id := Nat.le_add_right ..

theorem eq_of_idxOf_eq {a b : NodeId} (ha : a ∈ ids) (hb : b ∈ ids)
    (h : ids.idxOf a = ids.idxOf b) : a = b := by
  have hga := List.getElem?_idxOf ha
  rw [h, List.getElem?_idxOf hb] at hga
  exact (Option.some.inj hga).symm

theorem eq_of_copyPlace_eq {a b : NodeId} (ha : a ∈ ids) (hb : b ∈ ids)
    (h : copyPlace base ids a = copyPlace base ids b) : a = b :=
  eq_of_idxOf_eq ha hb (Nat.add_left_cancel h)

theorem copyPlace_append_of_mem {a : NodeId} (ha : a ∈ ids) :
    copyPlace base (ids ++ [id]) a = copyPlace base ids a :=
  congrArg (base.next + ·) (List.idxOf_append_of_mem ha)

theorem copyPlace_append_self (hid : id ∉ ids) :
    copyPlace base (ids ++ [id]) id = base.next + ids.length := by
  rw [copyPlace, List.idxOf_append_of_notMem hid, List.idxOf_cons_self, Nat.add_zero]

/-- Unlinked copies of the listed nodes, and nothing else, stand behind the nodes of `base`. -/
structure Copied (nl base : Netlist Gate) (ids : List NodeId) (copies : Copies)
    (target : Netlist Gate) : Prop where
  entries : copies.entries = ids.reverse.map fun id => (id, copyPlace base ids id)
  copies : ∀ id, copies.get? id = if id ∈ ids then some (copyPlace base ids id) else none
  next : target.next = base.next + ids.length
  kept : ∀ id < base.next, target.node? id = base.node? id
  copy : ∀ id ∈ ids, ∃ node index, nl.node? id = some node ∧
    target.node? (copyPlace base ids id) =
      some { node.unlinked with kind := node.kind.withIndex index }
  inputs : target.inputs = base.inputs ++
    (ids.filter fun id => (nl.inputPin? id).isSome).map (copyPlace base ids)
  outputs : target.outputs = base.outputs ++
    (ids.filter fun id => (nl.outputPin? id).isSome).map (copyPlace base ids)

theorem Copied.get?_eq_some (h : nl.Copied base ids copies target) {copy : NodeId} :
    copies.get? id = some copy ↔ id ∈ ids ∧ copyPlace base ids id = copy := by
  rw [h.copies, Option.ite_none_right_eq_some, Option.some.injEq]

theorem map_copyPlace_append (p : NodeId → Bool) (hid : id ∉ ids) :
    ((ids ++ [id]).filter p).map (copyPlace base (ids ++ [id])) =
      (ids.filter p).map (copyPlace base ids) ++
        if p id then [base.next + ids.length] else [] := by
  rw [List.filter_append, List.map_append]
  congr 1
  · apply List.map_congr_left
    intro a ha
    exact copyPlace_append_of_mem (List.mem_of_mem_filter ha)
  · cases hp : p id
    · simp [hp]
    · simp [hp, copyPlace_append_self hid]

/-- One more node is copied to the next handle. -/
theorem Copied.snoc (h : nl.Copied base ids copies target) (hid : id ∉ ids) {node : Node Gate}
    (hnode : nl.node? id = some node) :
    nl.Copied base (ids ++ [id]) (copies.insert id target.next)
      (target.insert node.unlinked).2 := by
  have hplace : copyPlace base (ids ++ [id]) id = target.next := by
    rw [copyPlace_append_self hid, h.next]
  constructor
  case copies =>
    intro a
    rw [NodeMap.get?_insert, h.copies]
    by_cases he : id = a
    · rw [if_pos he, ← he, if_pos (by simp), hplace]
    · by_cases ha : a ∈ ids
      · rw [if_neg he, if_pos ha, if_pos (List.mem_append_left _ ha), copyPlace_append_of_mem ha]
      · rw [if_neg he, if_neg ha, if_neg (by simp [ha, Ne.symm he])]
  case entries =>
    have hkeep : copies.entries.filter (·.1 != id) = copies.entries := by
      apply List.filter_eq_self.2
      intro entry hm
      rw [h.entries] at hm
      obtain ⟨a, ha, rfl⟩ := List.mem_map.1 hm
      exact bne_iff_ne.2 fun he => hid (he ▸ List.mem_reverse.1 ha)
    rw [NodeMap.entries_insert, hkeep, h.entries, List.reverse_append, List.reverse_singleton,
      List.singleton_append, List.map_cons, hplace]
    congr 1
    apply List.map_congr_left
    intro a ha
    rw [copyPlace_append_of_mem (List.mem_reverse.1 ha)]
  case next =>
    rw [next_insert, h.next, List.length_append, List.length_singleton, Nat.add_assoc]
  case kept =>
    intro a ha
    have hlt : a < target.next := h.next ▸ Nat.lt_of_lt_of_le ha (Nat.le_add_right ..)
    rw [node?_insert, if_neg (Nat.ne_of_lt hlt), h.kept a ha]
  case copy =>
    intro a ha
    rcases List.mem_append.1 ha with ha | ha
    · obtain ⟨node', index, hnode', hcopy⟩ := h.copy a ha
      refine ⟨node', index, hnode', ?_⟩
      rw [copyPlace_append_of_mem ha, node?_insert, if_neg (Nat.ne_of_lt (lt_next_of_node? hcopy)),
        hcopy]
    · obtain rfl := List.mem_singleton.1 ha
      refine ⟨node, target.nextIndex node.kind, hnode, ?_⟩
      rw [hplace, node?_insert, if_pos rfl]
      rfl
  case inputs =>
    have hp : node.unlinked.kind.inputPin?.isSome = (nl.inputPin? id).isSome := by
      simp [inputPin?, kind?, hnode, Node.unlinked]
    rw [inputs_insert, map_copyPlace_append _ hid, h.inputs, hp, h.next]
    split <;> simp
  case outputs =>
    have hp : node.unlinked.kind.outputPin?.isSome = (nl.outputPin? id).isSome := by
      simp [outputPin?, kind?, hnode, Node.unlinked]
    rw [outputs_insert, map_copyPlace_append _ hid, h.outputs, hp, h.next]
    split <;> simp

theorem copied_copyNodes (base : Netlist Gate) (hn : ids.Nodup)
    (hl : ∀ id ∈ ids, nl.isLive id = true) :
    nl.Copied base ids (nl.copyNodes ids base).1 (nl.copyNodes ids base).2 := by
  induction ids using List.reverseRecOn with
  | nil =>
    exact ⟨rfl, fun _ => rfl, rfl, fun _ _ => rfl, nofun, (List.append_nil _).symm,
      (List.append_nil _).symm⟩
  | append_singleton ids id ih =>
    obtain ⟨node, hnode⟩ := isLive_iff.1 (hl id (by simp))
    have hid : id ∉ ids := fun h => List.disjoint_of_nodup_append hn h (List.mem_singleton_self id)
    have hstep : nl.copyNodes (ids ++ [id]) base =
        ((nl.copyNodes ids base).1.insert id (nl.copyNodes ids base).2.next,
          ((nl.copyNodes ids base).2.insert node.unlinked).2) := by
      simp only [copyNodes, List.foldl_append, List.foldl_cons, List.foldl_nil, hnode, insert_fst]
    rw [hstep]
    exact (ih hn.of_append_left fun a ha => hl a (List.mem_append_left _ ha)).snoc hid hnode

theorem copied_copySet (hs : nl.copySet withPins ids = .ok set) (base : Netlist Gate) :
    nl.Copied base set (nl.copyNodes set base).1 (nl.copyNodes set base).2 :=
  copied_copyNodes base (nodup_copySet hs) (isLive_of_copySet hs)

theorem node?_of_kind? {kind : NodeKind Gate} (h : nl.kind? id = some kind) :
    nl.node? id = some ⟨kind, nl.slots id⟩ := by
  obtain ⟨node, hn, rfl⟩ := Option.map_eq_some_iff.1 h
  simp [slots, hn]

/-- The copies of the nodes of a list, of which only some are copied. -/
theorem filterMap_copies {place : NodeId → NodeId} {p : NodeId → Bool}
    (h : ∀ id ∈ ids, copies.get? id = if p id then some (place id) else none) :
    ids.filterMap copies.get? = (ids.filter p).map place := by
  induction ids with
  | nil => rfl
  | cons id ids ih =>
    obtain ⟨hid, h⟩ := List.forall_mem_cons.1 h
    rw [List.filter_cons]
    cases hp : p id with
    | true =>
      rw [hp, if_pos rfl] at hid
      rw [List.filterMap_cons_some hid, ih h, if_pos rfl, List.map_cons]
    | false =>
      rw [hp, if_neg Bool.false_ne_true] at hid
      rw [List.filterMap_cons_none hid, ih h, if_neg Bool.false_ne_true]

theorem mem_linksOf {slot : Nat} {link : Link} :
    (id, slot, link) ∈ nl.linksOf ids ↔ id ∈ ids ∧ (nl.slots id)[slot]? = some (some link) := by
  simp only [linksOf, List.mem_flatMap, List.mem_filterMap, Option.map_eq_some_iff, Prod.mk.injEq,
    Prod.exists, List.mem_zipIdx_iff_getElem?]
  constructor
  · intro hm
    obtain ⟨a, ha, s, k, hs, l, rfl, rfl, rfl, rfl⟩ := hm
    exact ⟨ha, hs⟩
  · intro hm
    obtain ⟨ha, hs⟩ := hm
    exact ⟨id, ha, some link, slot, hs, link, rfl, rfl, rfl, rfl⟩

/-- The links of the listed nodes that satisfy `p`, each from its source under another name to the
copy of its node. -/
def CopiedLinks (nl base : Netlist Gate) (ids : List NodeId) (p : Link → Bool)
    (f : NodeId → NodeId) (links : List (NodeId × Nat × Link)) : Prop :=
  ∀ dest slot link, (dest, slot, link) ∈ links ↔ ∃ id ∈ ids, ∃ l,
    (nl.slots id)[slot]? = some (some l) ∧ p l = true ∧ dest = copyPlace base ids id ∧
      link = l.rename f

namespace Copied

theorem role (h : nl.Copied base ids copies target) (hid : id ∈ ids) :
    target.role? (copyPlace base ids id) = nl.role? id := by
  obtain ⟨node, index, hnode, hcopy⟩ := h.copy id hid
  simp [role?_eq_map, hnode, hcopy]

theorem slots (h : nl.Copied base ids copies target) (hid : id ∈ ids) :
    target.slots (copyPlace base ids id) = (nl.slots id).map fun _ => none := by
  obtain ⟨node, index, hnode, hcopy⟩ := h.copy id hid
  simp [Netlist.slots, hnode, hcopy, Node.unlinked]

theorem role?_of_lt (h : nl.Copied base ids copies target) (hid : id < base.next) :
    target.role? id = base.role? id := by
  rw [role?_eq_map, role?_eq_map, h.kept id hid]

theorem slots_of_lt (h : nl.Copied base ids copies target) (hid : id < base.next) :
    target.slots id = base.slots id := by
  rw [Netlist.slots, Netlist.slots, h.kept id hid]

/-- The handles behind those of `base` are those of the copies. -/
theorem exists_original (h : nl.Copied base ids copies target) (hn : ids.Nodup)
    (hle : base.next ≤ id) (hlt : id < target.next) :
    ∃ original ∈ ids, copyPlace base ids original = id := by
  rw [h.next] at hlt
  have hplace : id - base.next < ids.length := Nat.sub_lt_left_of_lt_add hle hlt
  refine ⟨ids[id - base.next], List.getElem_mem hplace, ?_⟩
  rw [copyPlace, hn.idxOf_getElem]
  exact Nat.add_sub_cancel' hle

theorem places_eq (h : nl.Copied base ids copies target) :
    copies.entries.map (·.2) = ids.reverse.map (copyPlace base ids) := by
  rw [h.entries, List.map_map]
  rfl

theorem length_slots (h : nl.Copied base ids copies target) (hid : id ∈ ids) :
    (target.slots (copyPlace base ids id)).length = (nl.slots id).length := by
  rw [h.slots hid, List.length_map]

variable {p : Link → Bool} {f : NodeId → NodeId} {links : List (NodeId × Nat × Link)}

/-- Links fit when the sources have the same outputs under their other names. -/
theorem linkable (h : nl.Copied base ids copies target) (hw : nl.WellFormed)
    (hl : nl.CopiedLinks base ids p f links)
    (hf : ∀ id ∈ ids, ∀ link, some link ∈ nl.slots id → p link = true →
      target.role? (f link.node) = nl.role? link.node) :
    ∀ place ∈ links, target.Linkable place := by
  intro place hm
  obtain ⟨dest, slot, link⟩ := place
  obtain ⟨id, hid, l, hs, hp, rfl, rfl⟩ := (hl _ _ _).1 hm
  have hmem := List.mem_of_getElem? hs
  obtain ⟨r, hr, ho⟩ := hw.links hmem
  refine ⟨⟨r, (hf id hid l hmem hp).trans hr, ho⟩, ?_⟩
  rw [h.length_slots hid]
  exact (List.getElem?_eq_some_iff.1 hs).1

/-- The slots of a copy hold the links that were made, and are empty otherwise. -/
theorem slots_wired (h : nl.Copied base ids copies target)
    (hl : nl.CopiedLinks base ids p f links) (hid : id ∈ ids) :
    (target.setSlots links).slots (copyPlace base ids id) =
      (nl.slots id).map fun slot => (slot.filter p).map (Link.rename f) := by
  apply Netlist.slots_setSlots
  · rw [h.length_slots hid, List.length_map]
  · intro slot hs
    rw [h.slots hid] at hs
    obtain ⟨_, _, rfl⟩ := List.mem_map.1 hs
    rfl
  · intro slot link
    rw [hl]
    simp only [List.getElem?_map, Option.map_eq_some_iff, Option.filter_eq_some_iff]
    constructor
    · intro hm
      obtain ⟨id', hid', l, hs, hp, hplace, rfl⟩ := hm
      obtain rfl := eq_of_copyPlace_eq hid hid' hplace
      exact ⟨some l, hs, l, ⟨rfl, hp⟩, rfl⟩
    · intro hm
      obtain ⟨_, hs, l, ⟨rfl, hp⟩, rfl⟩ := hm
      exact ⟨id, hid, l, hs, hp, rfl, rfl⟩

theorem node?_wired (h : nl.Copied base ids copies target)
    (hl : nl.CopiedLinks base ids p f links) (hid : id ∈ ids) :
    ∃ node index, nl.node? id = some node ∧
      (target.setSlots links).node? (copyPlace base ids id) = some
        { kind := node.kind.withIndex index
          slots := node.slots.map fun slot => (slot.filter p).map (Link.rename f) } := by
  obtain ⟨node, index, hnode, hcopy⟩ := h.copy id hid
  have hkind : (target.setSlots links).kind? (copyPlace base ids id) =
      some (node.kind.withIndex index) := by
    rw [kind?_setSlots, kind?, hcopy]
    rfl
  have hslots : nl.slots id = node.slots := by
    rw [Netlist.slots, hnode]
    rfl
  refine ⟨node, index, hnode, ?_⟩
  rw [node?_of_kind? hkind, h.slots_wired hl hid, hslots]

/-- Copied pins are in the order in which they first appear among the listed nodes. -/
theorem map_copyPlace (h : nl.Copied base set copies target)
    (hs : nl.copySet withPins ids = .ok set) (p : NodeId → Bool) :
    (set.filter p).map (copyPlace base set) = (ids.eraseDups.filter p).filterMap copies.get? := by
  have hcopies : ∀ id ∈ ids.eraseDups.filter p, copies.get? id =
      if nl.copied? withPins id then some (copyPlace base set id) else none := by
    intro id hid
    have hmem : id ∈ ids := List.mem_eraseDups.1 (List.mem_of_mem_filter hid)
    simp only [h.copies, mem_copySet hs, hmem, true_and]
  obtain ⟨_, hset⟩ := copySet_eq_ok_iff.1 hs
  rw [filterMap_copies hcopies, List.filter_comm, ← eraseDups_filter, ← hset]

theorem eq_of_get? (h : nl.Copied base ids copies target) {a b copy : NodeId}
    (ha : copies.get? a = some copy) (hb : copies.get? b = some copy) : a = b := by
  obtain ⟨ha, hcopy⟩ := h.get?_eq_some.1 ha
  obtain ⟨hb, hcopy'⟩ := h.get?_eq_some.1 hb
  exact eq_of_copyPlace_eq ha hb (hcopy.trans hcopy'.symm)

end Copied

end Breadboard.Netlist
