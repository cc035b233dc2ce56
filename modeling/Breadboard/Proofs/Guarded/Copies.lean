import Breadboard.Proofs.Guarded.Tables
import Breadboard.Proofs.Netlist.Extraction

namespace Breadboard

open Netlist

namespace Guarded

def find {α : Type} (map : NodeMap α) (id : NodeId) : Except Fault α :=
  match map.get? id with
  | some a => .ok a
  | none => .error (.unmapped id)

/-- Copy nodes within the netlist. -/
def duplicate (nl : Netlist Gate) (ids : List NodeId) (withPins : Bool) :
    Except Fault (Except EditError Copies × Netlist Gate) :=
  match nl.copySet withPins ids with
  | .error e => .ok (.error e, nl)
  | .ok set => do
    let (copies, grown) := nl.copyNodes set nl
    let links ← (grown.linksOf set).filterMapM fun (id, slot, link) =>
      if grown.isLive link.node then do
        let copy ← find copies id
        let source := (copies.get? link.node).getD link.node
        .ok (some (copy, slot, { link with node := source }))
      else .ok none
    let (answer, wired) := grown.linkAll links
    .ok (answer.map fun _ => copies, wired)

/-- The links that have both ends among the listed nodes, as links between their copies. -/
def innerLinks (nl : Netlist Gate) (ids : List NodeId) (copies : Copies) :
    Except Fault (List (NodeId × Nat × Link)) :=
  (nl.linksOf ids).filterMapM fun (id, slot, link) =>
    match copies.get? link.node with
    | some source => do
      let copy ← find copies id
      .ok (some (copy, slot, { link with node := source }))
    | none => .ok none

/-- Copy nodes, pins included, into a netlist of their own. -/
def extract (nl : Netlist Gate) (ids : List NodeId) :
    Except Fault (Except EditError (Netlist Gate × Copies)) :=
  match nl.copySet true ids with
  | .error e => .ok (.error e)
  | .ok set => do
    let (copies, copied) := nl.copyNodes set ∅
    match copied.linkAll (← innerLinks nl set copies) with
    | (.error e, _) => .ok (.error e)
    | (.ok _, wired) => .ok (.ok (wired, copies))

theorem find_eq {α : Type} {map : NodeMap α} {id : NodeId} {a : α} (h : map.get? id = some a) :
    find map id = .ok a := by rw [find, h]

theorem filterMapM_eq_ok {α β ε : Type} {f : α → Except ε (Option β)} {g : α → Option β}
    {as : List α} (h : ∀ a ∈ as, f a = .ok (g a)) : as.filterMapM f = .ok (as.filterMap g) := by
  induction as with
  | nil => rfl
  | cons a as ih =>
    obtain ⟨ha, h⟩ := List.forall_mem_cons.1 h
    rw [List.filterMapM_cons, ha, ih h]
    cases hg : g a with
    | none =>
      rw [List.filterMap_cons_none hg]
      rfl
    | some b =>
      rw [List.filterMap_cons_some hg]
      rfl

end Guarded

namespace Netlist

variable {nl : Netlist Gate} {ids set : List NodeId} {withPins : Bool}

/-- Every node that was to be copied has a copy. -/
theorem exists_copy (h : nl.copySet withPins ids = .ok set) (target : Netlist Gate) {id : NodeId}
    (hid : id ∈ set) : ∃ copy, (nl.copyNodes set target).1.get? id = some copy := by
  rw [(copied_copySet h target).copies, if_pos hid]
  exact ⟨_, rfl⟩

theorem mem_of_mem_linksOf {place : NodeId × Nat × Link} (h : place ∈ nl.linksOf ids) :
    place.1 ∈ ids := by
  obtain ⟨id, hid, hp⟩ := List.mem_flatMap.1 h
  obtain ⟨entry, _, he⟩ := List.mem_filterMap.1 hp
  obtain ⟨link, _, rfl⟩ := Option.map_eq_some_iff.1 he
  exact hid

end Netlist

namespace Guarded

variable {nl : Netlist Gate} {ids set : List NodeId} {withPins : Bool}

theorem duplicate_eq (nl : Netlist Gate) (ids : List NodeId) (withPins : Bool) :
    duplicate nl ids withPins = .ok (nl.duplicate ids withPins) := by
  unfold duplicate Netlist.duplicate
  cases hs : nl.copySet withPins ids with
  | error e => rfl
  | ok set =>
    dsimp only
    rw [filterMapM_eq_ok, ok_bind]
    intro place hp
    obtain ⟨copy, hc⟩ := exists_copy hs nl (mem_of_mem_linksOf hp)
    split
    · rw [find_eq hc, hc, ok_bind, Option.map_some]
    · rfl

theorem innerLinks_eq (hs : nl.copySet withPins ids = .ok set) :
    innerLinks nl set (nl.copyNodes set ∅).1 = .ok (nl.innerLinks set (nl.copyNodes set ∅).1) := by
  refine filterMapM_eq_ok fun place hp => ?_
  obtain ⟨copy, hc⟩ := exists_copy hs ∅ (mem_of_mem_linksOf hp)
  obtain ⟨id, slot, link⟩ := place
  dsimp only at hc ⊢
  rw [hc, Option.bind_some]
  split
  · next source hsource => rw [find_eq hc, hsource, ok_bind, Option.map_some]
  · next hsource => rw [hsource, Option.map_none]

theorem extract_eq (nl : Netlist Gate) (ids : List NodeId) :
    extract nl ids = .ok (nl.extract ids) := by
  unfold extract Netlist.extract
  cases hs : nl.copySet true ids with
  | error e => rfl
  | ok set =>
    dsimp only
    rw [innerLinks_eq hs, ok_bind, Netlist.innerLinks]
    dsimp only
    generalize (nl.copyNodes set ∅).2.linkAll _ = linked
    obtain ⟨answer, wired⟩ := linked
    cases answer <;> rfl

end Guarded

end Breadboard
