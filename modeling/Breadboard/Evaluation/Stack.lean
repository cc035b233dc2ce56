import Breadboard.NodeSet

namespace Breadboard

/-- The nodes on a walk, the latest first, and the set of them, so that membership needs no
search. -/
structure WalkStack where
  nodes : List NodeId := []
  members : NodeSet := ∅
  deriving DecidableEq, Repr

namespace WalkStack

instance : EmptyCollection WalkStack := ⟨{}⟩
instance : Inhabited WalkStack := ⟨∅⟩

def contains (s : WalkStack) (id : NodeId) : Bool := s.members.contains id

def size (s : WalkStack) : Nat := s.nodes.length

/-- Push a node; a node that is on the stack already is refused. -/
def push (s : WalkStack) (id : NodeId) : Bool × WalkStack :=
  if s.contains id then (false, s)
  else (true, ⟨id :: s.nodes, s.members.set id true⟩)

/-- Take the latest node off the stack. -/
def pop (s : WalkStack) : Option NodeId × WalkStack :=
  match s.nodes with
  | [] => (none, s)
  | id :: rest => (some id, ⟨rest, s.members.set id false⟩)

/-- The nodes of the list are distinct, and the set holds exactly these. -/
def Coherent (s : WalkStack) : Prop :=
  s.nodes.Nodup ∧ ∀ id, s.contains id = true ↔ id ∈ s.nodes

theorem coherent_empty : Coherent ∅ :=
  ⟨List.nodup_nil, fun id => by
    rw [show (∅ : WalkStack).contains id = false from NodeSet.contains_empty id]
    simp [EmptyCollection.emptyCollection]⟩

theorem contains_push (s : WalkStack) (id id' : NodeId) :
    (s.push id).2.contains id' = (s.contains id' || id == id') := by
  unfold push
  split
  · next h => by_cases he : id = id' <;> simp_all
  · next h =>
    by_cases he : id = id'
    · subst he
      simp [contains, NodeSet.contains_set]
    · simp [contains, NodeSet.contains_set, he]

theorem Coherent.push {s : WalkStack} (h : s.Coherent) (id : NodeId) : (s.push id).2.Coherent := by
  refine ⟨?_, fun id' => ?_⟩
  · unfold WalkStack.push
    split
    · exact h.1
    · next hc => exact List.nodup_cons.2 ⟨fun hm => hc ((h.2 id).2 hm), h.1⟩
  · rw [contains_push]
    unfold WalkStack.push
    split
    · next hc =>
      have hm := (h.2 id).1 hc
      simp only [Bool.or_eq_true, beq_iff_eq, h.2 id']
      exact ⟨fun h' => h'.elim (fun x => x) (fun x => x ▸ hm), fun h' => .inl h'⟩
    · simp only [Bool.or_eq_true, beq_iff_eq, h.2 id', List.mem_cons]
      exact ⟨fun h' => h'.elim .inr (fun x => .inl x.symm),
        fun h' => h'.elim (fun x => .inr x.symm) .inl⟩

theorem Coherent.pop {s : WalkStack} (h : s.Coherent) : (s.pop).2.Coherent := by
  obtain ⟨nodes, members⟩ := s
  cases nodes with
  | nil => exact h
  | cons id rest =>
    have hd := List.nodup_cons.1 h.1
    refine ⟨by simpa [WalkStack.pop] using hd.2, fun id' => ?_⟩
    have hm := h.2 id'
    simp only [contains] at hm
    simp only [WalkStack.pop, contains, NodeSet.contains_set]
    by_cases he : id = id'
    · subst he
      simp [hd.1]
    · simp [he, hm, Ne.symm he]

end WalkStack

end Breadboard
