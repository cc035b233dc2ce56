import Breadboard.Compilation.Island
import Breadboard.Proofs.Netlist.WellFormed
import Mathlib.Logic.Relation

namespace Breadboard.Netlist

open Relation

/-- A slot of `id` holds a link to an output of `source`. -/
def Reads (nl : Netlist Gate) (id source : NodeId) : Prop :=
  ∃ link, some link ∈ nl.slots id ∧ link.node = source

/-- The gates that are reachable backward from the listed nodes. -/
def Behind (nl : Netlist Gate) (ids : List NodeId) (id : NodeId) : Prop :=
  nl.IsGate id ∧ ∃ o ∈ ids, TransGen nl.Reads o id

/-- No backward path from the node goes on for ever. -/
def Grounded (nl : Netlist Gate) (id : NodeId) : Prop :=
  Acc (fun source id => nl.Reads id source) id

variable {nl : Netlist Gate} {a b : NodeId}

theorem reads_of_getElem? {k : Nat} {link : Link} (h : (nl.slots a)[k]? = some (some link)) :
    nl.Reads a link.node := ⟨link, List.mem_of_getElem? h, rfl⟩

theorem WellFormed.reads_of_source? (h : nl.WellFormed) {k : Nat} {link : Link}
    (hl : nl.source? a k = some link) : nl.Reads a link.node := by
  rw [h.source?_eq, Option.join_eq_some_iff] at hl
  exact reads_of_getElem? hl

theorem WellFormed.role?_of_reads (h : nl.WellFormed) (hr : nl.Reads a b) :
    nl.IsGate b ∨ nl.role? b = some .input := by
  obtain ⟨link, hl, rfl⟩ := hr
  rcases h.source_cases hl with ⟨g, hg, _⟩ | ⟨hi, _⟩
  · exact .inl ⟨g, hg⟩
  · exact .inr hi

theorem lt_next_of_reads (hr : nl.Reads a b) : a < nl.next := by
  obtain ⟨link, hl, _⟩ := hr
  cases hrole : nl.role? a with
  | none => simp [slots_eq_nil_of_role? hrole] at hl
  | some r => exact lt_next_of_role? hrole

theorem WellFormed.not_reads_of_input (h : nl.WellFormed) (hr : nl.role? a = some .input) :
    ¬ nl.Reads a b := by
  intro hr'
  obtain ⟨link, hl, _⟩ := hr'
  simp [h.slots_of_input hr] at hl

/-- Nodes other than the last of a backward path that starts at a gate are gates. -/
theorem WellFormed.gate_of_reads_reads (h : nl.WellFormed) {c : NodeId} (hab : nl.Reads a b)
    (hbc : nl.Reads b c) : nl.IsGate b :=
  (h.role?_of_reads hab).resolve_right fun hi => h.not_reads_of_input hi hbc

theorem behind_of_reads (hb : nl.Behind [a] b ∨ a = b) {c : NodeId} (hc : nl.IsGate c)
    (hr : nl.Reads b c) : nl.Behind [a] c := by
  refine ⟨hc, a, List.mem_singleton_self a, ?_⟩
  rcases hb with ⟨_, o, ho, hp⟩ | rfl
  · obtain rfl := List.mem_singleton.1 ho
    exact hp.tail hr
  · exact .single hr

theorem Grounded.not_loop (h : nl.Grounded a) : ¬ TransGen nl.Reads a a := by
  induction h with
  | intro a _ ih =>
    intro hl
    obtain ⟨b, hab, hba⟩ := TransGen.head'_iff.1 hl
    exact ih b hab (TransGen.tail' hba hab)

theorem Grounded.acyclic (h : nl.Grounded a) (hp : ReflTransGen nl.Reads a b) :
    ¬ TransGen nl.Reads b b := by
  have hb : nl.Grounded b := by
    induction hp with
    | refl => exact h
    | tail _ hr ih => exact ih.inv hr
  exact hb.not_loop

/-- Only finitely many nodes read anything, so a node without a loop behind it is grounded. -/
theorem grounded_of_acyclic (h : ∀ b, ReflTransGen nl.Reads a b → ¬ TransGen nl.Reads b b) :
    nl.Grounded a := by
  -- `seen` holds the nodes that the path came through; none of them can occur again
  suffices hmain : ∀ n seen a, unseen (List.range nl.next) seen = n →
      (∀ c ∈ seen, TransGen nl.Reads c a) →
      (∀ b, ReflTransGen nl.Reads a b → ¬ TransGen nl.Reads b b) → nl.Grounded a from
    hmain _ [] a rfl (by simp) h
  intro n
  induction n using Nat.strongRecOn with
  | ind n ih =>
    intro seen a hn hseen hacyclic
    refine .intro a fun b hab => ?_
    have ha : a ∉ seen := fun hm => hacyclic a .refl (hseen a hm)
    have hlt := hn ▸ unseen_cons_lt (List.mem_range.2 (lt_next_of_reads hab)) ha
    refine ih _ hlt (a :: seen) b rfl (fun c hc => ?_) fun c hbc => hacyclic c (.head hab hbc)
    rcases List.mem_cons.1 hc with rfl | hc
    · exact .single hab
    · exact (hseen c hc).tail hab

end Breadboard.Netlist
