import Breadboard.Project.Load
import Breadboard.Proofs.Project.Order
import Breadboard.Proofs.Text.NameOrder

namespace Breadboard

open Relation

/-- A definition places a gate type that has the name of another one. -/
def GateDef.Places (d d' : GateDef) : Prop := ∃ node ∈ d.nodes, node.gateType = d'.name

theorem GateDef.mem_dependencies {d : GateDef} {name : String} :
    name ∈ d.dependencies ↔ ∃ node ∈ d.nodes, node.gateType = name := by
  rw [dependencies, mem_eraseReps, List.mem_mergeSort, List.mem_map]

namespace Project

/-- A definition of the project places another one of it, or itself. -/
def Places (p : Project) (d d' : GateDef) : Prop := d ∈ p.gates ∧ d' ∈ p.gates ∧ d.Places d'

/-- No two definitions have the same name. -/
def Distinct (p : Project) : Prop := (p.gates.map (·.name)).Nodup

variable {p : Project} {registry : Registry}

theorem repeated?_eq_none_iff {earlier : List String} {ds : List GateDef} :
    repeated? earlier ds = none ↔
      (ds.map (·.name)).Nodup ∧ ∀ d ∈ ds, d.name ∉ earlier := by
  induction ds generalizing earlier with
  | nil => simp [repeated?]
  | cons d ds ih =>
    rw [repeated?]
    by_cases h : d.name ∈ earlier
    · simp [h]
    · rw [if_neg h, ih, List.map_cons, List.nodup_cons, List.forall_mem_cons]
      simp only [List.mem_cons, not_or, List.mem_map, not_exists, not_and]
      constructor
      · intro hd
        exact ⟨⟨fun d' hd' he => (hd.2 d' hd').1 he, hd.1⟩, h, fun d' hd' => (hd.2 d' hd').2⟩
      · intro hd
        exact ⟨hd.1.2, fun d' hd' => ⟨fun he => hd.1.1 d' hd' he, hd.2.2 d' hd'⟩⟩

theorem duplicate_of_repeated? {earlier : List String} {ds : List GateDef} {name : String}
    (h : repeated? earlier ds = some name) :
    name ∈ earlier ∧ name ∈ ds.map (·.name) ∨ List.Duplicate name (ds.map (·.name)) := by
  induction ds generalizing earlier with
  | nil => cases h
  | cons d ds ih =>
    rw [repeated?] at h
    split at h
    · next hd =>
      obtain rfl := Option.some.inj h
      exact .inl ⟨hd, List.mem_cons_self⟩
    · rcases ih h with ⟨hmem, hds⟩ | hdup
      · rcases List.mem_cons.1 hmem with rfl | hmem
        · exact .inr (List.Mem.duplicate_cons_self hds)
        · exact .inl ⟨hmem, List.mem_cons_of_mem _ hds⟩
      · exact .inr (hdup.duplicate_cons _)

/-- With names of their own, a definition has one position. -/
theorem Distinct.index_eq (h : p.Distinct) {i j : Fin p.gates.length}
    (hn : (p.gates.get i).name = (p.gates.get j).name) : i = j := by
  have hlt (k : Fin p.gates.length) : k < (p.gates.map (·.name)).length := by simp
  have hinjective := List.nodup_iff_injective_getElem.1 h
  have heq := @hinjective ⟨i, hlt i⟩ ⟨j, hlt j⟩ (by simpa using hn)
  exact Fin.ext (Fin.mk.inj heq)

theorem Distinct.mem_placedBy (h : p.Distinct) {i j : Fin p.gates.length} :
    j ∈ p.placedBy i ↔ (p.gates.get i).Places (p.gates.get j) := by
  have hfound {name : String} {k : Fin p.gates.length}
      (hk : (List.finRange p.gates.length).find? (fun j => (p.gates.get j).name == name) = some k) :
      (p.gates.get k).name = name := by
    have hname := List.find?_some hk
    rwa [beq_iff_eq] at hname
  have hfind {name : String} {k : Fin p.gates.length} :
      (List.finRange p.gates.length).find? (fun j => (p.gates.get j).name == name) = some k ↔
        (p.gates.get k).name = name := by
    refine ⟨hfound, fun hk => ?_⟩
    have hsome : ((List.finRange p.gates.length).find?
        fun j => (p.gates.get j).name == name).isSome := by
      rw [List.find?_isSome]
      exact ⟨k, List.mem_finRange k, beq_iff_eq.2 hk⟩
    obtain ⟨k', hk'⟩ := Option.isSome_iff_exists.1 hsome
    rw [hk', h.index_eq ((hfound hk').trans hk.symm)]
  have hplaced : p.placedBy i = (p.gates.get i).dependencies.filterMap fun name =>
      (List.finRange p.gates.length).find? fun j => (p.gates.get j).name == name := rfl
  simp only [hplaced, List.mem_filterMap, hfind, GateDef.mem_dependencies, GateDef.Places]
  exact ⟨fun ⟨name, hd, he⟩ => he ▸ hd, fun hd => ⟨_, hd, rfl⟩⟩

theorem mem_placing {i j : Fin p.gates.length} : j ∈ p.placing i ↔ i ∈ p.placedBy j := by
  simp [placing]

/-- Paths between definitions are paths between their positions. -/
theorem Distinct.exists_leads (h : p.Distinct) {d d' : GateDef} (hp : TransGen p.Places d d') :
    ∃ i j, p.gates.get i = d ∧ p.gates.get j = d' ∧ Order.Leads p.placing j i := by
  have hedge {d d' : GateDef} (he : p.Places d d') :
      ∃ i j, p.gates.get i = d ∧ p.gates.get j = d' ∧ i ∈ p.placing j := by
    obtain ⟨hd, hd', he⟩ := he
    obtain ⟨i, hi, rfl⟩ := List.getElem_of_mem hd
    obtain ⟨j, hj, rfl⟩ := List.getElem_of_mem hd'
    exact ⟨⟨i, hi⟩, ⟨j, hj⟩, rfl, rfl, mem_placing.2 (h.mem_placedBy.2 he)⟩
  induction hp with
  | single he =>
    obtain ⟨i, j, hi, hj, hm⟩ := hedge he
    exact ⟨i, j, hi, hj, .single hm⟩
  | tail _ he ih =>
    obtain ⟨i, j, hi, hj, hl⟩ := ih
    obtain ⟨j', k, hj', hk, hm⟩ := hedge he
    obtain rfl := h.index_eq (congrArg GateDef.name (hj.trans hj'.symm))
    exact ⟨i, k, hi, hk, .head hm hl⟩

theorem Distinct.transGen_of_leads (h : p.Distinct) {i j : Fin p.gates.length}
    (hl : Order.Leads p.placing j i) : TransGen p.Places (p.gates.get i) (p.gates.get j) := by
  have hedge {i j : Fin p.gates.length} (hm : i ∈ p.placing j) :
      p.Places (p.gates.get i) (p.gates.get j) :=
    ⟨List.get_mem .., List.get_mem .., h.mem_placedBy.1 (mem_placing.1 hm)⟩
  induction hl with
  | single hm => exact .single (hedge hm)
  | tail _ hm ih => exact .head (hedge hm) ih

/-- In an order that goes forward no node leads to itself. -/
theorem not_leads_of_forward {n : Nat} {successors predecessors : Fin n → List (Fin n)}
    (he : ∀ i j, j ∈ successors i ↔ i ∈ predecessors j) {order : List (Fin n)}
    (hall : ∀ i, i ∈ order)
    (ho : ∀ before i after, order = before ++ i :: after → ∀ j ∈ predecessors i, j ∈ before)
    (i : Fin n) : ¬ Order.Leads successors i i := by
  have hstep {i j : Fin n} (hm : j ∈ successors i) : order.idxOf i < order.idxOf j := by
    obtain ⟨before, after, hsplit, hnot⟩ := List.eq_append_cons_of_mem (hall j)
    have hi := ho before j after hsplit i ((he i j).1 hm)
    rw [hsplit, List.idxOf_append_of_mem hi, List.idxOf_append_of_notMem hnot,
      List.idxOf_cons_self, Nat.add_zero]
    exact List.idxOf_lt_length_of_mem hi
  have hpath {j : Fin n} (hl : Order.Leads successors i j) : order.idxOf i < order.idxOf j := by
    induction hl with
    | single hm => exact hstep hm
    | tail _ hm ih => exact Nat.lt_trans ih (hstep hm)
  exact fun hl => Nat.lt_irrefl _ (hpath hl)

/-- Definitions with names of their own are put in an order in which each one comes after those it
places, or one of them is on a cycle. -/
theorem Distinct.loadOrder_exact (h : p.Distinct) :
    (∃ d ∈ p.gates, p.loadOrder = .error (.recursive d.name) ∧ TransGen p.Places d d) ∨
      ∃ ds, p.loadOrder = .ok ds ∧ ds.Perm p.gates ∧
        (∀ before d after, ds = before ++ d :: after → ∀ d', p.Places d d' → d' ∈ before) ∧
        ∀ d, ¬ TransGen p.Places d d := by
  have hnone : repeated? [] p.gates = none := repeated?_eq_none_iff.2 ⟨h, fun _ _ => nofun⟩
  have hedges : ∀ i j, j ∈ p.placing i ↔ i ∈ p.placedBy j := fun i j => mem_placing
  have hforward := Order.forward_exact hedges
  rw [p.loadOrder_eq hnone]
  cases hf : Order.forward p.placing p.placedBy with
  | error i =>
    rw [hf] at hforward
    exact .inl ⟨p.gates[i], List.getElem_mem _, rfl, h.transGen_of_leads hforward⟩
  | ok order =>
    rw [hf] at hforward
    obtain ⟨hperm, hbefore⟩ := hforward
    refine .inr ⟨_, rfl, ?_, ?_, ?_⟩
    · have hall : (List.finRange p.gates.length).map (fun i => p.gates[i]) = p.gates :=
        List.map_getElem_finRange p.gates
      exact (hperm.map _).trans (.of_eq hall)
    · intro before d after hsplit d' hp
      obtain ⟨before', rest, rfl, rfl, hrest⟩ := List.map_eq_append_iff.1 hsplit
      obtain ⟨i, after', rfl, rfl, rfl⟩ := List.map_eq_cons_iff.1 hrest
      obtain ⟨_, hd', hplaces⟩ := hp
      obtain ⟨j, hj, rfl⟩ := List.getElem_of_mem hd'
      have hmem := hbefore before' i after' rfl ⟨j, hj⟩ (h.mem_placedBy.2 hplaces)
      exact List.mem_map.2 ⟨⟨j, hj⟩, hmem, rfl⟩
    · intro d hd
      obtain ⟨i, j, hi, hj, hl⟩ := h.exists_leads hd
      obtain rfl := h.index_eq (congrArg GateDef.name (hi.trans hj.symm))
      exact not_leads_of_forward hedges (fun i => hperm.mem_iff.2 (List.mem_finRange i))
        hbefore i hl

theorem load_of_loadOrder_error {cause : LoadError} (h : p.loadOrder = .error cause)
    (registry : Registry) :
    p.load registry = ⟨(.error cause, registry), []⟩ := by rw [load, h]

theorem load_of_loadOrder_ok {ds : List GateDef} (h : p.loadOrder = .ok ds)
    (registry : Registry) :
    p.load registry = loadAll ds registry := by rw [load, h]

theorem loadOrder_of_not_distinct (h : ¬ p.Distinct) :
    ∃ name, p.loadOrder = .error (.definedTwice name) ∧
      List.Duplicate name (p.gates.map (·.name)) := by
  cases hr : repeated? [] p.gates with
  | none => exact absurd (repeated?_eq_none_iff.1 hr).1 h
  | some name =>
    refine ⟨name, by rw [loadOrder, hr], ?_⟩
    exact (duplicate_of_repeated? hr).resolve_left fun hm => List.not_mem_nil hm.1

end Project

end Breadboard
