import Breadboard.Proofs.Project.LoadIndependence

namespace Breadboard

open Relation

namespace Order

variable {n : Nat} {successors predecessors : Fin n → List (Fin n)}
  {stack discovered finished discovered' finished' order : List (Fin n)} {i j : Fin n}

/-- From each node to the last one of its successors, up to a node that has none. -/
structure Descends (successors : Fin n → List (Fin n)) (i j : Fin n) : Prop where
  steps : ReflTransGen (fun i j => (successors i).getLast? = some j) i j
  ends : successors j = []

/-- What is finished stays finished: later nodes only come in front. -/
theorem search_suffix
    (h : search successors stack discovered finished = .ok (discovered', finished')) :
    finished <:+ finished' := by
  induction stack, discovered, finished using search.induct successors with
  | case1 discovered finished =>
    rw [search] at h
    obtain ⟨-, rfl⟩ := Prod.mk.inj (Except.ok.inj h)
    exact List.suffix_refl _
  | case2 i stack discovered finished hi ih =>
    rw [search, if_pos hi] at h
    rw [dite_eq_ite] at ih
    have hgrown : finished <:+ if i ∈ finished then finished else i :: finished := by
      split
      · exact List.suffix_refl _
      · exact List.suffix_cons _ _
    exact hgrown.trans (ih h)
  | case3 i stack discovered finished hi hl =>
    rw [search, if_neg hi, if_pos hl] at h
    cases h
  | case4 i stack discovered finished hi hl fresh ih =>
    rw [search, if_neg hi, if_neg hl] at h
    exact ih h

theorem searchAll_suffix {nodes : List (Fin n)}
    (h : searchAll successors nodes discovered finished = .ok order) : finished <:+ order := by
  induction nodes generalizing discovered finished with
  | nil =>
    obtain rfl := Except.ok.inj h
    exact List.suffix_refl _
  | cons i nodes ih =>
    rw [searchAll] at h
    split at h
    · exact ih h
    · split at h
      · cases h
      · next hs => exact (search_suffix hs).trans (ih h)

theorem getLast?_of_suffix (h : finished <:+ finished') (hf : finished.getLast? = some i) :
    finished'.getLast? = some i := by
  obtain ⟨front, rfl⟩ := h
  rw [List.getLast?_append, hf, Option.some_or]

/-- While nothing is finished the search goes down from the top of the stack, and the nodes
discovered by then all lead there. Without cycles it meets none of them again. -/
theorem search_first (hacyclic : ∀ i, ¬ Leads successors i i)
    (hd : ∀ i ∈ stack.head?, ∀ k ∈ discovered, Leads successors k i) (hf : finished = [])
    (h : search successors stack discovered finished = .ok (discovered', finished')) :
    ∀ i ∈ stack.head?, ∃ j, Descends successors i j ∧ finished'.getLast? = some j := by
  induction stack, discovered, finished using search.induct successors with
  | case1 discovered finished =>
    intro i hi
    cases hi
  | case2 i stack discovered finished hi _ => exact absurd (hd i rfl i hi) (hacyclic i)
  | case3 i stack discovered finished hi hl =>
    rw [search, if_neg hi, if_pos hl] at h
    cases h
  | case4 i stack discovered finished hi hl fresh ih =>
    subst hf
    rw [search, if_neg hi, if_neg hl] at h
    have hfresh : fresh = successors i := by
      refine List.filter_eq_self.2 fun j hj => decide_eq_true fun hm => ?_
      rcases List.mem_cons.1 hm with rfl | hm
      · exact hl hj
      · exact hacyclic j ((hd i rfl j hm).tail hj)
    change search successors (fresh.reverse ++ i :: stack) (i :: discovered) [] = _ at h
    rw [hfresh] at h ih
    rintro _ ⟨⟩
    rcases List.eq_nil_or_concat' (successors i) with hnone | ⟨others, j, hlast⟩
    · rw [hnone, List.reverse_nil, List.nil_append, search, if_pos List.mem_cons_self,
        if_neg List.not_mem_nil] at h
      exact ⟨i, ⟨.refl, hnone⟩, getLast?_of_suffix (search_suffix h) rfl⟩
    · have hj : j ∈ successors i := hlast ▸ List.mem_append_right _ List.mem_cons_self
      have htop : ((successors i).reverse ++ i :: stack).head? = some j := by
        rw [hlast, List.reverse_append]
        rfl
      have hnext : ∀ k ∈ i :: discovered, Leads successors k j := by
        intro k hk
        rcases List.mem_cons.1 hk with rfl | hk
        · exact .single hj
        · exact (hd i rfl k hk).tail hj
      rw [htop] at ih
      obtain ⟨top, hdescends, hfinished⟩ := ih (fun _ hm => Option.some.inj hm ▸ hnext) rfl h j rfl
      have hstep : (successors i).getLast? = some j := by rw [hlast, List.getLast?_concat]
      exact ⟨top, ⟨.head hstep hdescends.steps, hdescends.ends⟩, hfinished⟩

/-- The last node in the order is where the search from the first node stops first. -/
theorem getLast?_forward (he : ∀ i j, j ∈ successors i ↔ i ∈ predecessors j)
    (h : forward successors predecessors = .ok order) (hi : (List.finRange n).head? = some i) :
    ∃ j, Descends successors i j ∧ order.getLast? = some j := by
  have hexact := forward_exact he
  rw [h] at hexact
  have hacyclic := Project.not_leads_of_forward he
    (fun i => hexact.1.mem_iff.2 (List.mem_finRange i)) hexact.2
  obtain ⟨rest, hn⟩ := List.head?_eq_some_iff.1 hi
  rw [forward, hn, searchAll, if_neg List.not_mem_nil] at h
  cases hs : search successors [i] [] [] with
  | error k =>
    rw [hs] at h
    cases h
  | ok result =>
    obtain ⟨discovered, finished⟩ := result
    obtain ⟨j, hj, hlast⟩ :=
      search_first hacyclic (fun _ _ _ hk => absurd hk List.not_mem_nil) rfl hs i rfl
    rw [hs] at h
    dsimp only at h
    split at h
    · cases h
    · next hall =>
      split at h
      · cases h
      · obtain rfl := Except.ok.inj h
        exact ⟨j, hj, getLast?_of_suffix (searchAll_suffix hall) hlast⟩

end Order

instance (d d' : GateDef) : Decidable (d.Places d') :=
  inferInstanceAs (Decidable (∃ node ∈ d.nodes, node.gateType = d'.name))

namespace Project

variable {p : Project} {ds : List GateDef} {d first top : GateDef}

/-- The first listed definition that places a definition. -/
def firstUser? (p : Project) (d : GateDef) : Option GateDef :=
  p.gates.find? fun user => user.Places d

/-- From each definition to the first listed one that places it, up to one that none places. -/
structure Climbs (p : Project) (first top : GateDef) : Prop where
  steps : ReflTransGen (fun d user => p.firstUser? d = some user) first top
  unplaced : ∀ user ∈ p.gates, ¬ user.Places top

theorem Climbs.mem (h : p.Climbs first top) (hf : first ∈ p.gates) : top ∈ p.gates := by
  rcases h.steps.cases_tail with rfl | ⟨d, -, hd⟩
  · exact hf
  · exact List.mem_of_find?_eq_some hd

/-- The definition that is listed last is where the climb ends if it is the only one that no
definition places. -/
theorem Climbs.eq_getLast {hne : p.gates ≠ []} (h : p.Climbs first top) (hf : first ∈ p.gates)
    (hplaced : ∀ d ∈ p.gates.dropLast, ∃ user ∈ p.gates, user.Places d) :
    top = p.gates.getLast hne := by
  have hmem := h.mem hf
  rw [← List.dropLast_append_getLast hne, List.mem_append, List.mem_singleton] at hmem
  refine hmem.resolve_left fun hm => ?_
  obtain ⟨user, huser, hplaces⟩ := hplaced top hm
  exact h.unplaced user huser hplaces

theorem Distinct.firstUser?_get (h : p.Distinct) (i : Fin p.gates.length) :
    p.firstUser? (p.gates.get i) = (p.placing i).getLast?.map p.gates.get := by
  have hall : p.gates = (List.finRange p.gates.length).map p.gates.get :=
    (List.map_get_finRange _).symm
  have hplaces : (fun user : GateDef => decide (user.Places (p.gates.get i))) ∘ p.gates.get =
      fun j => decide (i ∈ p.placedBy j) := by
    funext j
    simp [h.mem_placedBy]
  calc p.firstUser? (p.gates.get i)
      = ((List.finRange p.gates.length).map p.gates.get).find?
          fun user => user.Places (p.gates.get i) := congrArg (List.find? _) hall
    _ = (p.placing i).getLast?.map p.gates.get := by
      rw [List.find?_map, hplaces, placing, List.filter_reverse, List.getLast?_reverse,
        List.head?_filter]

/-- To go down in the order of the search is to climb from the definitions to their users. -/
theorem Distinct.climbs (h : p.Distinct) {i j : Fin p.gates.length}
    (hd : Order.Descends p.placing i j) : p.Climbs (p.gates.get i) (p.gates.get j) where
  steps := by
    refine hd.steps.lift p.gates.get fun i j hj => ?_
    have huser := h.firstUser?_get i
    rwa [hj, Option.map_some] at huser
  unplaced := by
    intro user huser hplaces
    obtain ⟨k, hk, rfl⟩ := List.getElem_of_mem huser
    have hmem : ⟨k, hk⟩ ∈ p.placing j := mem_placing.2 (h.mem_placedBy.2 hplaces)
    rw [hd.ends] at hmem
    exact List.not_mem_nil hmem

/-- The definition that is loaded last is the one at which the climb from the first listed
definition ends. -/
theorem climbs_of_loadOrder (hl : p.loadOrder = .ok ds) (hne : p.gates ≠ []) :
    ∃ top, p.Climbs (p.gates.head hne) top ∧ ds.getLast? = some top := by
  obtain ⟨-, -, hdistinct, -⟩ := loadOrder_eq_ok hl
  have hnone : repeated? [] p.gates = none :=
    repeated?_eq_none_iff.2 ⟨hdistinct, fun _ _ => nofun⟩
  rw [p.loadOrder_eq hnone] at hl
  cases hf : Order.forward p.placing p.placedBy with
  | error i =>
    rw [hf] at hl
    cases hl
  | ok order =>
    rw [hf] at hl
    obtain rfl := Except.ok.inj hl
    have hlength : 0 < p.gates.length := List.length_pos_of_ne_nil hne
    have hfirst : (List.finRange p.gates.length).head? = some ⟨0, hlength⟩ := by
      simp [List.head?_eq_getElem?, hlength]
    obtain ⟨j, hdescends, hlast⟩ := Order.getLast?_forward (fun i j => mem_placing) hf hfirst
    refine ⟨p.gates.get j, ?_, ?_⟩
    · have hhead : p.gates.get ⟨0, hlength⟩ = p.gates.head hne := by
        simp [List.head_eq_getElem]
      exact hhead ▸ hdistinct.climbs hdescends
    · rw [List.getLast?_map, hlast]
      rfl

end Project

end Breadboard
