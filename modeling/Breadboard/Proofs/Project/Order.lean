import Breadboard.Project.Order
import Mathlib

namespace Breadboard.Order

open Relation

variable {n : Nat}

/-- There is a path along edges, of one edge at least. -/
abbrev Leads (successors : Fin n → List (Fin n)) : Fin n → Fin n → Prop :=
  TransGen fun i j => j ∈ successors i

/-- Every successor of a node stands behind it, or leads back to it. -/
def Descending (successors : Fin n → List (Fin n)) : List (Fin n) → Prop
  | [] => True
  | i :: rest => (∀ j ∈ successors i, j ∈ rest ∨ Leads successors j i) ∧ Descending successors rest

/-- The nodes above the first occurrence of a node on a stack. -/
def above (stack : List (Fin n)) (i : Fin n) : List (Fin n) := stack.takeWhile (· != i)

/-- A search under way. An open node, which is discovered but not finished, is on the stack; above
it are only nodes that it leads to, among them all its successors that are not discovered. -/
structure Searching (successors : Fin n → List (Fin n)) (stack discovered finished : List (Fin n)) :
    Prop where
  nodup : finished.Nodup
  subset : finished ⊆ discovered
  irreflexive : ∀ i ∈ discovered, i ∉ successors i
  mem_stack : ∀ i ∈ discovered, i ∉ finished → i ∈ stack
  leads : ∀ i ∈ discovered, i ∉ finished → ∀ j ∈ above stack i, Leads successors i j
  known : ∀ i ∈ discovered, i ∉ finished → ∀ j ∈ successors i, j ∈ discovered ∨ j ∈ above stack i
  descending : Descending successors finished

variable {successors predecessors : Fin n → List (Fin n)} {stack discovered finished : List (Fin n)}
  {i j : Fin n}

theorem above_cons_self (stack : List (Fin n)) (i : Fin n) : above (i :: stack) i = [] := by
  simp [above]

theorem above_cons_of_ne (stack : List (Fin n)) (h : j ≠ i) :
    above (j :: stack) i = j :: above stack i := by simp [above, h]

theorem above_append {pushed : List (Fin n)} (h : i ∉ pushed) (stack : List (Fin n)) :
    above (pushed ++ stack) i = pushed ++ above stack i := by
  apply List.takeWhile_append_of_pos
  intro j hj
  exact bne_iff_ne.2 fun he => h (he ▸ hj)

namespace Searching

/-- Between two searches no node is open. -/
theorem discovered_subset (h : Searching successors [] discovered finished) :
    discovered ⊆ finished := by
  intro i hi
  by_contra hf
  exact List.not_mem_nil (h.mem_stack i hi hf)

theorem start (h : Searching successors [] discovered finished) (i : Fin n) :
    Searching successors [i] discovered finished where
  nodup := h.nodup
  subset := h.subset
  irreflexive := h.irreflexive
  mem_stack _ hj hf := absurd (h.discovered_subset hj) hf
  leads _ hj hf := absurd (h.discovered_subset hj) hf
  known _ hj hf := absurd (h.discovered_subset hj) hf
  descending := h.descending

/-- When an open node finishes, each of its successors is finished or open, and then it is below on
the stack. -/
theorem finish (h : Searching successors (i :: stack) discovered finished) (hi : i ∈ discovered)
    (hf : i ∉ finished) (hj : j ∈ successors i) : j ∈ finished ∨ Leads successors j i := by
  by_cases hjf : j ∈ finished
  · exact .inl hjf
  · have hknown := h.known i hi hf j hj
    rw [above_cons_self, List.mem_nil_iff, or_false] at hknown
    have hne : i ≠ j := fun he => h.irreflexive i hi (he ▸ hj)
    refine .inr (h.leads j hknown hjf i ?_)
    rw [above_cons_of_ne stack hne]
    exact List.mem_cons_self

/-- A node that is discovered leaves the stack, and is finished then. -/
theorem pop (h : Searching successors (i :: stack) discovered finished) (hi : i ∈ discovered) :
    Searching successors stack discovered (if i ∈ finished then finished else i :: finished) := by
  have hopen : ∀ j, j ∉ (if i ∈ finished then finished else i :: finished) →
      j ∉ finished ∧ i ≠ j := by
    intro j hj
    split at hj
    · next hif => exact ⟨hj, fun he => hj (he ▸ hif)⟩
    · exact ⟨fun hm => hj (List.mem_cons_of_mem _ hm), fun he => hj (he ▸ List.mem_cons_self)⟩
  constructor
  case nodup =>
    split
    · exact h.nodup
    · next hf => exact List.nodup_cons.2 ⟨hf, h.nodup⟩
  case subset =>
    split
    · exact h.subset
    · exact List.cons_subset.2 ⟨hi, h.subset⟩
  case irreflexive => exact h.irreflexive
  case mem_stack =>
    intro j hj hjo
    obtain ⟨hf, hne⟩ := hopen j hjo
    exact (List.mem_cons.1 (h.mem_stack j hj hf)).resolve_left hne.symm
  case leads =>
    intro j hj hjo k hk
    obtain ⟨hf, hne⟩ := hopen j hjo
    apply h.leads j hj hf k
    rw [above_cons_of_ne stack hne]
    exact List.mem_cons_of_mem _ hk
  case known =>
    intro j hj hjo k hk
    obtain ⟨hf, hne⟩ := hopen j hjo
    have hknown := h.known j hj hf k hk
    rw [above_cons_of_ne stack hne, List.mem_cons] at hknown
    rcases hknown with hk | rfl | hk
    · exact .inl hk
    · exact .inl hi
    · exact .inr hk
  case descending =>
    split
    · exact h.descending
    · next hf => exact ⟨fun j hj => h.finish hi hf hj, h.descending⟩

/-- A node that is discovered stays on the stack, below those of its successors that are not. -/
theorem push (h : Searching successors (i :: stack) discovered finished) (hi : i ∉ discovered)
    (hl : i ∉ successors i) :
    Searching successors (((successors i).filter (· ∉ i :: discovered)).reverse ++ i :: stack)
      (i :: discovered) finished := by
  have hpushed : ∀ j ∈ i :: discovered,
      j ∉ ((successors i).filter (· ∉ i :: discovered)).reverse := by
    intro j hj hm
    rw [List.mem_reverse, List.mem_filter] at hm
    exact of_decide_eq_true hm.2 hj
  have hsuccessor : ∀ j ∈ ((successors i).filter (· ∉ i :: discovered)).reverse,
      j ∈ successors i := fun j hj => List.mem_of_mem_filter (List.mem_reverse.1 hj)
  have hne : ∀ j ∈ discovered, i ≠ j := fun j hj he => hi (he ▸ hj)
  constructor
  case nodup => exact h.nodup
  case subset => exact fun j hj => List.mem_cons_of_mem _ (h.subset hj)
  case irreflexive =>
    intro j hj
    rcases List.mem_cons.1 hj with rfl | hj
    · exact hl
    · exact h.irreflexive j hj
  case mem_stack =>
    intro j hj hf
    rcases List.mem_cons.1 hj with rfl | hj
    · simp
    · exact List.mem_append_right _ (h.mem_stack j hj hf)
  case leads =>
    intro j hj hf k hk
    rw [above_append (hpushed j hj)] at hk
    rcases List.mem_cons.1 hj with rfl | hj
    · rw [above_cons_self, List.append_nil] at hk
      exact .single (hsuccessor k hk)
    · rcases List.mem_append.1 hk with hk | hk
      · have hto : Leads successors j i := by
          apply h.leads j hj hf i
          rw [above_cons_of_ne stack (hne j hj)]
          exact List.mem_cons_self
        exact hto.tail (hsuccessor k hk)
      · exact h.leads j hj hf k hk
  case known =>
    intro j hj hf k hk
    rw [above_append (hpushed j hj), List.mem_append]
    rcases List.mem_cons.1 hj with rfl | hj
    · by_cases hd : k ∈ j :: discovered
      · exact .inl hd
      · refine .inr (.inl ?_)
        rw [List.mem_reverse, List.mem_filter]
        exact ⟨hk, decide_eq_true hd⟩
    · rcases h.known j hj hf k hk with hk | hk
      · exact .inl (List.mem_cons_of_mem _ hk)
      · exact .inr (.inr hk)
  case descending => exact h.descending

end Searching

/-- A search finishes all that it discovers, the stack included, unless it meets a node that is its
own successor. -/
theorem search_searching (h : Searching successors stack discovered finished) :
    match search successors stack discovered finished with
    | .error i => i ∈ successors i
    | .ok (discovered', finished') => Searching successors [] discovered' finished' ∧
        discovered ⊆ discovered' ∧ stack ⊆ discovered' := by
  induction stack, discovered, finished using search.induct successors with
  | case1 discovered finished =>
    rw [search]
    exact ⟨h, List.Subset.refl _, List.nil_subset _⟩
  | case2 i stack discovered finished hi ih =>
    rw [search, if_pos hi]
    rw [dite_eq_ite] at ih
    specialize ih (h.pop hi)
    split
    · next hs =>
      rw [hs] at ih
      exact ih
    · next hs =>
      rw [hs] at ih
      exact ⟨ih.1, ih.2.1, List.cons_subset.2 ⟨ih.2.1 hi, ih.2.2⟩⟩
  | case3 i stack discovered finished hi hl =>
    rw [search, if_neg hi, if_pos hl]
    exact hl
  | case4 i stack discovered finished hi hl fresh ih =>
    rw [search, if_neg hi, if_neg hl]
    specialize ih (h.push hi hl)
    split
    · next hs =>
      rw [hs] at ih
      exact ih
    · next hs =>
      rw [hs] at ih
      obtain ⟨hdone, hd, hstack⟩ := ih
      refine ⟨hdone, fun j hj => hd (List.mem_cons_of_mem _ hj), fun j hj => hstack ?_⟩
      exact List.mem_append_right _ hj

theorem searchAll_descending (h : Searching successors [] discovered finished)
    (nodes : List (Fin n)) :
    match searchAll successors nodes discovered finished with
    | .error i => i ∈ successors i
    | .ok order => order.Nodup ∧ Descending successors order ∧ finished ⊆ order ∧ nodes ⊆ order ∧
        ∀ i ∈ order, i ∉ successors i := by
  induction nodes generalizing discovered finished with
  | nil =>
    exact ⟨h.nodup, h.descending, List.Subset.refl _, List.nil_subset _,
      fun i hi => h.irreflexive i (h.subset hi)⟩
  | cons i nodes ih =>
    rw [searchAll]
    by_cases hi : i ∈ discovered
    · rw [if_pos hi]
      specialize ih h
      split
      · next hs =>
        rw [hs] at ih
        exact ih
      · next hs =>
        rw [hs] at ih
        obtain ⟨hn, hd, hf, hnodes, hirr⟩ := ih
        exact ⟨hn, hd, hf, List.cons_subset.2 ⟨hf (h.discovered_subset hi), hnodes⟩, hirr⟩
    · rw [if_neg hi]
      have hsearch := search_searching (h.start i)
      cases hs : search successors [i] discovered finished with
      | error j =>
        rw [hs] at hsearch
        exact hsearch
      | ok result =>
        obtain ⟨discovered', finished'⟩ := result
        rw [hs] at hsearch
        obtain ⟨hdone, hmore, hstack⟩ := hsearch
        specialize ih hdone
        dsimp only
        split
        · next hs =>
          rw [hs] at ih
          exact ih
        · next hs =>
          rw [hs] at ih
          obtain ⟨hn, hd, hf, hnodes, hirr⟩ := ih
          have hgrown : finished ⊆ finished' :=
            fun j hj => hdone.discovered_subset (hmore (h.subset hj))
          have hfirst : i ∈ finished' := hdone.discovered_subset (hstack List.mem_cons_self)
          exact ⟨hn, hd, fun j hj => hf (hgrown hj), List.cons_subset.2 ⟨hf hfirst, hnodes⟩, hirr⟩

theorem behind?_eq_none {earlier order : List (Fin n)}
    (h : behind? predecessors earlier order = none) {before after : List (Fin n)}
    (ho : order = before ++ i :: after) (hj : j ∈ predecessors i) :
    j = i ∨ j ∈ earlier ∨ j ∈ before := by
  induction order generalizing earlier before with
  | nil => simp at ho
  | cons k order ih =>
    rw [behind?] at h
    split at h
    · cases h
    · next hfind =>
      cases before with
      | nil =>
        obtain ⟨rfl, rfl⟩ := List.cons.inj ho
        have hmem := List.find?_eq_none.1 hfind j hj
        simp only [decide_not, Bool.not_eq_true', decide_eq_false_iff_not, not_not,
          List.mem_cons] at hmem
        rcases hmem with he | hm
        · exact .inl he
        · exact .inr (.inl hm)
      | cons b before =>
        obtain ⟨rfl, hrest⟩ := List.cons.inj ho
        rcases ih h hrest with he | hm | hm
        · exact .inl he
        · rcases List.mem_cons.1 hm with rfl | hm
          · exact .inr (.inr List.mem_cons_self)
          · exact .inr (.inl hm)
        · exact .inr (.inr (List.mem_cons_of_mem _ hm))

theorem behind?_eq_some {earlier order : List (Fin n)}
    (h : behind? predecessors earlier order = some j) :
    ∃ before i after, order = before ++ i :: after ∧ j ∈ predecessors i ∧ j ≠ i ∧
      j ∉ earlier ∧ j ∉ before := by
  induction order generalizing earlier with
  | nil => cases h
  | cons k order ih =>
    rw [behind?] at h
    split at h
    · next hfind =>
      rw [← Option.some.inj h]
      have hnot := List.find?_some hfind
      rw [decide_eq_true_iff] at hnot
      rw [List.mem_cons, not_or] at hnot
      exact ⟨[], k, order, rfl, List.mem_of_find?_eq_some hfind, hnot.1, hnot.2,
        List.not_mem_nil⟩
    · obtain ⟨before, i, after, rfl, hj, hne, hearlier, hbefore⟩ := ih h
      rw [List.mem_cons, not_or] at hearlier
      refine ⟨k :: before, i, after, rfl, hj, hne, hearlier.2, ?_⟩
      rw [List.mem_cons, not_or]
      exact ⟨hearlier.1, hbefore⟩

/-- A node behind which one of its successors does not stand is led back to from there. -/
theorem Descending.leads_back {before after : List (Fin n)}
    (h : Descending successors (before ++ i :: after)) (hj : j ∈ successors i) (hn : j ∉ after) :
    Leads successors j i := by
  induction before with
  | nil => exact (h.1 j hj).resolve_left hn
  | cons k before ih => exact ih h.2

/-- All nodes in an order in which each one comes after its predecessors, or a node on a cycle. -/
theorem forward_exact (he : ∀ i j, j ∈ successors i ↔ i ∈ predecessors j) :
    match forward successors predecessors with
    | .error i => Leads successors i i
    | .ok order => order.Perm (List.finRange n) ∧
        ∀ before i after, order = before ++ i :: after → ∀ j ∈ predecessors i, j ∈ before := by
  have hstart : Searching successors [] [] [] :=
    ⟨List.nodup_nil, List.nil_subset _, nofun, nofun, nofun, nofun, trivial⟩
  have hall := searchAll_descending hstart (List.finRange n)
  rw [forward]
  cases hs : searchAll successors (List.finRange n) [] [] with
  | error i =>
    rw [hs] at hall
    exact .single hall
  | ok order =>
    rw [hs] at hall
    obtain ⟨hn, hd, _, hnodes, hirr⟩ := hall
    dsimp only
    cases hb : behind? predecessors [] order with
    | none =>
      have hperm : order.Perm (List.finRange n) := by
        apply (List.perm_ext_iff_of_nodup hn (List.nodup_finRange n)).2
        exact fun i => ⟨fun _ => List.mem_finRange i, fun hi => hnodes hi⟩
      refine ⟨hperm, ?_⟩
      intro before i after ho j hj
      rcases behind?_eq_none hb ho hj with rfl | hm | hm
      · exact absurd ((he j j).2 hj) (hirr j (hnodes (List.mem_finRange j)))
      · cases hm
      · exact hm
    | some j =>
      -- the edge from `j` goes to a node before it, so that node leads back to `j`
      obtain ⟨before, i, after, rfl, hj, hne, _, hbefore⟩ := behind?_eq_some hb
      have hedge : i ∈ successors j := (he j i).2 hj
      have hafter : j ∈ after := by
        have hmem := hnodes (List.mem_finRange j)
        rw [List.mem_append, List.mem_cons] at hmem
        exact (hmem.resolve_left hbefore).resolve_left hne
      obtain ⟨between, rest, rfl⟩ := List.append_of_mem hafter
      have hsplit : before ++ i :: (between ++ j :: rest) =
          (before ++ i :: between) ++ j :: rest := by simp
      have hnot : i ∉ rest := by
        intro hm
        have hnodup := (List.nodup_append.1 hn).2.1
        exact (List.nodup_cons.1 hnodup).1 (by simp [hm])
      rw [hsplit] at hd
      exact TransGen.head hedge (hd.leads_back hedge hnot)

end Breadboard.Order
