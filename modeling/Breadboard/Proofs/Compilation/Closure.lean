import Breadboard.Compilation.Closure
import Breadboard.Proofs.Compilation.Islands

namespace Breadboard.Netlist

open Relation

/-- The invariant of the closure: `found` starts, from its end, with the boundary; what its nodes
read is found as well, up to the nodes on the stack and the links that are still to be followed. -/
structure Closing (nl : Netlist Gate) (inputs outputs : List NodeId) (links : List Link)
    (stack found : List NodeId) : Prop where
  nodup : found.Nodup
  boundary : ∃ rest, found = rest ++ (inputs ++ outputs).reverse ∧
    ∀ id ∈ rest, nl.Behind outputs id
  sources : ∀ link ∈ links, ∃ reader ∈ found, nl.Reads reader link.node
  pending : stack ⊆ found
  closed : ∀ id ∈ found, id ∉ stack → ∀ link, some link ∈ nl.slots id →
    link.node ∈ found ∨ link ∈ links

variable {nl : Netlist Gate} {inputs outputs found : List NodeId}

namespace Closing

variable {links : List Link} {link : Link} {stack : List NodeId}

/-- The slots of the node on top of the stack are followed next. -/
theorem pop {id : NodeId} (h : nl.Closing inputs outputs [] (id :: stack) found) :
    nl.Closing inputs outputs ((nl.slots id).filterMap fun slot => slot) stack found := by
  have hmem : ∀ link, link ∈ ((nl.slots id).filterMap fun slot => slot) ↔
      some link ∈ nl.slots id := fun link => by simp
  refine ⟨h.nodup, h.boundary, ?_, fun a ha => h.pending (List.mem_cons_of_mem _ ha), ?_⟩
  · intro link hl
    exact ⟨id, h.pending List.mem_cons_self, link, (hmem link).1 hl, rfl⟩
  · intro a ha hn link hl
    by_cases he : a = id
    · exact .inr ((hmem link).2 (he ▸ hl))
    · rcases h.closed a ha (fun hm => (List.mem_cons.1 hm).elim he hn) link hl with hf | hf
      · exact .inl hf
      · cases hf

theorem skip (h : nl.Closing inputs outputs (link :: links) stack found)
    (hf : link.node ∈ found) : nl.Closing inputs outputs links stack found := by
  refine ⟨h.nodup, h.boundary, fun l hl => h.sources l (List.mem_cons_of_mem _ hl), h.pending, ?_⟩
  intro a ha hn l hl
  rcases h.closed a ha hn l hl with hl | hl
  · exact .inl hl
  · rcases List.mem_cons.1 hl with rfl | hl
    · exact .inl hf
    · exact .inr hl

/-- A link that is followed leads from a node behind the outputs, or from an output. -/
theorem exists_transGen (hw : nl.WellFormed) (hin : ∀ id ∈ inputs, nl.role? id = some .input)
    (h : nl.Closing inputs outputs (link :: links) stack found) :
    ∃ o ∈ outputs, TransGen nl.Reads o link.node := by
  obtain ⟨rest, hfound, hrest⟩ := h.boundary
  obtain ⟨reader, hreader, hr⟩ := h.sources link List.mem_cons_self
  rw [hfound, List.mem_append, List.mem_reverse, List.mem_append] at hreader
  rcases hreader with hm | hm | hm
  · obtain ⟨_, o, ho, hp⟩ := hrest reader hm
    exact ⟨o, ho, hp.tail hr⟩
  · exact absurd hr (hw.not_reads_of_input (hin reader hm))
  · exact ⟨reader, hm, .single hr⟩

theorem push (hw : nl.WellFormed) (hin : ∀ id ∈ inputs, nl.role? id = some .input)
    (h : nl.Closing inputs outputs (link :: links) stack found) (hg : nl.IsGate link.node)
    (hf : link.node ∉ found) :
    nl.Closing inputs outputs links (link.node :: stack) (link.node :: found) := by
  obtain ⟨rest, hfound, hrest⟩ := h.boundary
  have hbehind : nl.Behind outputs link.node := ⟨hg, h.exists_transGen hw hin⟩
  refine ⟨List.nodup_cons.2 ⟨hf, h.nodup⟩,
    ⟨link.node :: rest, by rw [hfound, List.cons_append], List.forall_mem_cons.2 ⟨hbehind, hrest⟩⟩,
    ?_, List.cons_subset_cons _ h.pending, ?_⟩
  · intro l hl
    obtain ⟨reader, hreader, hr⟩ := h.sources l (List.mem_cons_of_mem _ hl)
    exact ⟨reader, List.mem_cons_of_mem _ hreader, hr⟩
  · intro a ha hn l hl
    have hne : a ≠ link.node := fun he => hn (he ▸ List.mem_cons_self)
    rcases h.closed a ((List.mem_cons.1 ha).resolve_left hne)
      (fun hm => hn (List.mem_cons_of_mem _ hm)) l hl with hl | hl
    · exact .inl (List.mem_cons_of_mem _ hl)
    · rcases List.mem_cons.1 hl with rfl | hl
      · exact .inl List.mem_cons_self
      · exact .inr hl

end Closing

/-- What following links answers: the nodes that were found, or a pin that is not declared. -/
def Followable (nl : Netlist Gate) (inputs outputs : List NodeId) :
    Except BoundaryError (List NodeId) → Prop
  | .ok nodes => nl.Closing inputs outputs [] [] nodes
  | .error _ => ∃ id, nl.Undeclared inputs outputs id

/-- Every step keeps the invariant, up to the end of the walk or to a pin that is not declared. -/
theorem Closing.followable (hw : nl.WellFormed)
    (hin : ∀ id ∈ inputs, nl.role? id = some .input) {links : List Link} {stack : List NodeId}
    (h : nl.Closing inputs outputs links stack found) :
    nl.Followable inputs outputs (nl.close links stack found) := by
  have role : ∀ {link : Link} {links stack found},
      nl.Closing inputs outputs (link :: links) stack found →
      nl.IsGate link.node ∨ nl.role? link.node = some .input := fun h => by
    obtain ⟨reader, _, hr⟩ := h.sources _ List.mem_cons_self
    exact hw.role?_of_reads hr
  fun_induction close nl links stack found with
  | case1 found => exact h
  | case2 id stack found ih => exact ih h.pop
  | case3 link links stack found hk ih =>
    rcases role h with hg | hi
    · exact absurd (role?_eq_none_iff.2 hk) hg.role?_ne_none
    · simp [role?_eq_none_iff.2 hk] at hi
  | case4 link links stack found kind hk hf ih => exact ih (h.skip hf)
  | case5 link links stack found hf pin hk =>
    have hrole : nl.role? link.node = some .input := by simp [role?, hk, NodeKind.role]
    obtain ⟨rest, hfound, _⟩ := h.boundary
    have hn : link.node ∉ inputs := by
      intro hi
      rw [hfound] at hf
      exact hf (List.mem_append_right _ (List.mem_reverse.2 (List.mem_append_left _ hi)))
    exact ⟨link.node, hrole, hn, h.exists_transGen hw hin⟩
  | case6 link links stack found kind hk hf hk' hne ih =>
    refine ih (h.push hw hin ?_ hf)
    rcases role h with hg | hi
    · exact hg
    · obtain ⟨pin, hp⟩ := exists_inputPin? hi
      obtain rfl := Option.some.inj (hk.symm.trans (kind?_of_inputPin? hp))
      exact (hne pin hk' rfl .rfl).elim

/-- What a closure holds. -/
structure ClosedList (nl : Netlist Gate) (inputs outputs nodes : List NodeId) : Prop where
  boundary : ∃ rest, nodes = inputs ++ outputs ++ rest ∧ ∀ id ∈ rest, nl.Behind outputs id
  nodup : nodes.Nodup
  closed : ∀ {a b}, a ∈ nodes → nl.Reads a b → b ∈ nodes

theorem ClosedList.mem_cases {nodes : List NodeId} (h : nl.ClosedList inputs outputs nodes)
    {id : NodeId} (hid : id ∈ nodes) : id ∈ inputs ∨ id ∈ outputs ∨ nl.Behind outputs id := by
  obtain ⟨rest, rfl, hrest⟩ := h.boundary
  rcases List.mem_append.1 hid with hid | hid
  · exact (List.mem_append.1 hid).imp_right .inl
  · exact .inr (.inr (hrest id hid))

theorem ClosedList.isLive {nodes : List NodeId} (h : nl.ClosedList inputs outputs nodes)
    (hb : nl.checkBoundary inputs outputs = .ok ()) : ∀ id ∈ nodes, nl.isLive id = true := by
  obtain ⟨⟨hin, _⟩, hout, _⟩ := checkBoundary_eq_ok hb
  intro id hid
  rw [isLive_eq_isSome_role?, Option.isSome_iff_exists]
  rcases h.mem_cases hid with hid | hid | ⟨⟨g, hg⟩, _⟩
  · exact ⟨_, hin id hid⟩
  · exact ⟨_, hout id hid⟩
  · exact ⟨_, hg⟩

/-- The walk starts with the boundary found, and the outputs to be followed. -/
theorem WellFormed.closing_boundary (hw : nl.WellFormed)
    (hb : nl.checkBoundary inputs outputs = .ok ()) :
    nl.Closing inputs outputs [] outputs.reverse (inputs ++ outputs).reverse := by
  obtain ⟨⟨hin, hni⟩, hout, hno⟩ := checkBoundary_eq_ok hb
  refine ⟨List.nodup_reverse.2 (List.nodup_append'.2 ⟨hni, hno, ?_⟩),
    ⟨[], rfl, nofun⟩, nofun, ?_, ?_⟩
  · intro id hi ho
    simpa [hin id hi] using hout id ho
  · intro id ho
    rw [List.mem_reverse] at ho ⊢
    exact List.mem_append_right _ ho
  · intro id hid hn link hl
    rw [List.mem_reverse] at hid hn
    have hid := (List.mem_append.1 hid).resolve_right hn
    exact absurd ⟨link, hl, rfl⟩ (hw.not_reads_of_input (b := link.node) (hin id hid))

theorem WellFormed.followable_close (hw : nl.WellFormed)
    (hb : nl.checkBoundary inputs outputs = .ok ()) :
    nl.Followable inputs outputs
      (nl.close [] outputs.reverse (inputs ++ outputs).reverse) :=
  (hw.closing_boundary hb).followable hw (checkBoundary_eq_ok hb).1.1

theorem closure_eq_ok (hw : nl.WellFormed) (hb : nl.checkBoundary inputs outputs = .ok ())
    {nodes : List NodeId} (h : nl.closure inputs outputs = .ok nodes) :
    nl.ClosedList inputs outputs nodes := by
  have hend := hw.followable_close hb
  unfold closure at h
  cases hc : nl.close [] outputs.reverse (inputs ++ outputs).reverse with
  | error cause =>
    rw [hc] at h
    cases h
  | ok found =>
    rw [hc] at h hend
    obtain rfl := Except.ok.inj h
    obtain ⟨rest, hfound, hrest⟩ := hend.boundary
    refine ⟨⟨rest.reverse, ?_, fun id hid => hrest id (List.mem_reverse.1 hid)⟩,
      List.nodup_reverse.2 hend.nodup, ?_⟩
    · dsimp only
      rw [hfound, List.reverse_append, List.reverse_reverse]
    · intro a b ha hr
      obtain ⟨link, hl, rfl⟩ := hr
      rw [List.mem_reverse] at ha ⊢
      exact (hend.closed a ha List.not_mem_nil link hl).resolve_right List.not_mem_nil

theorem closure_eq_error (hw : nl.WellFormed) (hb : nl.checkBoundary inputs outputs = .ok ())
    {cause : BoundaryError} (h : nl.closure inputs outputs = .error cause) :
    ∃ id, nl.Undeclared inputs outputs id := by
  have hend := hw.followable_close hb
  unfold closure at h
  cases hc : nl.close [] outputs.reverse (inputs ++ outputs).reverse with
  | error cause =>
    rw [hc] at hend
    exact hend
  | ok found =>
    rw [hc] at h
    cases h

end Breadboard.Netlist
