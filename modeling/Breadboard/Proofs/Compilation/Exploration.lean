import Breadboard.Proofs.Netlist.Cone

namespace Breadboard

open Relation

namespace Cone

/-- A source that the walk has met. -/
def Covers (cone : Cone) (id : NodeId) : Prop :=
  id ∈ cone.nodes ∨ id ∈ cone.touched ∨ id ∈ cone.inputs

structure Grows (cone cone' : Cone) : Prop where
  nodes : cone.nodes ⊆ cone'.nodes
  touched : cone.touched ⊆ cone'.touched
  inputs : cone.inputs ⊆ cone'.inputs

variable {cone cone' : Cone}

theorem Grows.refl (cone : Cone) : Grows cone cone := ⟨fun _ h => h, fun _ h => h, fun _ h => h⟩

theorem Grows.covers (h : Grows cone cone') {id : NodeId} (hc : cone.Covers id) :
    cone'.Covers id := by
  rcases hc with hn | ht | hi
  · exact .inl (h.nodes hn)
  · exact .inr (.inl (h.touched ht))
  · exact .inr (.inr (h.inputs hi))

end Cone

namespace Netlist

/-- The slots of the nodes of a path that were followed already lead to sources that were met. No
loop lies behind these, except that it is not known yet of the node above. -/
def Followed (nl : Netlist Gate) (cone : Cone) :
    (above : Option NodeId) → List (NodeId × List (Option Link)) → Prop
  | _, [] => True
  | above, (node, slots) :: path =>
    (∃ done, nl.slots node = done ++ slots ∧ ∀ link, some link ∈ done →
      cone.Covers link.node ∧ (nl.Grounded link.node ∨ above = some link.node)) ∧
    nl.Followed cone (some node) path

/-- The invariant of the walk back from `output`. -/
structure Exploring (nl : Netlist Gate) (inputs settled : List NodeId) (output : NodeId)
    (path : List (NodeId × List (Option Link))) (cone : Cone) : Prop where
  nodup : cone.nodes.Nodup
  fresh : ∀ id ∈ cone.nodes, id ∉ settled
  behind : ∀ id ∈ cone.nodes, nl.Behind [output] id
  stateless : ∀ id ∈ cone.nodes, nl.isHierarchical id = false
  touched : ∀ id ∈ cone.touched, id ∈ settled ∧ nl.Behind [output] id
  inputs : ∀ id ∈ cone.inputs, id ∈ inputs ∧ nl.role? id = some .input ∧
    ∃ reader, (reader = output ∨ reader ∈ cone.nodes) ∧ nl.Reads reader id
  onPath : ∀ id ∈ path.map (·.1), id = output ∨ id ∈ cone.nodes
  followed : nl.Followed cone none path
  finished : ∀ id, id = output ∨ id ∈ cone.nodes → id ∉ path.map (·.1) →
    nl.Grounded id ∧ ∀ source, nl.Reads id source → cone.Covers source

variable {nl : Netlist Gate} {inputs settled : List NodeId} {output node : NodeId}
  {path : List (NodeId × List (Option Link))} {cone cone' : Cone} {slots : List (Option Link)}
  {slot : Option Link} {link : Link}

theorem Followed.grows {above : Option NodeId} (h : nl.Followed cone above path)
    (hg : cone.Grows cone') : nl.Followed cone' above path := by
  induction path generalizing above with
  | nil => trivial
  | cons frame path ih =>
    obtain ⟨⟨done, hs, hd⟩, hp⟩ := h
    exact ⟨⟨done, hs, fun link hl => ⟨hg.covers (hd link hl).1, (hd link hl).2⟩⟩, ih hp⟩

theorem Followed.grounded (h : nl.Followed cone (some node) path) (hg : nl.Grounded node) :
    nl.Followed cone none path := by
  cases path with
  | nil => trivial
  | cons frame path =>
    obtain ⟨⟨done, hs, hd⟩, hp⟩ := h
    refine ⟨⟨done, hs, fun link hl => ⟨(hd link hl).1, .inl ?_⟩⟩, hp⟩
    rcases (hd link hl).2 with hl | hl
    · exact hl
    · exact Option.some.inj hl ▸ hg

namespace Exploring

theorem start (nl : Netlist Gate) (inputs settled : List NodeId) (output : NodeId) :
    nl.Exploring inputs settled output [(output, nl.slots output)] {} where
  nodup := List.nodup_nil
  fresh := nofun
  behind := nofun
  stateless := nofun
  touched := nofun
  inputs := nofun
  onPath id h := .inl (List.mem_singleton.1 h)
  followed := ⟨⟨[], rfl, nofun⟩, trivial⟩
  finished id hid hn := by
    rcases hid with rfl | hid
    · exact absurd (List.mem_singleton_self _) hn
    · cases hid

/-- A node all of whose slots were followed leaves the path. -/
theorem pop (h : nl.Exploring inputs settled output ((node, []) :: path) cone) :
    nl.Exploring inputs settled output path cone := by
  obtain ⟨⟨done, hs, hd⟩, hp⟩ := h.followed
  rw [List.append_nil] at hs
  have hcovers : ∀ source, nl.Reads node source → cone.Covers source := by
    intro source hr
    obtain ⟨link, hl, rfl⟩ := hr
    exact (hd link (hs ▸ hl)).1
  have hgrounded : nl.Grounded node := by
    refine .intro node ?_
    intro source hr
    obtain ⟨link, hl, rfl⟩ := hr
    exact (hd link (hs ▸ hl)).2.resolve_right nofun
  refine { h with onPath := ?_, followed := hp.grounded hgrounded, finished := ?_ }
  · intro id hid
    exact h.onPath id (List.mem_cons_of_mem _ hid)
  · intro id hid hn
    by_cases he : id = node
    · exact he ▸ ⟨hgrounded, hcovers⟩
    · exact h.finished id hid fun hm => (List.mem_cons.1 hm).elim he hn

/-- A slot is followed to a source that needs no walk of its own. -/
theorem follow (h : nl.Exploring inputs settled output ((node, slot :: slots) :: path) cone)
    (hs : ∀ link, slot = some link → cone'.Covers link.node ∧ nl.Grounded link.node)
    (hg : cone.Grows cone') (hn : cone'.nodes = cone.nodes)
    (ht : ∀ id ∈ cone'.touched, id ∈ settled ∧ nl.Behind [output] id)
    (hi : ∀ id ∈ cone'.inputs, id ∈ inputs ∧ nl.role? id = some .input ∧
      ∃ reader, (reader = output ∨ reader ∈ cone.nodes) ∧ nl.Reads reader id) :
    nl.Exploring inputs settled output ((node, slots) :: path) cone' := by
  obtain ⟨⟨done, hd, hl⟩, hp⟩ := h.followed
  refine ⟨hn ▸ h.nodup, hn ▸ h.fresh, hn ▸ h.behind, hn ▸ h.stateless, ht, hn ▸ hi,
    hn ▸ h.onPath, ⟨⟨done ++ [slot], by rw [hd, List.append_assoc, List.singleton_append], ?_⟩,
      hp.grows hg⟩, ?_⟩
  · intro link hm
    rcases List.mem_append.1 hm with hm | hm
    · exact ⟨hg.covers (hl link hm).1, (hl link hm).2⟩
    · obtain ⟨hc, hgr⟩ := hs link (List.mem_singleton.1 hm).symm
      exact ⟨hc, .inl hgr⟩
  · intro id hid hm
    rw [hn] at hid
    obtain ⟨hgr, hc⟩ := h.finished id hid hm
    exact ⟨hgr, fun source hr => hg.covers (hc source hr)⟩

theorem reads_head
    (h : nl.Exploring inputs settled output ((node, some link :: slots) :: path) cone) :
    nl.Reads node link.node := by
  obtain ⟨⟨done, hs, _⟩, _⟩ := h.followed
  exact ⟨link, by rw [hs]; simp, rfl⟩

theorem behind_head
    (h : nl.Exploring inputs settled output ((node, some link :: slots) :: path) cone)
    (hg : nl.IsGate link.node) : nl.Behind [output] link.node := by
  refine behind_of_reads ?_ hg h.reads_head
  rcases h.onPath node List.mem_cons_self with rfl | hn
  · exact .inr rfl
  · exact .inl (h.behind node hn)

/-- A gate that was not met before is entered. -/
theorem push (h : nl.Exploring inputs settled output ((node, some link :: slots) :: path) cone)
    (hg : nl.IsGate link.node) (hh : nl.isHierarchical link.node = false)
    (hs : link.node ∉ settled) (hn : link.node ∉ cone.nodes) :
    nl.Exploring inputs settled output
      ((link.node, nl.slots link.node) :: (node, slots) :: path)
      { cone with nodes := link.node :: cone.nodes } := by
  have hgrows : cone.Grows { cone with nodes := link.node :: cone.nodes } :=
    ⟨fun _ hm => List.mem_cons_of_mem _ hm, fun _ hm => hm, fun _ hm => hm⟩
  have widen : ∀ {id}, id = output ∨ id ∈ cone.nodes → id = output ∨ id ∈ link.node :: cone.nodes :=
    fun hid => hid.imp_right (List.mem_cons_of_mem _)
  obtain ⟨⟨done, hd, hl⟩, hp⟩ := h.followed
  refine ⟨List.nodup_cons.2 ⟨hn, h.nodup⟩, List.forall_mem_cons.2 ⟨hs, h.fresh⟩,
    List.forall_mem_cons.2 ⟨h.behind_head hg, h.behind⟩,
    List.forall_mem_cons.2 ⟨hh, h.stateless⟩, h.touched, ?_, ?_,
    ⟨⟨[], rfl, nofun⟩, ⟨done ++ [some link], ?_, ?_⟩, hp.grows hgrows⟩, ?_⟩
  · intro id hid
    obtain ⟨hin, hrole, reader, hreader, hr⟩ := h.inputs id hid
    exact ⟨hin, hrole, reader, widen hreader, hr⟩
  · intro id hid
    rcases List.mem_cons.1 hid with rfl | hid
    · exact .inr List.mem_cons_self
    · exact widen (h.onPath id hid)
  · rw [hd, List.append_assoc, List.singleton_append]
  · intro link' hm
    rcases List.mem_append.1 hm with hm | hm
    · exact ⟨hgrows.covers (hl link' hm).1, (hl link' hm).2.imp_right nofun⟩
    · obtain rfl := Option.some.inj (List.mem_singleton.1 hm)
      exact ⟨.inl List.mem_cons_self, .inr rfl⟩
  · intro id hid hm
    have hne : id ≠ link.node := fun he => hm (he ▸ List.mem_cons_self)
    have hold : id = output ∨ id ∈ cone.nodes :=
      hid.imp_right fun hid => (List.mem_cons.1 hid).resolve_left hne
    obtain ⟨hgr, hc⟩ := h.finished id hold fun hp => hm (List.mem_cons_of_mem _ hp)
    exact ⟨hgr, fun source hr => hgrows.covers (hc source hr)⟩

end Exploring

/-- What the kind of a source, or the error about it, says of the source. -/
def Classified (nl : Netlist Gate) (inputs : List NodeId) (id : NodeId) :
    Except BoundaryError SourceKind → Prop
  | .ok .absent => ¬ nl.IsGate id ∧ nl.role? id ≠ some .input
  | .ok .pin => id ∈ inputs ∧ nl.role? id = some .input
  | .ok .gate => nl.IsGate id ∧ nl.isHierarchical id = false
  | .ok .stateful => nl.IsGate id ∧ nl.isHierarchical id = true
  | .error cause =>
    ∃ name, cause = .undeclared name id ∧ nl.role? id = some .input ∧ id ∉ inputs

theorem classified_sourceKind (nl : Netlist Gate) (inputs : List NodeId) (id : NodeId) :
    nl.Classified inputs id (nl.sourceKind inputs id) := by
  have hrole : nl.role? id = (nl.kind? id).map (·.role) := rfl
  unfold sourceKind
  cases hk : nl.kind? id with
  | none =>
    rw [hk] at hrole
    exact ⟨fun hg => hg.role?_ne_none hrole, by simp [hrole]⟩
  | some kind =>
    rw [hk] at hrole
    cases kind with
    | gate g =>
      have hh := isHierarchical_of_role? hrole
      change nl.Classified inputs id (.ok (if g.isHierarchical then .stateful else .gate))
      cases hg : g.isHierarchical with
      | false => exact ⟨⟨g, hrole⟩, hh.trans hg⟩
      | true => exact ⟨⟨g, hrole⟩, hh.trans hg⟩
    | input pin =>
      by_cases hi : id ∈ inputs
      · simp only [hi, if_true]
        exact ⟨hi, hrole⟩
      · simp only [hi, if_false]
        exact ⟨pin.name, rfl, hrole, hi⟩
    | output pin => exact ⟨fun hg => hg.role?_ne_output hrole, by simp [hrole, NodeKind.role]⟩

theorem classified_of_eq {id : NodeId} {answer : Except BoundaryError SourceKind}
    (h : nl.sourceKind inputs id = answer) : nl.Classified inputs id answer :=
  h ▸ nl.classified_sourceKind inputs id

/-- Every node of a path lies behind the nodes below it. -/
def Threaded (nl : Netlist Gate) (path : List (NodeId × List (Option Link))) : Prop :=
  (path.map (·.1)).Pairwise fun above below => TransGen nl.Reads below above

theorem Threaded.push (h : nl.Threaded ((node, slots) :: path)) {source : NodeId}
    (hr : nl.Reads node source) (slots' slots'' : List (Option Link)) :
    nl.Threaded ((source, slots') :: (node, slots'') :: path) := by
  refine List.pairwise_cons.2 ⟨?_, h⟩
  intro below hbelow
  rcases List.mem_cons.1 hbelow with rfl | hbelow
  · exact .single hr
  · exact ((List.pairwise_cons.1 h).1 below hbelow).tail hr

/-- A source that is on the path closes a loop. -/
theorem Threaded.loop (h : nl.Threaded ((node, slots) :: path)) {source : NodeId}
    (hr : nl.Reads node source) (hp : source = node ∨ source ∈ path.map (·.1)) :
    TransGen nl.Reads source source := by
  rcases hp with rfl | hp
  · exact .single hr
  · exact ((List.pairwise_cons.1 h).1 source hp).tail hr

/-- An input pin that is read behind the listed outputs without being a listed input. -/
def Undeclared (nl : Netlist Gate) (inputs outputs : List NodeId) (id : NodeId) : Prop :=
  nl.role? id = some .input ∧ id ∉ inputs ∧ ∃ o ∈ outputs, TransGen nl.Reads o id

/-- What stops a walk is there behind the listed outputs. -/
inductive Blocked (nl : Netlist Gate) (inputs outputs : List NodeId) : Obstacle → Prop where
  | undeclared {name : String} {id : NodeId} (h : nl.Undeclared inputs outputs id) :
      Blocked nl inputs outputs (.rejected (.undeclared name id))
  | feedback {id : NodeId} (hb : nl.Behind outputs id) (hl : TransGen nl.Reads id id) :
      Blocked nl inputs outputs (.fallback (.feedback id))
  | stateful {id : NodeId} (hb : nl.Behind outputs id) (hh : nl.isHierarchical id = true) :
      Blocked nl inputs outputs (.fallback (.statefulGate id))

/-- What the walk back from an output answers: what it has met, or what stopped it. -/
def Explored (nl : Netlist Gate) (inputs settled : List NodeId) (output : NodeId) :
    Except Obstacle Cone → Prop
  | .ok cone => nl.Exploring inputs settled output [] cone
  | .error obstacle => nl.Blocked inputs [output] obstacle

theorem Exploring.transGen_head
    (h : nl.Exploring inputs settled output ((node, some link :: slots) :: path) cone) :
    TransGen nl.Reads output link.node := by
  rcases h.onPath node List.mem_cons_self with rfl | hn
  · exact .single h.reads_head
  · obtain ⟨_, o, ho, hp⟩ := h.behind node hn
    obtain rfl := List.mem_singleton.1 ho
    exact hp.tail h.reads_head

/-- Every step of the walk keeps the invariant, up to the end of the walk or to an obstacle. -/
theorem Exploring.explored (hw : nl.WellFormed) (hsettled : ∀ id ∈ settled, nl.Grounded id)
    (h : nl.Exploring inputs settled output path cone) (ht : nl.Threaded path) :
    nl.Explored inputs settled output (nl.explore inputs settled path cone) := by
  fun_induction explore nl inputs settled path cone with
  | case1 cone => exact h
  | case2 node path cone ih => exact ih h.pop ht.of_cons
  | case3 node slots path cone ih =>
    exact ih (h.follow nofun (.refl cone) rfl h.touched h.inputs) ht
  | case4 node link slots path cone cause hk =>
    obtain ⟨name, rfl, hrole, hn⟩ := classified_of_eq hk
    exact .undeclared ⟨hrole, hn, output, List.mem_singleton_self _, h.transGen_head⟩
  | case5 node link slots path cone hk ih =>
    obtain ⟨hg, hi⟩ := classified_of_eq hk
    exact ((hw.role?_of_reads h.reads_head).elim hg hi).elim
  | case6 node link slots path cone hk ih =>
    obtain ⟨hin, hrole⟩ := classified_of_eq hk
    refine ih (h.follow (fun l hl => ?_) ⟨fun _ h => h, fun _ h => h,
      fun _ h => List.mem_cons_of_mem _ h⟩ rfl h.touched ?_) ht
    · obtain rfl := Option.some.inj hl
      exact ⟨.inr (.inr List.mem_cons_self), .intro _ fun source hr =>
        absurd hr (hw.not_reads_of_input hrole)⟩
    · exact List.forall_mem_cons.2
        ⟨⟨hin, hrole, node, h.onPath node List.mem_cons_self, h.reads_head⟩, h.inputs⟩
  | case7 node link slots path cone hk =>
    obtain ⟨hg, hh⟩ := classified_of_eq hk
    exact .stateful (h.behind_head hg) hh
  | case8 node link slots path cone hk hp =>
    obtain ⟨hg, _⟩ := classified_of_eq hk
    exact .feedback (h.behind_head hg) (ht.loop h.reads_head hp)
  | case9 node link slots path cone hk hp hs ih =>
    obtain ⟨hg, _⟩ := classified_of_eq hk
    refine ih (h.follow (fun l hl => ?_) ⟨fun _ h => h, fun _ h => List.mem_cons_of_mem _ h,
      fun _ h => h⟩ rfl ?_ h.inputs) ht
    · obtain rfl := Option.some.inj hl
      exact ⟨.inr (.inl List.mem_cons_self), hsettled _ hs⟩
    · exact List.forall_mem_cons.2 ⟨⟨hs, h.behind_head hg⟩, h.touched⟩
  | case10 node link slots path cone hk hp hs hn ih =>
    refine ih (h.follow (fun l hl => ?_) (.refl cone) rfl h.touched h.inputs) ht
    obtain rfl := Option.some.inj hl
    -- the gate is not on the path, so it is finished
    have hpath : link.node ∉ ((node, some link :: slots) :: path).map (·.1) := fun hm =>
      hp (List.mem_cons.1 hm)
    exact ⟨.inl hn, (h.finished _ (.inr hn) hpath).1⟩
  | case11 node link slots path cone hk hp hs hn ih =>
    obtain ⟨hg, hh⟩ := classified_of_eq hk
    exact ih (h.push hg hh hs hn) (ht.push h.reads_head _ _)

/-- The walk back from an output comes to its end, or is stopped for a reason. -/
theorem explore_explored (hw : nl.WellFormed) (hsettled : ∀ id ∈ settled, nl.Grounded id)
    (output : NodeId) :
    nl.Explored inputs settled output
      (nl.explore inputs settled [(output, nl.slots output)] {}) :=
  (Exploring.start nl inputs settled output).explored hw hsettled (List.pairwise_singleton _ _)

end Netlist

end Breadboard
