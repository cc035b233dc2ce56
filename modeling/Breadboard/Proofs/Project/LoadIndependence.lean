import Breadboard.Proofs.Project.LoadRun

namespace Breadboard

open Relation

namespace Project

variable {r r' : Registry} {d : GateDef} {ds : List GateDef} {entries : List Registered}
  {p p' : Project}

theorem Distinct.perm (h : p.Distinct) (hp : p'.gates.Perm p.gates) : p'.Distinct :=
  (hp.map GateDef.name).nodup_iff.2 h

theorem places_perm (hp : p'.gates.Perm p.gates) : p'.Places = p.Places := by
  funext d d'
  simp only [Places, hp.mem_iff]

theorem loadOrder_eq_ok (hl : p.loadOrder = .ok ds) :
    ds.Perm p.gates ∧ Sequenced ds ∧ p.Distinct ∧ ∀ d, ¬ TransGen p.Places d d := by
  have hdistinct : p.Distinct := by
    by_contra hn
    obtain ⟨_, he, _⟩ := loadOrder_of_not_distinct hn
    rw [hl] at he
    cases he
  obtain ⟨hperm, hsequenced, hacyclic⟩ := hdistinct.sequenced hl
  exact ⟨hperm, hsequenced, hdistinct, hacyclic⟩

theorem loadOrder_eq_error {cause : LoadError} (hl : p.loadOrder = .error cause) :
    ∃ name, cause = .definedTwice name ∨ cause = .recursive name := by
  by_cases h : p.Distinct
  · rcases h.loadOrder_exact with ⟨d, _, he, _⟩ | ⟨_, he, _⟩
    · exact ⟨d.name, .inr (Except.error.inj (hl.symm.trans he))⟩
    · rw [hl] at he
      cases he
  · obtain ⟨name, he, _⟩ := loadOrder_of_not_distinct h
    exact ⟨name, .inl (Except.error.inj (hl.symm.trans he))⟩

/-- A project that has a load order has one in every listing. -/
theorem loadOrder_ok_perm (hp : p'.gates.Perm p.gates) (hl : p.loadOrder = .ok ds) :
    ∃ ds', p'.loadOrder = .ok ds' := by
  obtain ⟨_, _, hdistinct, hacyclic⟩ := loadOrder_eq_ok hl
  rcases (hdistinct.perm hp).loadOrder_exact with ⟨d, _, _, hcycle⟩ | ⟨ds', he, _⟩
  · rw [places_perm hp] at hcycle
    exact absurd hcycle (hacyclic d)
  · exact ⟨ds', he⟩

/-- Definitions are loaded to the gates of a registry in which each of them compiles to the gate
under its name, in whatever order they come. -/
theorem loadAll_of_solution {solution : Registry} (hr : r.Numbered) (hs : Sequenced ds)
    (hfree : r.policy = .reject → ∀ d ∈ ds, r.get? d.name = none)
    (hothers : ∀ name, name ∉ ds.map (·.name) → solution.gate? name = r.gate? name)
    (hsolved : ∀ d ∈ ds, ∃ g, (d.compile solution).value = .ok g ∧ solution.gate? d.name = some g) :
    ∃ entries r', (loadAll ds r).value = (.ok entries, r') ∧
      ∀ name, r'.gate? name = solution.gate? name := by
  induction ds generalizing r with
  | nil => exact ⟨[], r, rfl, fun name => (hothers name List.not_mem_nil).symm⟩
  | cons d ds ih =>
    obtain ⟨⟨g, hg, hd⟩, hsolved⟩ := List.forall_mem_cons.1 hsolved
    have hcompiled : (d.compile r).value = .ok g := by
      rw [← hg, GateDef.compile_congr fun node hn => hothers _ (hs.gateType_notMem hn)]
    have hname : g.name = d.name := GateDef.name_compile hg
    have hregister : r.register g = .ok (⟨g, r.count⟩, r.add g) := by
      rw [Registry.register_eq hr, if_neg]
      rintro ⟨hreject, htaken⟩
      rw [hname, hfree hreject d List.mem_cons_self] at htaken
      cases htaken
    have hfree' : (r.add g).policy = .reject → ∀ d' ∈ ds, (r.add g).get? d'.name = none := by
      intro hreject d' hd'
      have hne : g.name ≠ d'.name := fun he =>
        hs.1 (List.mem_map.2 ⟨d', hd', (hname.symm.trans he).symm⟩)
      rw [Registry.get?_add, if_neg hne]
      exact hfree hreject d' (List.mem_cons_of_mem _ hd')
    have hothers' : ∀ name, name ∉ ds.map (·.name) →
        solution.gate? name = (r.add g).gate? name := by
      intro name hm
      rw [Registry.gate?_add]
      split
      · next he => rw [← he, hname, hd]
      · next hne =>
        refine hothers name ?_
        rw [List.map_cons, List.mem_cons, not_or]
        exact ⟨fun he => hne (hname.trans he.symm), hm⟩
    obtain ⟨entries, r', hrest, hsame⟩ := ih (hr.add g) hs.2.2 hfree' hothers' hsolved
    refine ⟨⟨g, r.count⟩ :: entries, r', ?_, hsame⟩
    rw [loadAll_cons hcompiled hregister, hrest]
    rfl

/-- Names that new gates were registered under were free, unless they may be replaced. -/
theorem free_of_loadAll (hr : r.Numbered) (hs : Sequenced ds)
    (h : (loadAll ds r).value = (.ok entries, r')) (hreject : r.policy = .reject) :
    ∀ d ∈ ds, r.get? d.name = none := by
  induction ds generalizing r entries with
  | nil => exact fun d hd => nomatch hd
  | cons d ds ih =>
    obtain ⟨g, rest, hg, hregister, hrest, rfl⟩ := loadAll_cons_eq_ok h
    have hname : g.name = d.name := GateDef.name_compile hg
    refine List.forall_mem_cons.2 ⟨?_, fun d' hd' => ?_⟩
    · rw [Registry.register_eq hr] at hregister
      split at hregister
      · cases hregister
      · next hfree =>
        rw [hname, not_and, Option.not_isSome_iff_eq_none] at hfree
        exact hfree hreject
    · have hfree := ih (hr.add g) hs.2.2 hrest hreject d' hd'
      rw [Registry.get?_add] at hfree
      split at hfree
      · cases hfree
      · exact hfree

/-- A listing of a project loads to the gates that another one has loaded to. -/
theorem load_ok_perm {final : Registry} (hr : r.Numbered) (hp : p'.gates.Perm p.gates)
    (h : (p.load r).value = (.ok entries, final)) :
    ∃ entries' final', (p'.load r).value = (.ok entries', final') ∧
      ∀ name, final'.gate? name = final.gate? name := by
  cases hl : p.loadOrder with
  | error cause =>
    rw [load_of_loadOrder_error hl] at h
    cases h
  | ok ds =>
    obtain ⟨hperm, hsequenced, _⟩ := loadOrder_eq_ok hl
    obtain ⟨ds', hl'⟩ := loadOrder_ok_perm hp hl
    obtain ⟨hperm', hsequenced', _⟩ := loadOrder_eq_ok hl'
    rw [load_of_loadOrder_ok hl] at h
    have hmem {d : GateDef} : d ∈ ds' ↔ d ∈ ds :=
      (hperm'.trans (hp.trans hperm.symm)).mem_iff
    have hnames {name : String} : name ∉ ds'.map (·.name) ↔ name ∉ ds.map (·.name) := by
      simp only [List.mem_map, hmem]
    have hloaded := loaded_of_loadAll hsequenced h
    rw [load_of_loadOrder_ok hl']
    refine loadAll_of_solution hr hsequenced' ?_ ?_ ?_
    · exact fun hreject d hd => free_of_loadAll hr hsequenced h hreject d (hmem.1 hd)
    · exact fun name hm => Registry.gate?_congr (hloaded.others name (hnames.1 hm))
    · intro d hd
      obtain ⟨entry, hanswered⟩ := hloaded.exists_answered (hmem.1 hd)
      exact ⟨entry.gate, hanswered.compiled, Registry.gate?_of_resolve hanswered.resolved⟩

/-- The listings of a project are loaded or refused together, and to the same gates. After loading
every definition has the gate that it compiles to with the final registry, in which it finds
everything that it placed, and all other names are as before. When a definition fails, those before
it in the load order are what the registry was changed by. -/
theorem load_order_independent {p p' : Project} {r : Registry} (hr : r.Reachable)
    (hp : p'.gates.Perm p.gates) :
    ((∃ entries, (p.load r).value.1 = .ok entries) ↔
      ∃ entries, (p'.load r).value.1 = .ok entries) ∧
    (∀ entries entries' final final', (p.load r).value = (.ok entries, final) →
      (p'.load r).value = (.ok entries', final') →
      ∀ name, (final'.resolve name).map (·.gate) = (final.resolve name).map (·.gate)) ∧
    (∀ entries final, (p.load r).value = (.ok entries, final) →
      ∃ ds, p.loadOrder = .ok ds ∧ ds.Perm p.gates ∧ Loaded r ds entries final) ∧
    (∀ cause final, (p.load r).value = (.error cause, final) →
      (∃ name, cause = .definedTwice name ∨ cause = .recursive name) ∧ final = r ∨
      ∃ ds, p.loadOrder = .ok ds ∧
        ∃ before d entries, Stopped r ds cause final before d entries) := by
  have hforth {p p' : Project} (hp : p'.gates.Perm p.gates)
      (h : ∃ entries, (p.load r).value.1 = .ok entries) :
      ∃ entries, (p'.load r).value.1 = .ok entries := by
    obtain ⟨entries, h⟩ := h
    obtain ⟨entries', _, h', _⟩ := load_ok_perm hr.numbered hp (Prod.ext h rfl)
    exact ⟨entries', congrArg Prod.fst h'⟩
  refine ⟨⟨hforth hp, hforth hp.symm⟩, ?_, ?_, ?_⟩
  · intro entries entries' final final' h h' name
    obtain ⟨_, _, hload, hsame⟩ := load_ok_perm hr.numbered hp h
    obtain ⟨_, rfl⟩ := Prod.mk.inj (h'.symm.trans hload)
    rw [Registry.resolve_eq, Registry.resolve_eq, hsame]
  · intro entries final h
    cases hl : p.loadOrder with
    | error cause =>
      rw [load_of_loadOrder_error hl] at h
      cases h
    | ok ds =>
      obtain ⟨hperm, hsequenced, _⟩ := loadOrder_eq_ok hl
      rw [load_of_loadOrder_ok hl] at h
      exact ⟨ds, rfl, hperm, loaded_of_loadAll hsequenced h⟩
  · intro cause final h
    cases hl : p.loadOrder with
    | error cause' =>
      rw [load_of_loadOrder_error hl] at h
      obtain ⟨ho, rfl⟩ := Prod.mk.inj h
      obtain rfl := Except.error.inj ho
      exact .inl ⟨loadOrder_eq_error hl, rfl⟩
    | ok ds =>
      obtain ⟨_, hsequenced, _⟩ := loadOrder_eq_ok hl
      rw [load_of_loadOrder_ok hl] at h
      exact .inr ⟨ds, rfl, stopped_of_loadAll hsequenced h⟩

/-- An inverter under the name of another gate, listed after a definition that places it. -/
def shadowing : Project where
  gates :=
    [⟨"USER", [{ gateType := "AND" }], [⟨none, 0, some 0, 0, []⟩, ⟨some 0, 0, none, 0, []⟩], ["A"],
        ["Q"], ∅⟩,
      ⟨"AND", [{ gateType := "NOT" }], [⟨none, 0, some 0, 0, []⟩, ⟨some 0, 0, none, 0, []⟩], ["A"],
        ["Q"], ∅⟩]

/-- Both listings replace the standard gate, and the project's own gate is what is placed. -/
theorem load_order_independent_shadowing :
    ∃ entries entries' final final',
      (shadowing.load (.standard .replace)).value = (.ok entries, final) ∧
      (load ⟨shadowing.gates.reverse⟩ (.standard .replace)).value = (.ok entries', final') ∧
      (∀ name, (final'.resolve name).map (·.gate) = (final.resolve name).map (·.gate)) ∧
      ∃ ds, shadowing.loadOrder = .ok ds ∧ ds.Perm shadowing.gates ∧
        Loaded (.standard .replace) ds entries final := by
  have hloads : (shadowing.load (.standard .replace)).value.1.toBool = true := by cbv
  cases ho : (shadowing.load (.standard .replace)).value.1 with
  | error cause => simp [ho, Except.toBool] at hloads
  | ok entries =>
    have hload : (shadowing.load (.standard .replace)).value =
      (.ok entries, (shadowing.load (.standard .replace)).value.2) := Prod.ext ho rfl
    obtain ⟨hiff, hsame, hloaded, _⟩ := @load_order_independent shadowing
      ⟨shadowing.gates.reverse⟩ _ (.standard .replace) (List.reverse_perm _)
    obtain ⟨entries', ho'⟩ := hiff.1 ⟨entries, ho⟩
    exact ⟨entries, entries', _, _, hload, Prod.ext ho' rfl,
      hsame _ _ _ _ hload (Prod.ext ho' rfl), hloaded _ _ hload⟩

end Project

end Breadboard
