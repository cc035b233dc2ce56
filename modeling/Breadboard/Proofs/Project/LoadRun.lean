import Breadboard.Proofs.Project.LoadOrder
import Breadboard.Proofs.Project.Registering

namespace Breadboard

open Relation

/-- Definitions with names of their own, none of which places itself or a later one. -/
def Sequenced : List GateDef → Prop
  | [] => True
  | d :: ds => d.name ∉ ds.map (·.name) ∧ (∀ d' ∈ d :: ds, ¬ d.Places d') ∧ Sequenced ds

/-- What a definition has to do with the entry that loading it answered. -/
structure Answered (final : Registry) (d : GateDef) (entry : Registered) : Prop where
  resolved : final.resolve d.name = .ok entry
  compiled : (d.compile final).value = .ok entry.gate

/-- What compiling and registering a list of definitions has made of a registry. -/
structure Loaded (initial : Registry) (ds : List GateDef) (entries : List Registered)
    (final : Registry) : Prop where
  registry : final = initial.addAll (entries.map (·.gate))
  answered : List.Forall₂ (Answered final) ds entries
  others : ∀ name, name ∉ ds.map (·.name) → final.resolve name = initial.resolve name
  placed : ∀ before d after, ds = before ++ d :: after → ∀ node ∈ d.nodes,
    (Project.loadAll before initial).value.2.resolve node.gateType = final.resolve node.gateType

/-- Where loading has stopped: the definitions before it are loaded, and one fails to compile, or
its gate is refused, with the registry that they made. -/
structure Stopped (initial : Registry) (ds : List GateDef) (cause : LoadError)
    (final : Registry) (before : List GateDef) (d : GateDef) (entries : List Registered) :
    Prop where
  precede : ∃ after, ds = before ++ d :: after
  loadAll : (Project.loadAll before initial).value = (.ok entries, final)
  loaded : Loaded initial before entries final
  failed : (∃ e, (d.compile final).value = .error e ∧ cause = .definition e) ∨
    ∃ g e, (d.compile final).value = .ok g ∧ final.register g = .error e ∧ cause = .registration e

/-- The calls of compiling definitions one after another with what a registry holds, the latest
first. -/
def compileCalls (r : Registry) (ds : List GateDef) : List Nat :=
  ds.reverse.flatMap fun d => (d.compile r).calls

theorem compileCalls_cons (r : Registry) (d : GateDef) (ds : List GateDef) :
    compileCalls r (d :: ds) = compileCalls r ds ++ (d.compile r).calls := by
  simp [compileCalls]

theorem compileCalls_concat (r : Registry) (ds : List GateDef) (d : GateDef) :
    compileCalls r (ds ++ [d]) = (d.compile r).calls ++ compileCalls r ds := by
  simp [compileCalls]

theorem Loaded.exists_answered {initial final : Registry} {ds : List GateDef}
    {entries : List Registered} (h : Loaded initial ds entries final) {d : GateDef} (hd : d ∈ ds) :
    ∃ entry, Answered final d entry := by
  obtain ⟨i, hi, rfl⟩ := List.getElem_of_mem hd
  exact ⟨_, h.answered.get hi (h.answered.length_eq ▸ hi)⟩

section sequenced

variable {d : GateDef} {before ds : List GateDef}

theorem sequenced_of_forward (hn : (ds.map (·.name)).Nodup)
    (hp : ∀ before d after, ds = before ++ d :: after → ∀ d' ∈ ds, d.Places d' → d' ∈ before) :
    Sequenced ds := by
  have hsuffix : ∀ before rest, ds = before ++ rest → Sequenced rest := by
    intro before rest
    induction rest generalizing before with
    | nil => exact fun _ => trivial
    | cons d rest ih =>
      intro hsplit
      have hnames := hn
      rw [hsplit, List.map_append, List.nodup_append'] at hnames
      obtain ⟨_, hnodup, hdisjoint⟩ := hnames
      refine ⟨(List.nodup_cons.1 hnodup).1, ?_, ih (before ++ [d]) (by simp [hsplit])⟩
      intro d' hd' hplaces
      have hmem : d' ∈ ds := hsplit ▸ List.mem_append_right _ hd'
      have hbefore := hp before d rest hsplit d' hmem hplaces
      exact hdisjoint (List.mem_map_of_mem hbefore) (List.mem_map_of_mem hd')
  exact hsuffix [] ds rfl

theorem Sequenced.of_append {after : List GateDef} (h : Sequenced (ds ++ after)) :
    Sequenced ds := by
  induction ds with
  | nil => trivial
  | cons d ds ih =>
    obtain ⟨hname, hplaces, hrest⟩ := h
    refine ⟨fun hm => hname ?_, fun d' hd' => hplaces d' ?_, ih hrest⟩
    · obtain ⟨d', hd', he⟩ := List.mem_map.1 hm
      exact List.mem_map.2 ⟨d', List.mem_append_left after hd', he⟩
    · exact List.mem_append_left after hd'

/-- The first definition places no name that it or a later one gives. -/
theorem Sequenced.gateType_notMem (h : Sequenced (d :: ds)) {node : NodeDef}
    (hn : node ∈ d.nodes) : node.gateType ∉ (d :: ds).map (·.name) := by
  intro hm
  obtain ⟨d', hd', he⟩ := List.mem_map.1 hm
  exact h.2.1 d' hd' ⟨node, hn, he.symm⟩

end sequenced

namespace Project

variable {r r' : Registry} {d : GateDef} {ds : List GateDef} {entries : List Registered}
  {p : Project}

theorem Distinct.sequenced (h : p.Distinct) (hl : p.loadOrder = .ok ds) :
    ds.Perm p.gates ∧ Sequenced ds ∧ ∀ d, ¬ TransGen p.Places d d := by
  rcases h.loadOrder_exact with ⟨_, _, he, _⟩ | ⟨ds', he, hperm, hbefore, hacyclic⟩
  · rw [hl] at he
    cases he
  · rw [hl] at he
    obtain rfl := Except.ok.inj he
    refine ⟨hperm, sequenced_of_forward ((hperm.map GateDef.name).nodup_iff.2 h) ?_, hacyclic⟩
    intro before d after hsplit d' hd' hplaces
    have hd : d ∈ ds := hsplit ▸ List.mem_append_right _ List.mem_cons_self
    exact hbefore before d after hsplit d' ⟨hperm.subset hd, hperm.subset hd', hplaces⟩

/-- Definitions are compiled and registered in turn, which finds no name and no cycle at fault. -/
theorem loadAll_error {ds : List GateDef} {cause : LoadError}
    (h : (loadAll ds registry).value.1 = .error cause) :
    (∀ name, cause ≠ .definedTwice name) ∧ ∀ name, cause ≠ .recursive name := by
  induction ds generalizing registry with
  | nil => cases h
  | cons d ds ih =>
    rw [loadAll] at h
    split at h
    · obtain rfl := Except.error.inj h
      exact ⟨nofun, nofun⟩
    · split at h
      · obtain rfl := Except.error.inj h
        exact ⟨nofun, nofun⟩
      · next registry' _ =>
        cases hrest : (loadAll ds registry').value.1 with
        | error cause' =>
          dsimp only at h
          rw [hrest] at h
          obtain rfl := Except.error.inj h
          exact ih hrest
        | ok entries =>
          dsimp only at h
          rw [hrest] at h
          cases h

theorem loadAll_cons_eq_ok (h : (loadAll (d :: ds) r).value = (.ok entries, r')) :
    ∃ g rest, (d.compile r).value = .ok g ∧ r.register g = .ok (⟨g, r.count⟩, r.add g) ∧
      (loadAll ds (r.add g)).value = (.ok rest, r') ∧ entries = ⟨g, r.count⟩ :: rest := by
  rw [loadAll] at h
  dsimp only at h
  split at h
  · cases h
  · next g hg =>
    cases hregister : r.register g with
    | error e =>
      rw [hregister] at h
      cases h
    | ok added =>
      obtain ⟨entry, next⟩ := added
      obtain ⟨rfl, rfl⟩ := Registry.register_eq_ok hregister
      rw [hregister] at h
      obtain ⟨ho, rfl⟩ := Prod.mk.inj h
      cases hrest : (loadAll ds (r.add g)).value.1 with
      | error cause =>
        rw [hrest] at ho
        cases ho
      | ok rest =>
        rw [hrest] at ho
        obtain rfl := Except.ok.inj ho
        exact ⟨g, rest, hg, hregister, Prod.ext hrest rfl, rfl⟩

theorem loadAll_cons {g : Gate} (hg : (d.compile r).value = .ok g)
    (hregister : r.register g = .ok (⟨g, r.count⟩, r.add g)) :
    loadAll (d :: ds) r =
      ⟨((loadAll ds (r.add g)).value.1.map (⟨g, r.count⟩ :: ·), (loadAll ds (r.add g)).value.2),
        (loadAll ds (r.add g)).calls ++ (d.compile r).calls⟩ := by
  rw [loadAll]
  dsimp only
  rw [hg]
  dsimp only
  rw [hregister]

/-- What is known of a loaded list of definitions, by induction on it: each definition reads of
the registry only what no later one changes. -/
theorem loaded_of_loadAll (hs : Sequenced ds)
    (h : (loadAll ds r).value = (.ok entries, r')) : Loaded r ds entries r' := by
  induction ds generalizing r entries with
  | nil =>
    obtain ⟨ho, rfl⟩ := Prod.mk.inj h
    obtain rfl := Except.ok.inj ho
    exact ⟨rfl, .nil, fun _ _ => rfl, fun before d after hsplit => by simp at hsplit⟩
  | cons d ds ih =>
    obtain ⟨g, rest, hg, hregister, hrest, rfl⟩ := loadAll_cons_eq_ok h
    have hname : g.name = d.name := GateDef.name_compile hg
    have hloaded := ih hs.2.2 hrest
    have hadded {name : String} (hne : name ≠ d.name) :
        (r.add g).resolve name = r.resolve name := by
      refine Registry.resolve_congr ?_
      rw [Registry.get?_add, if_neg (hname ▸ hne.symm)]
    have hothers : ∀ name, name ∉ (d :: ds).map (·.name) → r'.resolve name = r.resolve name := by
      intro name hm
      rw [List.map_cons, List.mem_cons, not_or] at hm
      exact (hloaded.others name hm.2).trans (hadded hm.1)
    have hsame {node : NodeDef} (hn : node ∈ d.nodes) :
        r'.resolve node.gateType = r.resolve node.gateType :=
      hothers _ (hs.gateType_notMem hn)
    have hresolved : r'.resolve d.name = .ok ⟨g, r.count⟩ := by
      rw [hloaded.others _ hs.1, Registry.resolve_eq_ok, Registry.get?_add, if_pos hname]
    have hcompiled : (d.compile r').value = .ok g := by
      rw [GateDef.compile_congr fun node hn => Registry.gate?_congr (hsame hn), hg]
    refine ⟨hloaded.registry, .cons ⟨hresolved, hcompiled⟩ hloaded.answered, hothers, ?_⟩
    intro before d' after hsplit node hn
    rcases List.cons_eq_append_iff.1 hsplit with ⟨rfl, he⟩ | ⟨before', rfl, he⟩
    · obtain ⟨rfl, rfl⟩ := List.cons.inj he
      exact (hsame hn).symm
    · rw [loadAll_cons hg hregister]
      exact hloaded.placed before' d' after he node hn

/-- Loading that fails has loaded some definitions, and failed at the next. -/
theorem split_of_loadAll {cause : LoadError}
    (h : (loadAll ds r).value = (.error cause, r')) :
    ∃ before d entries after, ds = before ++ d :: after ∧
      (loadAll before r).value = (.ok entries, r') ∧
      ((∃ e, (d.compile r').value = .error e ∧ cause = .definition e) ∨
        ∃ g e, (d.compile r').value = .ok g ∧ r'.register g = .error e ∧
          cause = .registration e) := by
  induction ds generalizing r with
  | nil => cases h
  | cons d ds ih =>
    rw [loadAll] at h
    dsimp only at h
    split at h
    · next e he =>
      obtain ⟨ho, rfl⟩ := Prod.mk.inj h
      exact ⟨[], d, [], ds, rfl, rfl, .inl ⟨e, he, (Except.error.inj ho).symm⟩⟩
    · next g hg =>
      cases hregister : r.register g with
      | error e =>
        rw [hregister] at h
        obtain ⟨ho, rfl⟩ := Prod.mk.inj h
        exact ⟨[], d, [], ds, rfl, rfl, .inr ⟨g, e, hg, hregister, (Except.error.inj ho).symm⟩⟩
      | ok added =>
        obtain ⟨entry, next⟩ := added
        obtain ⟨rfl, rfl⟩ := Registry.register_eq_ok hregister
        rw [hregister] at h
        obtain ⟨ho, rfl⟩ := Prod.mk.inj h
        cases hrest : (loadAll ds (r.add g)).value.1 with
        | ok rest =>
          rw [hrest] at ho
          cases ho
        | error cause' =>
          rw [hrest] at ho
          obtain rfl := Except.error.inj ho
          obtain ⟨before, d', entries, after, rfl, hbefore, hfailed⟩ :=
            ih (Prod.ext hrest rfl)
          refine ⟨d :: before, d', ⟨g, r.count⟩ :: entries, after, rfl, ?_, hfailed⟩
          rw [loadAll_cons hg hregister, hbefore]
          rfl

theorem stopped_of_loadAll {cause : LoadError} (hs : Sequenced ds)
    (h : (loadAll ds r).value = (.error cause, r')) :
    ∃ before d entries, Stopped r ds cause r' before d entries := by
  obtain ⟨before, d, entries, after, rfl, hbefore, hfailed⟩ := split_of_loadAll h
  exact ⟨before, d, entries, ⟨after, rfl⟩, hbefore, loaded_of_loadAll hs.of_append hbefore,
    hfailed⟩

/-- Every definition was compiled once. What it placed has not changed since, so the calls are those
that the last registry gives. -/
theorem calls_of_loadAll (hs : Sequenced ds) (h : (loadAll ds r).value = (.ok entries, r')) :
    (loadAll ds r).calls = compileCalls r' ds := by
  induction ds generalizing r entries with
  | nil => rfl
  | cons d ds ih =>
    obtain ⟨g, rest, hg, hregister, hrest, -⟩ := loadAll_cons_eq_ok h
    have hplaced := (loaded_of_loadAll hs h).placed [] d ds rfl
    have hcompile : d.compile r = d.compile r' :=
      GateDef.compile_congr fun node hn => Registry.gate?_congr (hplaced node hn)
    rw [loadAll_cons hg hregister, compileCalls_cons, ← ih hs.2.2 hrest, hcompile]

theorem calls_loadAll_append {before after : List GateDef}
    (h : (loadAll before r).value = (.ok entries, r')) :
    (loadAll (before ++ after) r).calls = (loadAll after r').calls ++ (loadAll before r).calls := by
  induction before generalizing r entries with
  | nil =>
    obtain ⟨-, rfl⟩ := Prod.mk.inj h
    exact (List.append_nil _).symm
  | cons d before ih =>
    obtain ⟨g, rest, hg, hregister, hrest, -⟩ := loadAll_cons_eq_ok h
    rw [List.cons_append, loadAll_cons hg hregister, loadAll_cons hg hregister, ih hrest,
      List.append_assoc]

/-- The definition that failed was compiled too, and none after it. -/
theorem calls_of_stopped {cause : LoadError} {before : List GateDef} (hs : Sequenced ds)
    (h : Stopped r ds cause r' before d entries) :
    (loadAll ds r).calls = compileCalls r' (before ++ [d]) := by
  obtain ⟨⟨after, rfl⟩, hbefore, -, hfailed⟩ := h
  have hlast : (loadAll (d :: after) r').calls = (d.compile r').calls := by
    rw [loadAll]
    rcases hfailed with ⟨e, he, -⟩ | ⟨g, e, hg, he, -⟩
    · simp only [he]
    · simp only [hg, he]
  rw [calls_loadAll_append hbefore, hlast, compileCalls_concat,
    calls_of_loadAll hs.of_append hbefore]

/-- A project with a name that is defined twice is refused for such a name, and else one in which
definitions place each other in a cycle is refused for one on a cycle; nothing is compiled or
registered then. All other projects are compiled and registered in an order in which each definition
comes after those that it places: all of them, or up to the first that fails. -/
theorem load_order_exact (p : Project) (registry : Registry) :
    ((∃ name, (p.load registry).value.1 = .error (.definedTwice name)) ↔ ¬ p.Distinct) ∧
    (p.Distinct → ((∃ name, (p.load registry).value.1 = .error (.recursive name)) ↔
      ∃ d, TransGen p.Places d d)) ∧
    (∀ name, (p.load registry).value.1 = .error (.definedTwice name) →
      List.Duplicate name (p.gates.map (·.name)) ∧
        p.load registry = ⟨(.error (.definedTwice name), registry), []⟩) ∧
    (∀ name, (p.load registry).value.1 = .error (.recursive name) →
      (∃ d, d.name = name ∧ TransGen p.Places d d) ∧
        p.load registry = ⟨(.error (.recursive name), registry), []⟩) ∧
    (p.Distinct → (∀ d, ¬ TransGen p.Places d d) →
      ∃ ds, p.load registry = loadAll ds registry ∧ ds.Perm p.gates ∧
        (∀ before d after, ds = before ++ d :: after → ∀ d', p.Places d d' → d' ∈ before) ∧
        (∀ entries final, (p.load registry).value = (.ok entries, final) →
          Loaded registry ds entries final ∧ (p.load registry).calls = compileCalls final ds) ∧
        ∀ cause final, (p.load registry).value = (.error cause, final) →
          ∃ before d entries, Stopped registry ds cause final before d entries ∧
            (p.load registry).calls = compileCalls final (before ++ [d])) := by
  by_cases h : p.Distinct
  · rcases h.loadOrder_exact with ⟨d, _, hl, hd⟩ | ⟨ds, hl, hperm, hbefore, hacyclic⟩
    · have hload := load_of_loadOrder_error hl registry
      simp only [hload, Except.error.injEq, LoadError.recursive.injEq, reduceCtorEq, exists_false,
        false_iff, not_not, false_implies, implies_true, true_and]
      refine ⟨h, fun _ => ⟨fun _ => ⟨d, hd⟩, fun _ => ⟨d.name, rfl⟩⟩, ?_, ?_⟩
      · intro name hname
        exact ⟨⟨d, hname, hd⟩, by rw [hname]⟩
      · exact fun _ hnone => absurd hd (hnone d)
    · have hload := load_of_loadOrder_ok hl registry
      have htwice : ∀ name, (p.load registry).value.1 ≠ .error (.definedTwice name) := by
        intro name he
        rw [hload] at he
        exact (loadAll_error he).1 name rfl
      have hrecursive : ∀ name, (p.load registry).value.1 ≠ .error (.recursive name) := by
        intro name he
        rw [hload] at he
        exact (loadAll_error he).2 name rfl
      refine ⟨⟨fun ⟨name, he⟩ => absurd he (htwice name), fun hn => absurd h hn⟩, ?_,
        fun name he => absurd he (htwice name), fun name he => absurd he (hrecursive name), ?_⟩
      · intro _
        exact ⟨fun ⟨name, he⟩ => absurd he (hrecursive name), fun ⟨d, hd⟩ => absurd hd (hacyclic d)⟩
      · intro _ _
        obtain ⟨_, hsequenced, _⟩ := h.sequenced hl
        refine ⟨ds, hload, hperm, hbefore, ?_, ?_⟩
        · intro entries final hrun
          rw [hload] at hrun ⊢
          exact ⟨loaded_of_loadAll hsequenced hrun, calls_of_loadAll hsequenced hrun⟩
        · intro cause final hrun
          rw [hload] at hrun ⊢
          obtain ⟨before, d, entries, hstopped⟩ := stopped_of_loadAll hsequenced hrun
          exact ⟨before, d, entries, hstopped, calls_of_stopped hsequenced hstopped⟩
  · obtain ⟨name, hl, hdup⟩ := loadOrder_of_not_distinct h
    have hload := load_of_loadOrder_error hl registry
    simp only [hload, Except.error.injEq, LoadError.definedTwice.injEq, reduceCtorEq,
      exists_eq', h, not_false_eq_true, false_implies, implies_true, true_and, and_true]
    intro name' he
    exact he ▸ ⟨hdup, rfl⟩

/-- An inverter of an inverter, listed before the inverter that it places. -/
def layered : Project where
  gates :=
    [⟨"TWICE", [{ gateType := "INV" }, { gateType := "INV" }],
        [⟨none, 0, some 0, 0, []⟩, ⟨some 0, 0, some 1, 0, []⟩, ⟨some 1, 0, none, 0, []⟩], ["A"],
        ["Q"], ∅⟩,
      ⟨"INV", [{ gateType := "NOT" }], [⟨none, 0, some 0, 0, []⟩, ⟨some 0, 0, none, 0, []⟩], ["A"],
        ["Q"], ∅⟩]

/-- Two definitions that place each other, after one that places both and itself. -/
def entangled : Project where
  gates :=
    [⟨"C", [{ gateType := "A" }, { gateType := "B" }, { gateType := "C" }], [], [], [], ∅⟩,
      ⟨"A", [{ gateType := "B" }], [], [], [], ∅⟩, ⟨"B", [{ gateType := "A" }], [], [], [], ∅⟩]

/-- The inverter is loaded first, and one project is refused for a definition on one of its two
cycles. -/
theorem load_order_exact_layered :
    (layered.Distinct ∧ ∃ ds entries final,
      (layered.load (.standard .reject)).value = (.ok entries, final) ∧
        entries.map (·.gate.name) = ["INV", "TWICE"] ∧ ds.Perm layered.gates ∧
        Loaded (.standard .reject) ds entries final ∧
        (layered.load (.standard .reject)).calls = compileCalls final ds) ∧
    entangled.Distinct ∧ ∃ name,
      (entangled.load (.empty .reject)).value.1 = .error (.recursive name) ∧
        ∃ d, d.name = name ∧ TransGen entangled.Places d d := by
  have hnames : (layered.load (.standard .reject)).value.1.toOption.map
      (·.map (·.gate.name)) = some ["INV", "TWICE"] := by cbv
  have hlayered : layered.Distinct := by
    unfold Distinct
    decide
  have hentangled : entangled.Distinct := by
    unfold Distinct
    decide
  have hself : entangled.Places entangled.gates[0] entangled.gates[0] :=
    ⟨List.mem_cons_self, List.mem_cons_self, { gateType := "C" }, by simp [entangled], rfl⟩
  obtain ⟨_, hcycle, _, _, hloads⟩ := load_order_exact layered (.standard .reject)
  obtain ⟨_, hcycle', _, hnamed, _⟩ := load_order_exact entangled (.empty .reject)
  refine ⟨⟨hlayered, ?_⟩, hentangled, ?_⟩
  · cases ho : (layered.load (.standard .reject)).value.1 with
    | error cause => simp [ho, Except.toOption] at hnames
    | ok entries =>
      have hacyclic : ∀ d, ¬ TransGen layered.Places d d := by
        intro d hd
        obtain ⟨name, he⟩ := (hcycle hlayered).2 ⟨d, hd⟩
        cases ho.symm.trans he
      obtain ⟨ds, -, hperm, -, hloaded, -⟩ := hloads hlayered hacyclic
      obtain ⟨hrun, hcalls⟩ := hloaded entries _ (Prod.ext ho rfl)
      refine ⟨ds, entries, _, Prod.ext ho rfl, ?_, hperm, hrun, hcalls⟩
      simpa [ho, Except.toOption] using hnames
  · obtain ⟨name, he⟩ := (hcycle' hentangled).2 ⟨_, .single hself⟩
    exact ⟨name, he, (hnamed name he).1⟩

end Project

end Breadboard
