import Breadboard.CommandLine.Report
import Breadboard.Proofs.Project.LastLoaded

namespace Breadboard

namespace Report

variable {options : Options} {bytes : Json.Bytes} {p : Project} {loaded : List Registered}
  {registry : Registry}

/-- A project that is loaded has a load order, and its definitions are loaded in it. -/
theorem loadProject_eq_ok (hread : Project.read bytes = .ok p)
    (h : loadProject options (.ok bytes) = .ok (loaded, registry)) :
    ∃ ds policy, p.loadOrder = .ok ds ∧
      Loaded (Registry.standard policy) ds loaded registry := by
  unfold loadProject at h
  dsimp only at h
  rw [hread] at h
  generalize (if options.replace then ConflictPolicy.replace else .reject) = policy at h
  dsimp only at h
  split at h
  · cases h
  · next hload =>
    obtain ⟨rfl, rfl⟩ := Prod.mk.inj (Except.ok.inj h)
    cases hl : p.loadOrder with
    | error cause =>
      rw [Project.load_of_loadOrder_error hl] at hload
      cases hload
    | ok ds =>
      obtain ⟨-, hsequenced, -⟩ := Project.loadOrder_eq_ok hl
      rw [Project.load_of_loadOrder_ok hl] at hload
      exact ⟨ds, policy, rfl, Project.loaded_of_loadAll hsequenced hload⟩

/-- The last definition is answered by the last gate. -/
theorem getLast?_loaded {initial : Registry} {ds : List GateDef} {d : GateDef}
    (h : Loaded initial ds loaded registry) (hd : ds.getLast? = some d) :
    ∃ entry, loaded.getLast? = some entry ∧ Answered registry d entry := by
  have hlength := h.answered.length_eq
  rw [List.getLast?_eq_getElem?] at hd
  obtain ⟨hi, rfl⟩ := List.getElem?_eq_some_iff.1 hd
  have hlast : loaded.getLast? = loaded[ds.length - 1]? := by
    rw [List.getLast?_eq_getElem?, hlength]
  exact ⟨_, hlast.trans (List.getElem?_eq_getElem (hlength ▸ hi)),
    h.answered.get hi (hlength ▸ hi)⟩

theorem make_of_chooseGate {gate : Gate} (creation : Option FileError)
    (hload : loadProject options (.ok bytes) = .ok (loaded, registry))
    (hchosen : chooseGate options loaded registry = .ok gate) :
    (make options (.ok bytes) creation).printed.head? = some (headline gate) := by
  rw [make, hload]
  dsimp only
  rw [hchosen]
  dsimp only
  generalize (if options.truthTable then tableLines gate else ([], none)) = table
  split
  · rfl
  · split <;> rfl

/-- Of a project that is read and loaded, and has a definition, the program inspects by default
what it inspects when the last loaded definition is named. That is the definition at which the
climb ends that starts from the first listed one and goes from each definition to the first listed
one that places it; it is the one listed last where all others are placed. -/
theorem default_gate (creation : Option FileError) (hgate : options.gate = none)
    (hread : Project.read bytes = .ok p) (hne : p.gates ≠ [])
    (hload : loadProject options (.ok bytes) = .ok (loaded, registry)) :
    ∃ d entry, p.Climbs (p.gates.head hne) d ∧
      ((∀ d' ∈ p.gates.dropLast, ∃ user ∈ p.gates, user.Places d') → d = p.gates.getLast hne) ∧
      loaded.getLast? = some entry ∧ Answered registry d entry ∧
      (make options (.ok bytes) creation).printed.head? = some (headline entry.gate) ∧
      make options (.ok bytes) creation =
        make { options with gate := some d.name } (.ok bytes) creation := by
  obtain ⟨ds, policy, horder, hloaded⟩ := loadProject_eq_ok hread hload
  obtain ⟨d, hclimbs, hlast⟩ := Project.climbs_of_loadOrder horder hne
  obtain ⟨entry, hentry, hanswered⟩ := getLast?_loaded hloaded hlast
  have hchosen : chooseGate options loaded registry = .ok entry.gate := by
    rw [chooseGate, hgate, hentry]
  have hnamed : chooseGate { options with gate := some d.name } loaded registry =
      .ok entry.gate := by
    unfold chooseGate
    dsimp only
    rw [hanswered.resolved]
  have hload' : loadProject { options with gate := some d.name } (.ok bytes) =
      .ok (loaded, registry) := hload
  refine ⟨d, entry, hclimbs, hclimbs.eq_getLast (List.head_mem hne), hentry, hanswered,
    make_of_chooseGate creation hload hchosen, ?_⟩
  rw [make, make, hload, hload']
  dsimp only
  rw [hchosen, hnamed]
  rfl

/-- Three gates without pins. The second one places the first one, the third one is on its own. -/
def stackedText : Json.Bytes :=
  ("\x7b\"gates\":[" ++
    "\x7b\"name\":\"X\",\"nodes\":[],\"links\":[],\"inputs\":[],\"outputs\":[]\x7d," ++
    "\x7b\"name\":\"U\",\"nodes\":[\x7b\"gateTypeName\":\"X\"\x7d]," ++
    "\"links\":[],\"inputs\":[],\"outputs\":[]\x7d," ++
    "\x7b\"name\":\"Y\",\"nodes\":[],\"links\":[],\"inputs\":[],\"outputs\":[]\x7d" ++
    "]\x7d").toUTF8.data.toList

/-- What the text says. -/
def stacked : Project where
  gates := [⟨"X", [], [], [], [], ∅⟩, ⟨"U", [⟨"X", []⟩], [], [], [], ∅⟩, ⟨"Y", [], [], [], [], ∅⟩]

set_option maxRecDepth 2000 in
theorem read_stacked : Project.read stackedText = .ok stacked := by cbv

theorem loadProject_stacked (gate : Option String) :
    loadProject { project := "project.json", gate } (.ok stackedText) =
      match (stacked.load (.standard .reject)).value with
      | (.error cause, _) => .error (.notLoaded cause)
      | (.ok loaded, registry) => .ok (loaded, registry) := by
  unfold loadProject
  dsimp only
  rw [read_stacked]
  rfl

/-- The second gate is the first one to place the gate that is listed first. -/
theorem default_gate_stacked :
    ∃ loaded registry d entry,
      loadProject { project := "project.json" } (.ok stackedText) = .ok (loaded, registry) ∧
      stacked.Climbs (stacked.gates.head nofun) d ∧ d.name = "U" ∧
      loaded.getLast? = some entry ∧ Answered registry d entry ∧
      make { project := "project.json" } (.ok stackedText) none =
        make { project := "project.json", gate := some d.name } (.ok stackedText) none := by
  have hnames : (stacked.load (.standard .reject)).value.1.map
      (fun loaded => loaded.map (·.gate.name)) = .ok ["Y", "X", "U"] := by cbv
  cases hload : (stacked.load (.standard .reject)).value.1 with
  | error cause =>
    rw [hload] at hnames
    cases hnames
  | ok loaded =>
    rw [hload] at hnames
    replace hnames : loaded.map (·.gate.name) = ["Y", "X", "U"] := Except.ok.inj hnames
    have hproject : loadProject { project := "project.json" } (.ok stackedText) =
        .ok (loaded, (stacked.load (.standard .reject)).value.2) := by
      rw [loadProject_stacked, ← Prod.eta (stacked.load (.standard .reject)).value, hload]
    obtain ⟨d, entry, hclimbs, -, hlast, hanswered, -, hsame⟩ :=
      default_gate none rfl read_stacked nofun hproject
    have hname : d.name = "U" := by
      have hlastName : (loaded.map (·.gate.name)).getLast? = some d.name := by
        rw [List.getLast?_map, hlast, Option.map_some, GateDef.name_compile hanswered.compiled]
      rw [hnames] at hlastName
      exact (Option.some.inj hlastName).symm
    exact ⟨loaded, _, d, entry, hproject, hclimbs, hname, hlast, hanswered, hsame⟩

/-- The gate that is listed last is not the one that the program inspects when none is named. -/
theorem default_gate_not_last :
    Project.read stackedText = .ok stacked ∧ stacked.gates.getLast?.map (·.name) = some "Y" ∧
      (make { project := "project.json" } (.ok stackedText) none).printed =
        ["Gate U: 0 inputs, 0 outputs, table-driven."] ∧
      (make { project := "project.json", gate := some "Y" } (.ok stackedText) none).printed =
        ["Gate Y: 0 inputs, 0 outputs, table-driven."] := by
  refine ⟨read_stacked, rfl, ?_, ?_⟩
  · rw [make, loadProject_stacked]
    cbv
  · rw [make, loadProject_stacked]
    cbv

end Report

end Breadboard
