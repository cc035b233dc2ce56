import Breadboard.Project.Printer
import Breadboard.Project.Reader
import Breadboard.Proofs.Json.Reading

namespace Breadboard

open Json

/-- The properties of a node that only editors use, as they can be read. -/
structure NodeDef.Fits (levels : Nat) (d : NodeDef) : Prop where
  ascending : Ascending d.extra
  other : "gateTypeName" ∉ d.extra.map (·.1)
  extra : ∀ e ∈ d.extra, e.2.Fits levels

/-- Positions are numbers of 64 bits. -/
structure LinkDef.Fits (d : LinkDef) : Prop where
  node : ∀ n ∈ d.node, n ≤ maxSignificand
  index : d.index ≤ maxSignificand
  dest : ∀ n ∈ d.dest, n ≤ maxSignificand
  inIndex : d.inIndex ≤ maxSignificand

structure Metadata.Fits (levels : Nat) (metadata : Metadata) : Prop where
  names : metadata.names.Nodup
  values : ∀ e ∈ metadata.entries, e.2.Fits levels

structure GateDef.Fits (levels : Nat) (d : GateDef) : Prop where
  nodes : ∀ n ∈ d.nodes, n.Fits (levels + 1)
  links : ∀ l ∈ d.links, l.Fits
  metadata : d.metadata.Fits (levels + 2)

section yields

variable {σ α : Type} {I : σ → Prop} {P : α → Prop} {levels : Nat}

theorem yields_storedField {name : String} {optional : Bool} {get : σ → Option α}
    {set : σ → α → σ} {reader : Nat → Reader α} (hy : Yields (reader levels) P)
    (hset : ∀ state a, I state → P a → I (set state a)) (state : σ) (hi : I state) :
    Yields ((storedField name optional get set reader).read levels state) I :=
  hy.map fun a ha => hset state a hi ha

theorem yields_text : Yields text fun _ => True := fun _ _ _ _ => trivial

/-- The properties of a node under construction. -/
structure NodeDraft.Fits (levels : Nat) (d : NodeDraft) : Prop where
  other : "gateTypeName" ∉ d.extra.map (·.1)
  extra : ∀ e ∈ d.extra, e.2.Fits levels

theorem yields_node : Yields (NodeDef.reader (levels + 1)) (NodeDef.Fits levels) := by
  have hkeeps : Keeps (NodeDraft.announce levels) (NodeDraft.Fits levels) := by
    intro draft key reader hi ha
    unfold NodeDraft.announce at ha
    split at ha
    · split at ha
      · cases ha
      · obtain rfl := Except.ok.inj ha
        have hset : ∀ name, True → NodeDraft.Fits levels { draft with gateType := some name } :=
          fun _ _ => ⟨hi.other, hi.extra⟩
        exact yields_text.map hset
    · next hkey =>
      obtain rfl := Except.ok.inj ha
      have hset : ∀ v : Value, v.Fits levels →
          NodeDraft.Fits levels { draft with extra := (key, v) :: draft.extra } := by
        refine fun v hv => ⟨?_, List.forall_mem_cons.2 ⟨hv, hi.extra⟩⟩
        rw [List.map_cons, List.mem_cons, not_or]
        exact ⟨fun he => hkey he.symm, hi.other⟩
      exact (yields_value levels).map hset
  have hstart : NodeDraft.Fits levels {} := ⟨List.not_mem_nil, fun _ he => nomatch he⟩
  intro bytes d rest h
  unfold NodeDef.reader at h
  split at h
  · cases h
  · next draft _ hdraft =>
    have hfits := yields_mapOf _ hkeeps hstart _ _ _ hdraft
    split at h
    · cases h
    · obtain ⟨rfl, rfl⟩ := Prod.mk.inj (Except.ok.inj h)
      have hmem {e : String × Value} (he : e ∈ sortFields draft.extra.reverse) : e ∈ draft.extra :=
        List.mem_reverse.1 (mem_sortFields he)
      refine ⟨ascending_sortFields _, fun hm => hfits.other ?_, fun e he => hfits.extra e (hmem he)⟩
      obtain ⟨e, he, hkey⟩ := List.mem_map.1 hm
      exact List.mem_map.2 ⟨e, hmem he, hkey⟩

/-- The numbers of a link under construction. -/
structure LinkDraft.Fits (d : LinkDraft) : Prop where
  node : ∀ n ∈ d.node.join, n ≤ maxSignificand
  index : ∀ n ∈ d.index, n ≤ maxSignificand
  dest : ∀ n ∈ d.dest.join, n ≤ maxSignificand
  inIndex : ∀ n ∈ d.inIndex, n ≤ maxSignificand

theorem getD_le {n : Option Nat} (h : ∀ m ∈ n, m ≤ maxSignificand) : n.getD 0 ≤ maxSignificand := by
  cases n with
  | none => exact Nat.zero_le _
  | some m => exact h m rfl

theorem yields_link : Yields (LinkDef.reader (levels + 1)) LinkDef.Fits := by
  have hfields : ∀ field ∈ LinkDraft.fields, ∀ d : LinkDraft, d.Fits →
      Yields (field.read levels d) LinkDraft.Fits := by
    simp only [LinkDraft.fields, List.forall_mem_cons]
    refine ⟨yields_storedField yields_optionalNatural fun d a hd ha => ?_,
      yields_storedField yields_natural fun d a hd ha => ?_,
      yields_storedField yields_optionalNatural fun d a hd ha => ?_,
      yields_storedField yields_natural fun d a hd ha => ?_,
      yields_storedField (P := fun _ => True) (fun _ _ _ _ => trivial) fun d a hd ha => ?_,
      fun _ hf => nomatch hf⟩
    · exact { hd with node := ha }
    · exact { hd with index := fun n hn => Option.some.inj hn ▸ ha }
    · exact { hd with dest := ha }
    · exact { hd with inIndex := fun n hn => Option.some.inj hn ▸ ha }
    · exact ⟨hd.node, hd.index, hd.dest, hd.inIndex⟩
  refine (yields_record _ hfields ⟨?_, ?_, ?_, ?_⟩).map fun d hd =>
    ⟨hd.node, getD_le hd.index, hd.dest, getD_le hd.inIndex⟩
  all_goals exact fun n hn => nomatch hn

theorem mem_put {name : String} {a : α} {entries : List (String × α)} {e : String × α}
    (h : e ∈ Named.put name a entries) : e = (name, a) ∨ e ∈ entries := by
  induction entries with
  | nil => exact .inl (List.mem_singleton.1 h)
  | cons first entries ih =>
    rw [Named.put] at h
    split at h
    · exact (List.mem_cons.1 h).imp_right (List.mem_cons_of_mem _)
    · rcases List.mem_cons.1 h with rfl | h
      · exact .inr List.mem_cons_self
      · exact (ih h).imp_right (List.mem_cons_of_mem _)

theorem Metadata.Fits.insert {metadata : Metadata} (h : metadata.Fits levels) {v : Value}
    (hv : v.Fits levels) (key : String) : Metadata.Fits levels (metadata.insert key v) := by
  refine ⟨?_, fun e he => ?_⟩
  · rw [Named.names_insert]
    split
    · exact h.names
    · next hfresh =>
      have hne : ∀ name ∈ metadata.names, ∀ name' ∈ [key], name ≠ name' := by
        rintro name hname name' hname' rfl
        exact hfresh (List.mem_singleton.1 hname' ▸ hname)
      exact List.nodup_append.2 ⟨h.names, by simp, hne⟩
  · rcases mem_put he with rfl | he
    · exact hv
    · exact h.values e he

theorem yields_metadata : Yields (Metadata.reader (levels + 1)) (Metadata.Fits levels) := by
  refine yields_mapOf _ (fun metadata key reader hi ha => ?_)
    ⟨List.nodup_nil, fun _ he => nomatch he⟩
  obtain rfl := Except.ok.inj ha
  have hset : ∀ v : Value, v.Fits levels → Metadata.Fits levels (metadata.insert key v) :=
    fun v hv => Metadata.Fits.insert hi hv key
  exact (yields_value levels).map hset

/-- The parts of a gate under construction. -/
structure GateDraft.Fits (levels : Nat) (d : GateDraft) : Prop where
  nodes : ∀ ns ∈ d.nodes, ∀ n ∈ ns, n.Fits (levels + 1)
  links : ∀ ls ∈ d.links, ∀ l ∈ ls, l.Fits
  metadata : ∀ m ∈ d.metadata, m.Fits (levels + 2)

theorem yields_gate : Yields (GateDef.reader (levels + 4)) (GateDef.Fits levels) := by
  have hfields : ∀ field ∈ GateDraft.fields, ∀ d : GateDraft, d.Fits levels →
      Yields (field.read (levels + 3) d) (GateDraft.Fits levels) := by
    simp only [GateDraft.fields, List.forall_mem_cons]
    refine ⟨yields_storedField (P := fun _ => True) (fun _ _ _ _ => trivial) fun d a hd ha => ?_,
      yields_storedField (yields_listOf yields_node) fun d a hd ha => ?_,
      yields_storedField (yields_listOf yields_link) fun d a hd ha => ?_,
      yields_storedField (P := fun _ => True) (fun _ _ _ _ => trivial) fun d a hd ha => ?_,
      yields_storedField (P := fun _ => True) (fun _ _ _ _ => trivial) fun d a hd ha => ?_,
      yields_storedField yields_metadata fun d a hd ha => ?_, fun _ hf => nomatch hf⟩
    · exact ⟨hd.nodes, hd.links, hd.metadata⟩
    · exact { hd with nodes := fun ns hns => Option.some.inj hns ▸ ha }
    · exact { hd with links := fun ls hls => Option.some.inj hls ▸ ha }
    · exact ⟨hd.nodes, hd.links, hd.metadata⟩
    · exact ⟨hd.nodes, hd.links, hd.metadata⟩
    · exact { hd with metadata := fun m hm => Option.some.inj hm ▸ ha }
  have hstart : GateDraft.Fits levels {} := by
    constructor <;> exact fun _ hm => nomatch hm
  refine (yields_record _ hfields hstart).map fun d hd => ⟨?_, ?_, ?_⟩
  · change ∀ n ∈ d.nodes.getD [], n.Fits (levels + 1)
    cases hn : d.nodes with
    | none => exact fun n hm => nomatch hm
    | some ns => exact hd.nodes ns hn
  · change ∀ l ∈ d.links.getD [], l.Fits
    cases hl : d.links with
    | none => exact fun l hm => nomatch hm
    | some ls => exact hd.links ls hl
  · change Metadata.Fits (levels + 2) (d.metadata.getD ∅)
    cases hm : d.metadata with
    | none => exact ⟨List.nodup_nil, fun e he => nomatch he⟩
    | some m => exact hd.metadata m hm

theorem yields_project :
    Yields (Project.reader (levels + 6)) fun p => ∀ d ∈ p.gates, d.Fits levels := by
  have hstored (gates : Option (List GateDef)) (_ : ∀ ds ∈ gates, ∀ d ∈ ds, d.Fits levels) :
      Yields ((storedField "gates" false (fun d => d) (fun _ a => some a)
        fun levels => listOf levels GateDef.reader).read (levels + 5) gates)
        fun gates => ∀ ds ∈ gates, ∀ d ∈ ds, d.Fits levels := by
    have hset : ∀ ds : List GateDef, (∀ d ∈ ds, d.Fits levels) →
        ∀ ds' ∈ some ds, ∀ d ∈ ds', d.Fits levels :=
      fun ds hds ds' he => Option.some.inj he ▸ hds
    exact (yields_listOf yields_gate).map hset
  have hstart : ∀ ds ∈ (none : Option (List GateDef)), ∀ d ∈ ds, d.Fits levels := nofun
  have hfields := yields_record "struct Project" (List.forall_mem_singleton.2 hstored) hstart
  intro bytes p rest h
  obtain ⟨⟨gates, _⟩, hgates, he⟩ := map_eq_ok h
  obtain ⟨rfl, rfl⟩ := Prod.mk.inj he
  cases gates with
  | none => exact fun d hd => nomatch hd
  | some ds => exact hfields _ _ _ hgates ds rfl

end yields

/-- A gate that holds no floats. -/
structure GateDef.FloatFree (d : GateDef) : Prop where
  nodes : ∀ n ∈ d.nodes, ∀ e ∈ n.extra, e.2.FloatFree
  links : ∀ l ∈ d.links, l.routingPoints = []
  metadata : ∀ e ∈ d.metadata.entries, e.2.FloatFree

def Project.FloatFree (p : Project) : Prop := ∀ d ∈ p.gates, d.FloatFree

section reads

variable {levels : Nat}

theorem reads_optionalNatural {n : Option Nat} (h : ∀ m ∈ n, m ≤ maxSignificand) :
    Reads optionalNatural (optionalToJson n) n := by
  cases n with
  | none =>
    refine reads_word (fun _ => rfl) ⟨by decide, rfl, by decide⟩ (by simp) fun bytes rest hs => ?_
    rw [optionalNatural, hs]
    rfl
  | some m =>
    have hm := reads_natural (h m rfl)
    refine ⟨hm.opens, fun level blanks rest hb hr => ?_⟩
    have hread := hm.here level hr
    obtain ⟨c, chars, hprint, hc, hne⟩ : ∃ c chars, print level (.ofNat m) = c :: chars ∧ Opens c ∧
        byte c ≠ byte 'n' := by
      rcases integer_printed (fits_natural (h m rfl)) level with
        ⟨chars, hprint, _⟩ | ⟨c, chars, hprint, hc, _⟩
      · exact ⟨_, _, hprint, ⟨by decide, rfl, by decide⟩, by decide⟩
      · exact ⟨_, _, hprint, opens_digit hc, byte_ne_of_digit hc rfl⟩
    have hskip := skipBlanks_opens hb hc chars rest
    rw [optionalToJson, hprint, optionalNatural, hskip]
    rw [hprint, utf8_cons_ascii hc.ascii, List.cons_append] at hread
    dsimp only
    rw [if_neg hne, hread]
    rfl

theorem reads_node {d : NodeDef} (h : d.Fits levels) (hf : ∀ e ∈ d.extra, e.2.FloatFree) :
    Reads (NodeDef.reader (levels + 1)) d.toJson d := by
  have hextra (fields read : List (String × Value)) (hm : ∀ e ∈ fields, e ∈ d.extra) :
      Feeds (NodeDraft.announce levels) ⟨some d.gateType, read⟩ fields
        ⟨some d.gateType, fields.reverse ++ read⟩ := by
    induction fields generalizing read with
    | nil => exact .nil _
    | cons e fields ih =>
      obtain ⟨he, hm⟩ := List.forall_mem_cons.1 hm
      have hkey : e.1 ≠ "gateTypeName" := fun hk => h.other (hk ▸ List.mem_map_of_mem he)
      rw [List.reverse_cons, List.append_assoc]
      exact .cons (if_neg hkey) ((reads_value (h.extra e he) (hf e he)).map
        fun v => (⟨some d.gateType, (e.1, v) :: read⟩ : NodeDraft)) (ih _ hm)
  have hfields : Feeds (NodeDraft.announce levels) {}
      (("gateTypeName", .string d.gateType) :: d.extra) ⟨some d.gateType, d.extra.reverse ++ []⟩ :=
    .cons rfl ((reads_text d.gateType).map fun name => ({ gateType := some name } : NodeDraft))
      (hextra d.extra [] fun _ he => he)
  have hread := reads_mapOf "struct NodeDef" hfields
  refine ⟨hread.opens, fun level blanks rest hb hr => ?_⟩
  rw [NodeDef.reader, NodeDef.toJson, hread.reads level hb hr]
  simp only [List.append_nil, List.reverse_reverse, sortFields_of_ascending h.ascending]

theorem reads_storedField {σ α : Type} {name : String} {optional : Bool} {get : σ → Option α}
    {set : σ → α → σ} {reader : Nat → Reader α} {v : Value} {a : α} (h : Reads (reader levels) v a)
    (state : σ) :
    Reads ((storedField name optional get set reader).read levels state) v (set state a) :=
  h.map (set state)

theorem reads_link {d : LinkDef} (h : d.Fits) (hf : d.routingPoints = []) :
    Reads (LinkDef.reader (levels + 2)) d.toJson d := by
  have hpoints : Reads (listOf (levels + 1) floatPair) (.array ([].map fun _ => .null)) [] :=
    reads_listOf nofun
  have hfields : Feeds (announceField LinkDraft.fields (levels + 1)) {}
      [("node", optionalToJson d.node), ("index", .ofNat d.index), ("to", optionalToJson d.dest),
        ("inIndex", .ofNat d.inIndex), ("routingPoints", .array [])]
      ⟨some d.node, some d.index, some d.dest, some d.inIndex, some []⟩ :=
    .cons rfl (reads_storedField (reads_optionalNatural h.node) _) <|
    .cons rfl (reads_storedField (reads_natural h.index) _) <|
    .cons rfl (reads_storedField (reads_optionalNatural h.dest) _) <|
    .cons rfl (reads_storedField (reads_natural h.inIndex) _) <|
    .cons rfl (reads_storedField hpoints _) (.nil _)
  have hread := (reads_record "struct LinkDef" hfields rfl).map LinkDraft.finish
  obtain ⟨node, index, dest, inIndex, points⟩ := d
  obtain rfl : points = [] := hf
  exact hread

theorem reads_pin (name : String) : Reads (pinReader (levels + 1)) (pinToJson name) name :=
  have hfields : Feeds (announceField [storedField "name" false (fun d => d) (fun _ a => some a)
      fun _ => text] levels) none [("name", .string name)] (some name) :=
    .cons rfl (reads_storedField (reads_text name) _) (.nil _)
  (reads_record "struct PinDef" hfields rfl).map fun d => d.getD ""

theorem put_last {α : Type} {name : String} {a : α} {entries : List (String × α)}
    (h : name ∉ entries.map (·.1)) : Named.put name a entries = entries ++ [(name, a)] := by
  induction entries with
  | nil => rfl
  | cons e entries ih =>
    rw [List.map_cons, List.mem_cons, not_or] at h
    rw [Named.put, if_neg fun he => h.1 he.symm, ih h.2, List.cons_append]

theorem feeds_metadata {metadata : Metadata} (h : metadata.Fits levels)
    (hf : ∀ e ∈ metadata.entries, e.2.FloatFree) {read fields : List (String × Value)}
    (hall : metadata.entries = read ++ fields) :
    Feeds (fun metadata key => .ok fun bytes => (value levels bytes).map fun (v, rest) =>
        ((metadata : Metadata).insert key v, rest)) ⟨read⟩ fields metadata := by
  induction fields generalizing read with
  | nil =>
    rw [List.append_nil] at hall
    exact hall ▸ .nil _
  | cons e fields ih =>
    have he : e ∈ metadata.entries := hall ▸ List.mem_append_right _ List.mem_cons_self
    have hfresh : e.1 ∉ read.map (·.1) := by
      have hnodup := h.names
      rw [Named.names, hall, List.map_append, List.nodup_append] at hnodup
      exact fun hm => hnodup.2.2 _ hm _ List.mem_cons_self rfl
    have hinsert : Named.insert ⟨read⟩ e.1 e.2 = ⟨read ++ [e]⟩ :=
      congrArg Named.mk (put_last hfresh)
    refine .cons rfl ((reads_value (h.values e he) (hf e he)).map
      fun v => Named.insert ⟨read⟩ e.1 v) ?_
    rw [hinsert]
    exact ih (hall.trans (List.append_cons ..))

theorem reads_metadata {metadata : Metadata} (h : metadata.Fits levels)
    (hf : ∀ e ∈ metadata.entries, e.2.FloatFree) :
    Reads (Metadata.reader (levels + 1)) (.object metadata.entries) metadata :=
  reads_mapOf "a map" (feeds_metadata h hf (List.nil_append _).symm)

theorem reads_gate {d : GateDef} (h : d.Fits levels) (hf : d.FloatFree) :
    Reads (GateDef.reader (levels + 4)) d.toJson d := by
  have hfields : Feeds (announceField GateDraft.fields (levels + 3)) {}
      [("name", .string d.name), ("nodes", .array (d.nodes.map NodeDef.toJson)),
        ("links", .array (d.links.map LinkDef.toJson)), ("inputs", .array (d.inputs.map pinToJson)),
        ("outputs", .array (d.outputs.map pinToJson)), ("metadata", .object d.metadata.entries)]
      ⟨some d.name, some d.nodes, some d.links, some d.inputs, some d.outputs, some d.metadata⟩ :=
    .cons rfl (reads_storedField (reads_text d.name) _) <|
    .cons rfl (reads_storedField (reads_listOf fun n hn =>
      reads_node (h.nodes n hn) (hf.nodes n hn)) _) <|
    .cons rfl (reads_storedField (reads_listOf fun l hl =>
      reads_link (h.links l hl) (hf.links l hl)) _) <|
    .cons rfl (reads_storedField (reads_listOf fun name _ => reads_pin name) _) <|
    .cons rfl (reads_storedField (reads_listOf fun name _ => reads_pin name) _) <|
    .cons rfl (reads_storedField (reads_metadata h.metadata hf.metadata) _) (.nil _)
  exact (reads_record "struct GateDef" hfields rfl).map GateDraft.finish

theorem reads_project {p : Project} (h : ∀ d ∈ p.gates, d.Fits levels) (hf : p.FloatFree) :
    Reads (Project.reader (levels + 6)) p.toJson p := by
  have hfields : Feeds (announceField [storedField "gates" false (fun d => d) (fun _ a => some a)
      fun levels => listOf levels GateDef.reader] (levels + 5)) none
      [("gates", .array (p.gates.map GateDef.toJson))] (some p.gates) :=
    .cons rfl (reads_storedField (reads_listOf fun d hd => reads_gate (h d hd) (hf d hd)) _)
      (.nil _)
  exact (reads_record "struct Project" hfields rfl).map
    fun d => (⟨d.getD []⟩ : Project)

end reads

theorem toList_toUTF8 (chars : List Char) : (String.ofList chars).toUTF8.toList = utf8 chars := by
  have hloop (bytes : ByteArray) (i : Nat) (read : Bytes) :
      ByteArray.toList.loop bytes i read = read.reverse ++ bytes.data.toList.drop i := by
    fun_induction ByteArray.toList.loop bytes i read with
    | case1 i read h ih =>
      have hi : i < bytes.data.toList.length := h
      have hget : bytes.get! i = bytes.data.toList[i] := by
        rw [ByteArray.get!, Array.getElem_toList, getElem!_pos bytes.data i h]
      rw [ih, List.drop_eq_getElem_cons hi, hget, List.reverse_cons, List.append_assoc,
        List.singleton_append]
    | case2 i read h =>
      rw [List.drop_eq_nil_of_le (Nat.not_lt.1 h), List.append_nil]
  have hdata : (String.ofList chars).toUTF8.data.toList = utf8 chars :=
    List.toList_data_toByteArray
  rw [ByteArray.toList, hloop, hdata]
  rfl

namespace Project

/-- The text of a project that was read, if it holds no floats, is read as the same project. -/
theorem read_write {bytes : Bytes} {p : Project} (h : Project.read bytes = .ok p)
    (hf : p.FloatFree) : Project.read p.write.toUTF8.toList = .ok p := by
  have hfits : ∀ d ∈ p.gates, d.Fits 121 := by
    unfold Project.read document at h
    split at h
    · cases h
    · next hread =>
      split at h
      · obtain rfl := Except.ok.inj h
        exact yields_project _ _ _ hread
      · cases h
  have hread := (reads_project hfits hf).here 0 (fun b (hb : b ∈ [].head?) => nomatch hb)
  rw [List.append_nil] at hread
  rw [Project.write, Value.pretty, toList_toUTF8, Project.read, document, maxLevels, hread]
  rfl

/-- A gate with its fields in another order than they are written in, and without the fields that
may be left out. -/
def scribbled : Bytes :=
  ("\x7b\"gates\":[\x7b\"outputs\":[],\"inputs\":[],\"name\":\"G\"," ++
    "\"links\":[\x7b\"to\":0,\"inIndex\":1,\"index\":0\x7d]," ++
    "\"nodes\":[\x7b\"gateTypeName\":\"AND\"\x7d]," ++
    "\"metadata\":\x7b\"b\":[null,-7],\"a\":\"\\\"\"\x7d\x7d]\x7d").toList.map byte

/-- What the text says. -/
def scribble : Project where
  gates :=
    [{ name := "G"
       nodes := [⟨"AND", []⟩]
       links := [⟨none, 0, some 0, 1, []⟩]
       inputs := []
       outputs := []
       metadata := ⟨[("b", .array [.null, .number (.integer (-7))]), ("a", .string "\"")]⟩ }]

set_option maxRecDepth 2000 in
theorem read_write_scribbled :
    Project.read scribbled = .ok scribble ∧ scribble.FloatFree ∧
      Project.read scribble.write.toUTF8.toList = .ok scribble := by
  have hread : Project.read scribbled = .ok scribble := by cbv
  have hfree : scribble.FloatFree := by
    have hitems : ∀ v ∈ [.null, .number (.integer (-7))], Value.FloatFree v :=
      List.forall_mem_cons.2 ⟨.null, List.forall_mem_singleton.2 (.integer _)⟩
    refine List.forall_mem_singleton.2 ⟨List.forall_mem_singleton.2 (List.forall_mem_nil _),
      List.forall_mem_singleton.2 rfl, List.forall_mem_cons.2 ⟨.array hitems, ?_⟩⟩
    exact List.forall_mem_singleton.2 (.string _)
  exact ⟨hread, hfree, read_write hread hfree⟩

end Project

end Breadboard
