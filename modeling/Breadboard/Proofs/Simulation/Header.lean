import Breadboard.Compilation.Compile
import Breadboard.Proofs.Simulation.Waveform
import Breadboard.Text.Lines

namespace Breadboard

namespace Waveform

/-- What parts the words of a dump, the space and the line feed among it. -/
structure Blanks (blank : Char → Bool) : Prop where
  space : blank ' ' = true
  newline : blank '\n' = true
  printable : ∀ c : Char, 33 ≤ c.toNat → c.toNat ≤ 126 → blank c = false

/-- A text that is read as one word. -/
structure IsWord (blank : Char → Bool) (text : String) : Prop where
  ne : text ≠ ""
  plain : ∀ c ∈ text.toList, blank c = false

/-- The words of a text. -/
def words (blank : Char → Bool) (text : List Char) : List String :=
  ((text.splitOnP blank).filter (· ≠ [])).map String.ofList

section words

variable {blank : Char → Bool}

theorem not_blank_of_mem_splitOnP {text piece : List Char} (h : piece ∈ text.splitOnP blank) :
    ∀ c ∈ piece, blank c = false := by
  induction text generalizing piece with
  | nil =>
    obtain rfl : piece = [] := by simpa using h
    exact nofun
  | cons first text ih =>
    rw [List.splitOnP_cons_eq_if_modifyHead] at h
    split_ifs at h with hf
    · rcases List.mem_cons.1 h with rfl | h
      · exact nofun
      · exact ih h
    · obtain ⟨head, pieces, hs⟩ := List.exists_cons_of_ne_nil (List.splitOnP_ne_nil blank text)
      rw [hs, List.modifyHead_cons] at h
      rcases List.mem_cons.1 h with rfl | h
      · rw [List.forall_mem_cons]
        exact ⟨Bool.eq_false_iff.2 hf, ih (hs ▸ List.mem_cons_self)⟩
      · exact ih (hs ▸ List.mem_cons_of_mem _ h)

theorem isWord_of_mem_words {text : List Char} {word : String} (h : word ∈ words blank text) :
    IsWord blank word := by
  obtain ⟨piece, hp, rfl⟩ := List.mem_map.1 h
  obtain ⟨hp, hne⟩ := List.mem_filter.1 hp
  refine ⟨fun he => ?_, by rw [String.toList_ofList]; exact not_blank_of_mem_splitOnP hp⟩
  have hnil : piece = [] := by simpa using congrArg String.toList he
  simp [hnil] at hne

theorem words_append {c : Char} (hc : blank c = true) (text rest : List Char) :
    words blank (text ++ c :: rest) = words blank text ++ words blank rest := by
  rw [words, words, words, List.splitOnP_append_cons _ _ hc, List.filter_append, List.map_append]

theorem IsWord.words_eq {word : String} (h : IsWord blank word) :
    words blank word.toList = [word] := by
  have hne : word.toList ≠ [] := fun he => h.ne (String.toList_eq_nil_iff.1 he)
  rw [words, List.splitOnP_eq_singleton h.plain]
  simp [hne]

theorem flatMap_words_eq {texts : List String} (h : ∀ text ∈ texts, IsWord blank text) :
    texts.flatMap (words blank ·.toList) = texts := by
  induction texts with
  | nil => rfl
  | cons text texts ih =>
    obtain ⟨htext, htexts⟩ := List.forall_mem_cons.1 h
    rw [List.flatMap_cons, htext.words_eq, ih htexts, List.singleton_append]

end words

/-- The words of a line. -/
def Line.fields : Line → List String
  | .timescale => ["$timescale", "1", "ns", "$end"]
  | .scope name => ["$scope", "module", name, "$end"]
  | .wire code name => ["$var", "wire", "1", String.ofList code, name, "$end"]
  | .upscope => ["$upscope", "$end"]
  | .endDefinitions => ["$enddefinitions", "$end"]
  | .time units => [s!"#{units}"]
  | .change code value => [(if value then "1" else "0") ++ String.ofList code]

/-- The declarations that words make, up to the end of the definitions. In a declaration the place
of a word decides what it is, and any word is a name where a name is due. -/
def readHeader : List String → Option (List Line)
  | "$timescale" :: "1" :: "ns" :: "$end" :: rest => (readHeader rest).map (.timescale :: ·)
  | "$scope" :: "module" :: name :: "$end" :: rest => (readHeader rest).map (.scope name :: ·)
  | "$var" :: "wire" :: "1" :: code :: name :: "$end" :: rest =>
    (readHeader rest).map (.wire code.toList name :: ·)
  | "$upscope" :: "$end" :: rest => (readHeader rest).map (.upscope :: ·)
  | "$enddefinitions" :: "$end" :: _ => some [.endDefinitions]
  | _ => none

/-- The name that a line declares. -/
def Line.name? : Line → Option String
  | .scope name => some name
  | .wire _ name => some name
  | _ => none

section reading

theorem names_cons {first : Line} {lines : List Line} (fields : List String) {rest : List String}
    (hfirst : ∀ name ∈ first.name?, name ∈ fields)
    (h : ∀ line ∈ lines, ∀ name ∈ line.name?, name ∈ rest) :
    ∀ line ∈ first :: lines, ∀ name ∈ line.name?, name ∈ fields ++ rest := by
  rw [List.forall_mem_cons]
  exact ⟨fun name hn => List.mem_append_left _ (hfirst name hn),
    fun line hl name hn => List.mem_append_right _ (h line hl name hn)⟩

/-- Only words of the text are read as names. -/
theorem names_readHeader {tokens : List String} {lines : List Line}
    (h : readHeader tokens = some lines) :
    ∀ line ∈ lines, ∀ name ∈ line.name?, name ∈ tokens := by
  fun_induction readHeader tokens generalizing lines with
  | case1 rest ih =>
    obtain ⟨lines, hr, rfl⟩ := Option.map_eq_some_iff.1 h
    exact names_cons Line.timescale.fields nofun (ih hr)
  | case2 name rest ih =>
    obtain ⟨lines, hr, rfl⟩ := Option.map_eq_some_iff.1 h
    exact names_cons (Line.scope name).fields (by simp [Line.name?, Line.fields]) (ih hr)
  | case3 code name rest ih =>
    obtain ⟨lines, hr, rfl⟩ := Option.map_eq_some_iff.1 h
    exact names_cons ["$var", "wire", "1", code, name, "$end"] (by simp [Line.name?]) (ih hr)
  | case4 rest ih =>
    obtain ⟨lines, hr, rfl⟩ := Option.map_eq_some_iff.1 h
    exact names_cons Line.upscope.fields nofun (ih hr)
  | case5 rest =>
    obtain rfl := Option.some.inj h
    exact names_cons Line.endDefinitions.fields nofun (List.forall_mem_nil _)
  | case6 => cases h

/-- A line of the header before its last one. -/
def Line.declares : Line → Bool
  | .timescale | .scope _ | .wire _ _ | .upscope => true
  | _ => false

/-- Declarations are read as they were made. -/
theorem readHeader_append {lines : List Line} (h : ∀ line ∈ lines, line.declares)
    (rest : List String) :
    readHeader (lines.flatMap Line.fields ++ rest) = (readHeader rest).map (lines ++ ·) := by
  induction lines with
  | nil => simp
  | cons line lines ih =>
    obtain ⟨hline, hlines⟩ := List.forall_mem_cons.1 h
    have hfirst (tokens : List String) :
        readHeader (line.fields ++ tokens) = (readHeader tokens).map (line :: ·) := by
      cases line with
      | wire code name =>
        change (readHeader tokens).map (Line.wire (String.ofList code).toList name :: ·) = _
        rw [String.toList_ofList]
      | endDefinitions | time | change => cases hline
      | timescale | scope | upscope => rfl
    rw [List.flatMap_cons, List.append_assoc, hfirst, ih hlines, Option.map_map]
    rfl

end reading

section writing

variable {blank : Char → Bool}

theorem printable_code (i : Nat) : ∀ c ∈ code i, 33 ≤ c.toNat ∧ c.toNat ≤ 126 := by
  have hdigit (k : Nat) : 33 ≤ (Char.ofNat (33 + k % 94)).toNat ∧
      (Char.ofNat (33 + k % 94)).toNat ≤ 126 := by
    have hlt := Nat.mod_lt k (by decide : 0 < 94)
    rw [Char.toNat_ofNat, if_pos (.inl (by omega))]
    omega
  induction i using Nat.strongRecOn with
  | ind i ih =>
    rw [code]
    split
    · exact List.forall_mem_singleton.2 (hdigit i)
    · exact List.forall_mem_cons.2 ⟨hdigit i, ih _ (by omega)⟩

theorem Blanks.isWord (hb : Blanks blank) {text : String} (hne : text ≠ "")
    (h : ∀ c ∈ text.toList, 33 ≤ c.toNat ∧ c.toNat ≤ 126) : IsWord blank text :=
  ⟨hne, fun c hc => hb.printable c (h c hc).1 (h c hc).2⟩

theorem text_eq_intercalate (line : Line) : line.text = " ".intercalate line.fields := by
  apply String.toList_inj.1
  cases line <;>
    simp [Line.text, Line.fields, String.intercalate_cons_cons, String.intercalate_singleton,
      toString]

theorem words_intercalate (hb : Blanks blank) {fields : List String} (hne : fields ≠ [])
    (rest : List Char) :
    words blank ((" ".intercalate fields).toList ++ '\n' :: rest) =
      fields.flatMap (words blank ·.toList) ++ words blank rest := by
  induction fields with
  | nil => exact absurd rfl hne
  | cons field fields ih =>
    cases fields with
    | nil =>
      rw [String.intercalate_singleton, words_append hb.newline]
      simp
    | cons next fields =>
      have hsplit : (" ".intercalate (field :: next :: fields)).toList ++ '\n' :: rest =
          field.toList ++ ' ' :: ((" ".intercalate (next :: fields)).toList ++ '\n' :: rest) := by
        simp [String.intercalate_cons_cons]
      rw [hsplit, words_append hb.space, ih nofun, List.flatMap_cons (x := field),
        List.append_assoc]

/-- What a text says are the words in the parts of its lines. -/
theorem words_ofLines (hb : Blanks blank) (lines : List Line) (more : List String) :
    words blank (Text.ofLines (lines.map Line.text ++ more)).toList =
      (lines.flatMap Line.fields).flatMap (words blank ·.toList) ++
        words blank (Text.ofLines more).toList := by
  induction lines with
  | nil => rfl
  | cons line lines ih =>
    have hne : line.fields ≠ [] := by cases line <;> exact List.cons_ne_nil _ _
    have htext : (Text.ofLines ((line :: lines).map Line.text ++ more)).toList =
        (" ".intercalate line.fields).toList ++
          '\n' :: (Text.ofLines (lines.map Line.text ++ more)).toList := by
      simp [Text.ofLines, String.join_cons, text_eq_intercalate]
    rw [htext, words_intercalate hb hne, ih, List.flatMap_cons, List.flatMap_append,
      List.append_assoc]

end writing

section header

variable {nl : Netlist Gate} {blank : Char → Bool}

/-- The lines of the header up to its end, when the wires have some names. -/
def declarations (scope : String) (names : List String) : List Line :=
  [.timescale, .scope scope] ++ names.zipIdx.map (fun (name, i) => .wire (code i) name) ++
    [.upscope, .endDefinitions]

theorem boundary_snd (hw : nl.WellFormed) :
    (boundary nl).map (·.2) = nl.pinNames (nl.inputs ++ nl.outputs) := by
  rw [boundary_eq hw, Netlist.pinNames, List.map_append, List.map_append, List.map_map,
    List.map_map]
  rfl

theorem start_eq_declarations (hw : nl.WellFormed) (scope : String) :
    (start scope nl).1 =
      declarations scope (nl.pinNames (nl.inputs ++ nl.outputs) ++ ["clock"]) ++ [.time 0] := by
  rw [← boundary_snd hw, start, declarations]
  simp [List.zipIdx_append, List.zipIdx_map, Function.comp_def]

theorem Blanks.isWord_keyword (hb : Blanks blank) :
    ∀ word ∈ ["$timescale", "1", "ns", "$scope", "module", "$var", "wire", "$upscope",
      "$enddefinitions", "$end"], IsWord blank word := by
  have hprintable : ∀ word ∈ ["$timescale", "1", "ns", "$scope", "module", "$var", "wire",
      "$upscope", "$enddefinitions", "$end"],
      word ≠ "" ∧ ∀ c ∈ word.toList, 33 ≤ c.toNat ∧ c.toNat ≤ 126 := by simp
  exact fun word hw => hb.isWord (hprintable word hw).1 (hprintable word hw).2

theorem Blanks.isWord_code (hb : Blanks blank) (i : Nat) :
    IsWord blank (String.ofList (code i)) := by
  refine hb.isWord (fun he => code_ne_nil i ?_) ?_
  · simpa using congrArg String.toList he
  · rw [String.toList_ofList]
    exact printable_code i

/-- What is written between blanks are words if the names are. -/
theorem isWord_fields (hb : Blanks blank) {scope : String} {names : List String}
    (h : ∀ name ∈ scope :: names, IsWord blank name) :
    ∀ field ∈ (declarations scope names).flatMap Line.fields, IsWord blank field := by
  have hkeyword := hb.isWord_keyword
  obtain ⟨hscope, hnames⟩ := List.forall_mem_cons.1 h
  simp only [List.forall_mem_cons] at hkeyword
  refine List.forall_mem_flatMap.2 fun line hline => ?_
  simp only [declarations, List.mem_append, List.mem_map, List.mem_cons, List.not_mem_nil,
    or_false, Prod.exists] at hline
  rcases hline with ((rfl | rfl) | ⟨name, i, hname, rfl⟩) | rfl | rfl
  case inl.inr =>
    have hword := hnames name (List.fst_mem_of_mem_zipIdx hname)
    have hcode := hb.isWord_code i
    simp [Line.fields, hkeyword, hword, hcode]
  all_goals simp [Line.fields, hkeyword, hscope]

theorem declarations_eq_append (scope : String) (names : List String) :
    ∃ lines : List Line, declarations scope names = lines ++ [.endDefinitions] ∧
      ∀ line ∈ lines, line.declares := by
  refine ⟨[.timescale, .scope scope] ++
    names.zipIdx.map (fun (name, i) => .wire (code i) name) ++ [.upscope],
    by simp [declarations], ?_⟩
  simp only [List.mem_append, List.mem_map, List.mem_cons, List.not_mem_nil, or_false, Prod.exists]
  rintro line (((rfl | rfl) | ⟨name, i, -, rfl⟩) | rfl) <;> rfl

/-- The header is read as it was written exactly if all names are words. -/
theorem readHeader_declarations (hb : Blanks blank) (scope : String) (names more : List String) :
    readHeader (words blank
        (Text.ofLines ((declarations scope names).map Line.text ++ more)).toList) =
      some (declarations scope names) ↔ ∀ name ∈ scope :: names, IsWord blank name := by
  constructor
  · intro h
    have hread := names_readHeader h
    rw [List.forall_mem_cons]
    refine ⟨isWord_of_mem_words (hread (.scope scope) (by simp [declarations]) scope rfl), ?_⟩
    intro name hname
    obtain ⟨i, hi⟩ := List.mem_iff_getElem?.1 hname
    refine isWord_of_mem_words (hread (.wire (code i) name) ?_ name rfl)
    refine List.mem_append_left _ (List.mem_append_right _ (List.mem_map.2 ⟨(name, i), ?_, rfl⟩))
    exact List.mem_zipIdx_iff_getElem?.2 hi
  · intro h
    rw [words_ofLines hb, flatMap_words_eq (isWord_fields hb h)]
    obtain ⟨lines, hlines, hdeclares⟩ := declarations_eq_append scope names
    rw [hlines, List.flatMap_append, List.append_assoc, readHeader_append hdeclares]
    rfl

end header

end Waveform

namespace Netlist

open Waveform

/-- What is read in the text of a waveform dump up to the end of its definitions, whatever stands
behind it: one scope with a wire for every boundary input, every boundary output and the clock, in
this order and under their names, and nothing else. It is read exactly if the scope and all pins
have words for names. A declaration is read by the places of its words, so a name such as `$end` is
read back like any other. -/
theorem Reachable.waveform_declares {nl : Netlist Gate} (hr : nl.Reachable) (events : List Event)
    (scope : String) (recorded : List String) {blank : Char → Bool} (hb : Blanks blank) :
    let sim := (Simulator.ofNetlist nl).after events
    let header := (Waveform.start scope sim.netlist).1.map Line.text
    let pins := sim.netlist.pinNames (sim.netlist.inputs ++ sim.netlist.outputs)
    (readHeader (words blank (Text.ofLines (header ++ recorded)).toList) =
        some ([.timescale, .scope scope] ++
          (pins ++ ["clock"]).zipIdx.map (fun (name, i) => .wire (code i) name) ++
          [.upscope, .endDefinitions])) ↔
      ∀ name ∈ scope :: pins, IsWord blank name := by
  intro sim header pins
  have hw : sim.netlist.WellFormed :=
    ((Simulator.sound_ofNetlist hr).after events).reachable.wellFormed
  have hclock : IsWord blank "clock" := hb.isWord (by decide) (by simp)
  have hheader : header ++ recorded = (declarations scope (pins ++ ["clock"])).map Line.text ++
      ((Line.time 0).text :: recorded) := by
    simp only [header, start_eq_declarations hw, List.map_append, List.append_assoc]
    rfl
  rw [hheader]
  refine (readHeader_declarations hb scope (pins ++ ["clock"]) _).trans ?_
  simp [or_imp, forall_and, hclock]

theorem blanks_isWhitespace : Blanks Char.isWhitespace where
  space := by decide
  newline := by decide
  printable c hlow _ := by
    rw [Bool.eq_false_iff]
    intro hblank
    simp only [Char.isWhitespace, Bool.or_eq_true, decide_eq_true_eq] at hblank
    rcases hblank with ((rfl | rfl) | rfl) | rfl <;> exact absurd hlow (by decide)

/-- The header of a dump of the wire, with a value behind it. -/
theorem waveform_declares_wire :
    let header := (Waveform.start "TOP" wire).1.map Line.text
    wire.Reachable ∧ Blanks Char.isWhitespace ∧
      readHeader (words Char.isWhitespace (Text.ofLines (header ++ ["1!"])).toList) =
        some [.timescale, .scope "TOP", .wire ['!'] "A", .wire ['"'] "Q", .wire ['#'] "clock",
          .upscope, .endDefinitions] := by
  intro header
  have hword : ∀ name ∈ ["TOP", "A", "Q"], IsWord Char.isWhitespace name :=
    fun name hname => ⟨by revert name; decide, by revert name; simp [Char.isWhitespace]⟩
  have hread := (Reachable.waveform_declares reachable_wire [] "TOP" ["1!"]
    blanks_isWhitespace).2 hword
  refine ⟨reachable_wire, blanks_isWhitespace, hread.trans ?_⟩
  cbv

/-- A netlist with one input and nothing else. -/
def lonePin (name : String) : Netlist Gate := ((∅ : Netlist Gate).addInput name).2

theorem reachable_lonePin (name : String) : (lonePin name).Reachable := .addInput .empty name

theorem start_lonePin (name : String) :
    (Waveform.start "TOP" (lonePin name)).1 =
      [.timescale, .scope "TOP", .wire ['!'] name, .wire ['"'] "clock", .upscope,
        .endDefinitions, .time 0] := by
  rw [start_eq_declarations (reachable_lonePin name).wellFormed]
  cbv

theorem words_lonePin (name : String) :
    words Char.isWhitespace
        (Text.ofLines ((Waveform.start "TOP" (lonePin name)).1.map Line.text)).toList =
      ([.timescale, .scope "TOP", .wire ['!'] name, .wire ['"'] "clock", .upscope, .endDefinitions,
        .time 0].flatMap Line.fields).flatMap (words Char.isWhitespace ·.toList) := by
  rw [← List.append_nil (List.map ..), words_ofLines blanks_isWhitespace, start_lonePin]
  exact List.append_nil _

/-- The words of a header do not tell the names of the pins: with a space or with a tabulator in a
name they are the same. A name can even hold a declaration, which is read as one of its own. -/
theorem waveform_declares_blank :
    let heard (name : String) := words Char.isWhitespace
      (Text.ofLines ((Waveform.start "TOP" (lonePin name)).1.map Line.text)).toList
    (∀ name, (lonePin name).Reachable) ∧
    (¬ ∃ read : List String → List String, ∀ name,
      read (heard name) = (lonePin name).pinNames (lonePin name).inputs) ∧
    readHeader (heard "A $end $var wire 1 % B") =
      some [.timescale, .scope "TOP", .wire ['!'] "A", .wire ['%'] "B", .wire ['"'] "clock",
        .upscope, .endDefinitions] := by
  intro heard
  refine ⟨reachable_lonePin, ?_, ?_⟩
  · rintro ⟨read, hread⟩
    have hsame : heard "A B" = heard "A\tB" := by
      simp only [heard, words_lonePin]
      decide +kernel
    have hnames := hread "A B"
    rw [hsame, hread "A\tB"] at hnames
    exact absurd hnames (by decide)
  · simp only [heard, words_lonePin]
    decide +kernel

end Netlist

end Breadboard
