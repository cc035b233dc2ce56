import Breadboard.Proofs.Json.Fits
import Breadboard.Proofs.Json.Tokens

namespace Breadboard.Json

def Blank (bytes : Bytes) : Prop := ∀ b ∈ bytes, isBlank b

theorem skipBlanks_append {blanks : Bytes} (h : Blank blanks) (bytes : Bytes) :
    skipBlanks (blanks ++ bytes) = skipBlanks bytes := by
  induction blanks with
  | nil => rfl
  | cons b blanks ih =>
    obtain ⟨hb, h⟩ := List.forall_mem_cons.1 h
    exact (List.dropWhile_cons_of_pos hb).trans (ih h)

theorem blank_newLine (level : Nat) : Blank (utf8 (newLine level)) := by
  have hascii : ∀ c ∈ newLine level, c = '\n' ∨ c = ' ' := by
    intro c hc
    rcases List.mem_cons.1 hc with rfl | hc
    · exact .inl rfl
    · exact .inr (List.eq_of_mem_replicate hc)
  intro b hb
  rw [utf8_ascii fun c hc => by rcases hascii c hc with rfl | rfl <;> decide] at hb
  obtain ⟨c, hc, rfl⟩ := List.mem_map.1 hb
  rcases hascii c hc with rfl | rfl <;> rfl

/-- The first character of a value: neither blank nor a closing bracket. -/
structure Opens (c : Char) : Prop where
  ascii : c.toNat ≤ 127
  solid : isBlank (byte c) = false
  bracket : byte c ≠ byte ']'

variable {α : Type} {blanks rest close : Bytes} {c : Char}

theorem skipBlanks_opens (hb : Blank blanks) (hc : Opens c) (chars : List Char) (rest : Bytes) :
    skipBlanks (blanks ++ (utf8 (c :: chars) ++ rest)) = byte c :: (utf8 chars ++ rest) := by
  rw [skipBlanks_append hb, utf8_cons_ascii hc.ascii]
  exact List.dropWhile_cons_of_neg (Bool.eq_false_iff.1 hc.solid)

theorem stops_newLine (level : Nat) (rest : Bytes) : Stops (utf8 (newLine level) ++ rest) := by
  intro b hb
  exact .inr (Option.some.inj hb).symm

/-- A reader answers `a` for the text of a value. -/
structure Reads (reader : Reader α) (v : Value) (a : α) : Prop where
  opens : ∀ level, ∃ c chars, print level v = c :: chars ∧ Opens c
  reads : ∀ level {blanks rest}, Blank blanks → Stops rest →
    reader (blanks ++ (utf8 (print level v) ++ rest)) = .ok (a, rest)

theorem Reads.here {reader : Reader α} {v : Value} {a : α} (h : Reads reader v a) (level : Nat)
    (hr : Stops rest) : reader (utf8 (print level v) ++ rest) = .ok (a, rest) :=
  @Reads.reads _ _ _ _ h level [] _ nofun hr

/-- The value of a field stands after a space. -/
theorem Reads.spaced {reader : Reader α} {v : Value} {a : α} (h : Reads reader v a) (level : Nat)
    (hr : Stops rest) : reader (byte ' ' :: (utf8 (print level v) ++ rest)) = .ok (a, rest) :=
  @Reads.reads _ _ _ _ h level [byte ' '] _ (List.forall_mem_singleton.2 rfl) hr

theorem Reads.map {β : Type} {reader : Reader α} {v : Value} {a : α} (h : Reads reader v a)
    (f : α → β) : Reads (fun bytes => (reader bytes).map fun (a, rest) => (f a, rest)) v (f a) where
  opens := h.opens
  reads level _ _ hb hr := by
    dsimp only
    rw [h.reads level hb hr]
    rfl

theorem word_printed {chars : List Char} (h : ∀ c ∈ chars, c.toNat ≤ 127) (rest : Bytes) :
    word chars (utf8 chars ++ rest) = .ok ((), rest) := by
  induction chars with
  | nil => rfl
  | cons c chars ih =>
    obtain ⟨hc, h⟩ := List.forall_mem_cons.1 h
    rw [utf8_cons_ascii hc, List.cons_append, word, if_pos rfl, ih h]

theorem byte_ne_of_digit (hc : c.isDigit) {b : UInt8} (hb : isDigit b = false) : byte c ≠ b := by
  rintro rfl
  rw [(isDigit_byte hc).1] at hb
  cases hb

theorem opens_digit (hc : c.isDigit) : Opens c := by
  have hne {b : UInt8} (hb : isDigit b = false) : byte c ≠ b := byte_ne_of_digit hc hb
  refine ⟨(isDigit_byte hc).2.1, ?_, hne rfl⟩
  simp only [isBlank, Bool.or_eq_false_iff, beq_eq_false_iff_ne]
  exact ⟨⟨⟨hne rfl, hne rfl⟩, hne rfl⟩, hne rfl⟩

/-- Numbers without a sign start with a digit. -/
theorem exists_toDigits (n : Nat) : ∃ c digits, Nat.toDigits 10 n = c :: digits ∧ c.isDigit := by
  obtain ⟨c, digits, hd⟩ := List.exists_cons_of_ne_nil (Nat.toDigits_ne_nil (n := n) (b := 10))
  exact ⟨c, digits, hd, Nat.isDigit_of_mem_toDigits (b := 10) (n := n) (by decide) (by decide)
    (hd ▸ List.mem_cons_self)⟩

theorem reads_text (s : String) : Reads text (.string s) s where
  opens _ := ⟨'"', _, rfl, by decide, by decide, by decide⟩
  reads level blanks rest hb hr := by
    have hprint : print level (.string s) = '"' :: (s.toList.flatMap escapeChar ++ ['"']) := rfl
    rw [text, hprint, skipBlanks_opens hb ⟨by decide, by decide, by decide⟩]
    dsimp only
    rw [if_pos rfl, utf8_append, List.append_assoc]
    exact string_printed s rest

theorem nextItem_first {v : Value} {level : Nat} (hb : Blank blanks)
    (h : ∃ c chars, print level v = c :: chars ∧ Opens c) (rest : Bytes) :
    nextItem true (blanks ++ (utf8 (print level v) ++ rest)) =
      .ok (some (utf8 (print level v) ++ rest)) := by
  obtain ⟨c, chars, hprint, hc⟩ := h
  rw [nextItem, hprint, skipBlanks_opens hb hc]
  dsimp only
  rw [if_neg hc.bracket, if_pos rfl, utf8_cons_ascii hc.ascii]
  rfl

theorem nextItem_comma {v : Value} {level : Nat} (hb : Blank blanks)
    (h : ∃ c chars, print level v = c :: chars ∧ Opens c) (rest : Bytes) :
    nextItem false (byte ',' :: (blanks ++ (utf8 (print level v) ++ rest))) =
      .ok (some (utf8 (print level v) ++ rest)) := by
  obtain ⟨c, chars, hprint, hc⟩ := h
  have hcomma (bytes : Bytes) : skipBlanks (byte ',' :: bytes) = byte ',' :: bytes := rfl
  rw [nextItem, hcomma]
  dsimp only
  rw [if_neg (by decide), if_neg (by decide), if_pos rfl, hprint, skipBlanks_opens hb hc]
  dsimp only
  rw [if_neg hc.bracket, utf8_cons_ascii hc.ascii]
  rfl

theorem printItems_cons (level : Nat) (v : Value) (vs : List Value) (rest : Bytes) :
    utf8 (printItems level (v :: vs)) ++ rest =
      byte ',' :: (utf8 (newLine level) ++ (utf8 (print level v) ++
        (utf8 (printItems level vs) ++ rest))) := by
  rw [printItems, List.cons_append, List.cons_append, utf8_cons_ascii (by decide), utf8_append,
    utf8_append]
  simp only [List.cons_append, List.append_assoc]

theorem stops_printItems (level : Nat) (vs : List Value) (hs : Stops close) :
    Stops (utf8 (printItems level vs) ++ close) := by
  cases vs with
  | nil => exact hs
  | cons v vs =>
    rw [printItems_cons]
    exact fun b hb => .inl (Option.some.inj hb).symm

/-- The items after the first one are read, up to a closing bracket. -/
theorem items_printed {item : Reader α} {f : α → Value} {as : List α}
    (h : ∀ a ∈ as, Reads item (f a) a) (level : Nat) {budget : Bytes}
    (hb : (utf8 (printItems level (as.map f)) ++ close).length ≤ budget.length)
    (hc : nextItem false close = .ok none) (hs : Stops close) :
    items item budget false (utf8 (printItems level (as.map f)) ++ close) = .ok (as, close) := by
  induction as generalizing budget with
  | nil =>
    cases budget with
    | nil =>
      have hclose : close = [] := List.eq_nil_of_length_eq_zero (Nat.le_zero.1 hb)
      rw [hclose] at hc
      cases hc
    | cons b budget =>
      have hnil : utf8 (printItems level ([].map f)) ++ close = close := rfl
      rw [hnil, items, hc]
  | cons a as ih =>
    obtain ⟨ha, h⟩ := List.forall_mem_cons.1 h
    rw [List.map_cons, printItems_cons] at hb ⊢
    cases budget with
    | nil => exact absurd hb (Nat.not_succ_le_zero _)
    | cons b budget =>
      have hread := ha.here level (stops_printItems level (as.map f) hs)
      have hrest : (utf8 (printItems level (as.map f)) ++ close).length ≤ budget.length := by
        simp only [List.length_cons, List.length_append] at hb ⊢
        omega
      rw [items, nextItem_comma (blank_newLine level) (ha.opens level)]
      dsimp only
      rw [hread]
      dsimp only
      rw [ih h hrest]
      rfl

/-- A bracket on a line of its own. -/
theorem nextItem_close (level : Nat) (rest : Bytes) :
    nextItem false (utf8 (newLine level) ++ byte ']' :: rest) = .ok none ∧
      closeSequence (utf8 (newLine level) ++ byte ']' :: rest) = .ok rest := by
  have hskip : skipBlanks (utf8 (newLine level) ++ byte ']' :: rest) = byte ']' :: rest :=
    skipBlanks_append (blank_newLine level) _
  rw [nextItem, closeSequence, hskip]
  exact ⟨rfl, rfl⟩

/-- The items of a printed sequence are read one by one. -/
theorem sequence_printed {item : Reader α} {f : α → Value} {as : List α}
    (h : ∀ a ∈ as, Reads item (f a) a) (level : Nat) (rest : Bytes) :
    ∃ chars, print level (.array (as.map f)) = '[' :: chars ∧
      sequence item (utf8 chars ++ rest) = .ok (as, rest) := by
  cases as with
  | nil => exact ⟨[']'], rfl, rfl⟩
  | cons a as =>
    obtain ⟨ha, h⟩ := List.forall_mem_cons.1 h
    obtain ⟨hnone, hclose⟩ := nextItem_close level rest
    have hstops := stops_newLine level (byte ']' :: rest)
    refine ⟨newLine (level + 1) ++ print (level + 1) (f a) ++ printItems (level + 1) (as.map f) ++
      newLine level ++ [']'], rfl, ?_⟩
    have hbytes : utf8 (newLine (level + 1) ++ print (level + 1) (f a) ++
          printItems (level + 1) (as.map f) ++ newLine level ++ [']']) ++ rest =
        utf8 (newLine (level + 1)) ++ (utf8 (print (level + 1) (f a)) ++
          (utf8 (printItems (level + 1) (as.map f)) ++
            (utf8 (newLine level) ++ byte ']' :: rest))) := by
      simp only [utf8_append, List.append_assoc]
      rfl
    have hread := ha.here (level + 1) (stops_printItems (level + 1) (as.map f) hstops)
    rw [hbytes, sequence, items, nextItem_first (blank_newLine _) (ha.opens _)]
    dsimp only
    rw [hread]
    dsimp only
    rw [items_printed h (level + 1) ?_ hnone hstops]
    · simp only [Except.map, hclose]
    · simp only [List.length_append]
      omega

/-- The fields of a map are read one after another into a state. -/
inductive Feeds {σ : Type} (announce : σ → String → Except ReadError (Reader σ)) :
    σ → List (String × Value) → σ → Prop where
  | nil (state : σ) : Feeds announce state [] state
  | cons {state : σ} {key : String} {reader : Reader σ} {v : Value} {next final : σ}
      {fields : List (String × Value)} (ha : announce state key = .ok reader)
      (hr : Reads reader v next) (hf : Feeds announce next fields final) :
      Feeds announce state ((key, v) :: fields) final

theorem printString_append (text : String) (rest : Bytes) :
    utf8 (printString text) ++ rest =
      byte '"' :: (utf8 (text.toList.flatMap escapeChar) ++ byte '"' :: rest) := by
  rw [printString, List.cons_append, utf8_cons_ascii (by decide), utf8_append]
  simp only [List.cons_append, List.append_assoc]
  rfl

theorem printFields_cons (level : Nat) (key : String) (v : Value) (fields : List (String × Value))
    (rest : Bytes) :
    utf8 (printFields level ((key, v) :: fields)) ++ rest =
      byte ',' :: (utf8 (newLine level) ++ (utf8 (printString key) ++ (byte ':' :: byte ' ' ::
        (utf8 (print level v) ++ (utf8 (printFields level fields) ++ rest))))) := by
  rw [printFields, List.cons_append, List.cons_append, List.cons_append, List.cons_append,
    utf8_cons_ascii (by decide)]
  have hcolon (chars : List Char) :
      utf8 (':' :: ' ' :: chars) = byte ':' :: byte ' ' :: utf8 chars := rfl
  simp only [utf8_append, List.cons_append, List.append_assoc, List.nil_append, hcolon]

theorem stops_printFields (level : Nat) (fields : List (String × Value)) (hs : Stops close) :
    Stops (utf8 (printFields level fields) ++ close) := by
  cases fields with
  | nil => exact hs
  | cons e fields =>
    rw [printFields_cons]
    exact fun b hb => .inl (Option.some.inj hb).symm

theorem nextKey_first (hb : Blank blanks) (key : String) (rest : Bytes) :
    nextKey true (blanks ++ (utf8 (printString key) ++ rest)) =
      .ok (some (utf8 (key.toList.flatMap escapeChar) ++ byte '"' :: rest),
        utf8 (key.toList.flatMap escapeChar) ++ byte '"' :: rest) := by
  rw [nextKey, printString_append, skipBlanks_append hb]
  rfl

theorem nextKey_comma (hb : Blank blanks) (key : String) (rest : Bytes) :
    nextKey false (byte ',' :: (blanks ++ (utf8 (printString key) ++ rest))) =
      .ok (some (utf8 (key.toList.flatMap escapeChar) ++ byte '"' :: rest),
        utf8 (key.toList.flatMap escapeChar) ++ byte '"' :: rest) := by
  have hcomma (bytes : Bytes) : skipBlanks (byte ',' :: bytes) = byte ',' :: bytes := rfl
  rw [nextKey, hcomma]
  dsimp only
  rw [if_neg (by decide), if_neg (by decide), if_pos rfl, printString_append, skipBlanks_append hb]
  rfl

theorem colon_printed (rest : Bytes) : colon (byte ':' :: rest) = .ok rest := rfl

section maps

variable {σ : Type} {announce : σ → String → Except ReadError (Reader σ)} {start final : σ}
  {fields : List (String × Value)}

/-- The fields after the first one are read, up to a closing brace. -/
theorem entries_printed (h : Feeds announce start fields final) (level : Nat) {budget : Bytes}
    (hb : (utf8 (printFields level fields) ++ close).length ≤ budget.length)
    (hc : nextKey false close = .ok (none, rest)) (hs : Stops close) :
    entries string announce budget false start (utf8 (printFields level fields) ++ close) =
      .ok (final, rest) := by
  induction h generalizing budget with
  | nil state =>
    cases budget with
    | nil =>
      have hclose : close = [] := List.eq_nil_of_length_eq_zero (Nat.le_zero.1 hb)
      rw [hclose] at hc
      cases hc
    | cons b budget =>
      have hnil : utf8 (printFields level []) ++ close = close := rfl
      rw [hnil, entries, hc]
  | @cons state key reader v next final fields ha hr hf ih =>
    rw [printFields_cons] at hb ⊢
    cases budget with
    | nil => exact absurd hb (Nat.not_succ_le_zero _)
    | cons b budget =>
      have hread := hr.spaced level (stops_printFields level fields hs)
      have hrest : (utf8 (printFields level fields) ++ close).length ≤ budget.length := by
        simp only [List.length_cons, List.length_append] at hb ⊢
        omega
      rw [entries, nextKey_comma (blank_newLine level)]
      dsimp only
      rw [string_printed]
      dsimp only
      rw [ha]
      dsimp only
      rw [colon_printed]
      dsimp only
      rw [hread]
      exact ih hrest

/-- A brace on a line of its own. -/
theorem nextKey_close (level : Nat) (rest : Bytes) :
    nextKey false (utf8 (newLine level) ++ byte '}' :: rest) = .ok (none, rest) := by
  have hskip : skipBlanks (utf8 (newLine level) ++ byte '}' :: rest) = byte '}' :: rest :=
    skipBlanks_append (blank_newLine level) _
  rw [nextKey, hskip]
  rfl

/-- The fields of a printed map are read one by one. -/
theorem mapping_printed (h : Feeds announce start fields final) (level : Nat) (rest : Bytes) :
    ∃ chars, print level (.object fields) = '{' :: chars ∧
      mapping string announce start (utf8 chars ++ rest) = .ok (final, rest) := by
  cases h with
  | nil => exact ⟨['}'], rfl, rfl⟩
  | @cons _ key reader v next _ fields ha hr hf =>
    have hstops := stops_newLine level (byte '}' :: rest)
    refine ⟨newLine (level + 1) ++ printString key ++ [':', ' '] ++ print (level + 1) v ++
      printFields (level + 1) fields ++ newLine level ++ ['}'], rfl, ?_⟩
    have hbytes : utf8 (newLine (level + 1) ++ printString key ++ [':', ' '] ++
          print (level + 1) v ++ printFields (level + 1) fields ++ newLine level ++ ['}']) ++ rest =
        utf8 (newLine (level + 1)) ++ (utf8 (printString key) ++ (byte ':' :: byte ' ' ::
          (utf8 (print (level + 1) v) ++ (utf8 (printFields (level + 1) fields) ++
            (utf8 (newLine level) ++ byte '}' :: rest))))) := by
      simp only [utf8_append, List.append_assoc]
      rfl
    have hread := hr.spaced (level + 1) (stops_printFields (level + 1) fields hstops)
    rw [hbytes, mapping, entries, nextKey_first (blank_newLine _)]
    dsimp only
    rw [string_printed]
    dsimp only
    rw [ha]
    dsimp only
    rw [colon_printed]
    dsimp only
    rw [hread]
    refine entries_printed hf (level + 1) ?_ (nextKey_close level rest) hstops
    simp only [List.length_append, List.length_cons]
    omega

end maps

section shapes

variable {levels : Nat}

theorem opens_array (level : Nat) (vs : List Value) :
    ∃ c chars, print level (.array vs) = c :: chars ∧ Opens c := by
  cases vs with
  | nil => exact ⟨'[', _, rfl, by decide, rfl, by decide⟩
  | cons v vs => exact ⟨'[', _, rfl, by decide, rfl, by decide⟩

theorem opens_object (level : Nat) (fields : List (String × Value)) :
    ∃ c chars, print level (.object fields) = c :: chars ∧ Opens c := by
  cases fields with
  | nil => exact ⟨'{', _, rfl, by decide, rfl, by decide⟩
  | cons e fields => exact ⟨'{', _, rfl, by decide, rfl, by decide⟩

theorem skipBlanks_bracket (hb : Blank blanks) (chars : List Char) (rest : Bytes) :
    skipBlanks (blanks ++ (utf8 ('[' :: chars) ++ rest)) = byte '[' :: (utf8 chars ++ rest) :=
  skipBlanks_opens hb ⟨by decide, rfl, by decide⟩ chars rest

theorem skipBlanks_brace (hb : Blank blanks) (chars : List Char) (rest : Bytes) :
    skipBlanks (blanks ++ (utf8 ('{' :: chars) ++ rest)) = byte '{' :: (utf8 chars ++ rest) :=
  skipBlanks_opens hb ⟨by decide, rfl, by decide⟩ chars rest

theorem reads_listOf {item : Nat → Reader α} {f : α → Value} {as : List α}
    (h : ∀ a ∈ as, Reads (item levels) (f a) a) :
    Reads (listOf (levels + 1) item) (.array (as.map f)) as where
  opens level := opens_array level _
  reads level blanks rest hb _ := by
    obtain ⟨chars, hprint, hread⟩ := sequence_printed h level rest
    rw [listOf, hprint, skipBlanks_bracket hb]
    exact hread

variable {σ : Type} {start final : σ} {fields : List (String × Value)}

theorem reads_mapOf (expected : String)
    {announce : Nat → σ → String → Except ReadError (Reader σ)}
    (h : Feeds (announce levels) start fields final) :
    Reads (mapOf expected (levels + 1) announce start) (.object fields) final where
  opens level := opens_object level _
  reads level blanks rest hb _ := by
    obtain ⟨chars, hprint, hread⟩ := mapping_printed h level rest
    rw [mapOf, hprint, skipBlanks_brace hb]
    exact hread

/-- A record is read from the map of its fields, if none that is required is missing. -/
theorem reads_record (expected : String) {recordFields : List (RecordField σ)}
    (h : Feeds (announceField recordFields levels) start fields final)
    (hm : missingField? recordFields final = none) :
    Reads (record expected recordFields start (levels + 1)) (.object fields) final where
  opens level := opens_object level _
  reads level blanks rest hb _ := by
    obtain ⟨chars, hprint, hread⟩ := mapping_printed h level rest
    rw [record, hprint, skipBlanks_brace hb]
    dsimp only
    rw [if_neg (by decide), if_pos rfl, hread]
    dsimp only
    rw [hm]

end shapes

/-- A printed integer is a number after a minus sign, or one that starts with a digit. -/
theorem integer_printed {n : Int} (h : (Number.integer n).Fits) (level : Nat) :
    (∃ chars, print level (.number (.integer n)) = '-' :: chars ∧ ∀ {rest}, Stops rest →
      number true (utf8 chars ++ rest) = .ok (.integer n, rest)) ∨
    ∃ c chars, print level (.number (.integer n)) = c :: chars ∧ c.isDigit ∧ ∀ {rest}, Stops rest →
      number false (byte c :: (utf8 chars ++ rest)) = .ok (.integer n, rest) := by
  obtain ⟨hlow, hhigh⟩ := h
  cases n with
  | ofNat m =>
    right
    obtain ⟨c, digits, hd, hc⟩ := exists_toDigits m
    have hprint : print level (.number (.integer (.ofNat m))) = c :: digits := by
      rw [← hd]
      exact Nat.toList_repr
    refine ⟨c, digits, hprint, hc, fun hr => ?_⟩
    have hnumber := number_printed false (n := m) (Int.ofNat_le.1 hhigh) hr
    rwa [hd, utf8_cons_ascii (isDigit_byte hc).2.1] at hnumber
  | negSucc m =>
    left
    have hprint : print level (.number (.integer (.negSucc m))) =
        '-' :: Nat.toDigits 10 (m + 1) := by
      rw [← Nat.toList_repr]
      exact String.toList_append
    have hle : m + 1 ≤ 0x8000000000000000 := by omega
    refine ⟨_, hprint, fun hr => ?_⟩
    have hwhole : wholeNumber true (m + 1) = .integer (.negSucc m) := by
      rw [wholeNumber, if_neg (by decide), if_pos ⟨Nat.succ_pos m, hle⟩]
      rfl
    rw [number_printed true (Nat.le_trans hle (by decide)) hr, hwhole]

theorem opens_integer {n : Int} (h : (Number.integer n).Fits) (level : Nat) :
    ∃ c chars, print level (.number (.integer n)) = c :: chars ∧ Opens c := by
  rcases integer_printed h level with ⟨chars, hprint, _⟩ | ⟨c, chars, hprint, hc, _⟩
  · exact ⟨_, _, hprint, by decide, rfl, by decide⟩
  · exact ⟨_, _, hprint, opens_digit hc⟩

theorem reads_anyNumber {n : Int} (h : (Number.integer n).Fits) (expected : String) :
    Reads (anyNumber expected) (.number (.integer n)) (.integer n) where
  opens := opens_integer h
  reads level blanks rest hb hr := by
    unfold anyNumber
    rcases integer_printed h level with ⟨chars, hprint, hread⟩ | ⟨c, chars, hprint, hc, hread⟩
    · rw [hprint, skipBlanks_opens hb ⟨by decide, rfl, by decide⟩]
      dsimp only
      rw [if_pos rfl, hread hr]
    · rw [hprint, skipBlanks_opens hb (opens_digit hc)]
      dsimp only
      rw [if_neg (byte_ne_of_digit hc rfl), if_pos (isDigit_byte hc).1, hread hr]

theorem fits_natural {n : Nat} (h : n ≤ maxSignificand) : (Number.integer n).Fits :=
  ⟨by omega, Int.ofNat_le.2 h⟩

theorem reads_natural {n : Nat} (h : n ≤ maxSignificand) : Reads natural (.ofNat n) n where
  opens := opens_integer (fits_natural h)
  reads level blanks rest hb hr := by
    have hread := (reads_anyNumber (fits_natural h) "usize").reads level hb hr
    rw [natural, Value.ofNat, hread]
    exact if_pos (Int.natCast_nonneg n)

/-- A word is read after its first character. -/
theorem reads_word {reader : Reader α} {v : Value} {a : α} {c : Char} {chars : List Char}
    (hv : ∀ level, print level v = c :: chars) (hc : Opens c) (ha : ∀ d ∈ chars, d.toNat ≤ 127)
    (hread : ∀ bytes rest, skipBlanks bytes = byte c :: rest →
      reader bytes = (word chars rest).map fun (_, rest) => (a, rest)) : Reads reader v a where
  opens level := ⟨c, chars, hv level, hc⟩
  reads level blanks rest hb hr := by
    rw [hv, hread _ _ (skipBlanks_opens hb hc chars rest), word_printed ha]
    rfl

/-- A value without floats. -/
inductive Value.FloatFree : Value → Prop where
  | null : FloatFree .null
  | bool (b : Bool) : FloatFree (.bool b)
  | integer (n : Int) : FloatFree (.number (.integer n))
  | string (text : String) : FloatFree (.string text)
  | array {vs : List Value} (h : ∀ v ∈ vs, FloatFree v) : FloatFree (.array vs)
  | object {fields : List (String × Value)} (h : ∀ e ∈ fields, FloatFree e.2) :
      FloatFree (.object fields)

theorem insertField_last {key : String} {v : Value} {fields : List (String × Value)}
    (h : ∀ e ∈ fields, e.1 < key) : insertField key v fields = fields ++ [(key, v)] := by
  induction fields with
  | nil => rfl
  | cons e fields ih =>
    obtain ⟨he, h⟩ := List.forall_mem_cons.1 h
    have hne : key ≠ e.1 := fun hk => String.lt_irrefl _ (hk ▸ he)
    rw [insertField, if_neg (String.lt_asymm he), if_neg hne, ih h, List.cons_append]

theorem foldl_insertField_ascending {fields : List (String × Value)}
    (sorted : List (String × Value)) (h : Ascending (sorted ++ fields)) :
    fields.foldl (fun sorted (key, v) => insertField key v sorted) sorted = sorted ++ fields := by
  induction fields generalizing sorted with
  | nil => exact (List.append_nil sorted).symm
  | cons e fields ih =>
    have hlast : insertField e.1 e.2 sorted = sorted ++ [e] := by
      refine insertField_last fun e' he' => ?_
      unfold Ascending at h
      rw [List.map_append, List.pairwise_append] at h
      exact h.2.2 _ (List.mem_map_of_mem he') _ List.mem_cons_self
    rw [List.append_cons] at h
    rw [List.foldl_cons]
    dsimp only
    rw [hlast, ih _ h, ← List.append_cons]

theorem sortFields_of_ascending {fields : List (String × Value)} (h : Ascending fields) :
    sortFields fields = fields :=
  foldl_insertField_ascending [] h

/-- The fields of an object are collected in reverse. -/
theorem feeds_fields {levels : Nat} {fields : List (String × Value)}
    (h : ∀ e ∈ fields, Reads (value levels) e.2 e.2) (read : List (String × Value)) :
    Feeds (fun fields key => .ok fun bytes =>
        (value levels bytes).map fun (v, rest) => ((key, v) :: fields, rest))
      read fields (fields.reverse ++ read) := by
  induction fields generalizing read with
  | nil => exact .nil read
  | cons e fields ih =>
    obtain ⟨he, h⟩ := List.forall_mem_cons.1 h
    rw [List.reverse_cons, List.append_assoc]
    exact .cons rfl (he.map fun v => (e.1, v) :: read) (ih h (e :: read))

theorem value_number {levels : Nat} {n : Int} (h : (Number.integer n).Fits) :
    Reads (value levels) (.number (.integer n)) (.number (.integer n)) where
  opens := opens_integer h
  reads level blanks rest hb hr := by
    unfold value
    rcases integer_printed h level with ⟨chars, hprint, hread⟩ | ⟨c, chars, hprint, hc, hread⟩
    · rw [hprint, skipBlanks_opens hb ⟨by decide, rfl, by decide⟩]
      dsimp only
      rw [if_neg (by decide), if_neg (by decide), if_neg (by decide), if_pos rfl, hread hr]
      rfl
    · obtain ⟨hdigit, _⟩ := isDigit_byte hc
      have hne {b : UInt8} (hb : isDigit b = false) : byte c ≠ b := byte_ne_of_digit hc hb
      rw [hprint, skipBlanks_opens hb (opens_digit hc)]
      dsimp only
      rw [if_neg (hne rfl), if_neg (hne rfl), if_neg (hne rfl), if_neg (hne rfl), if_pos hdigit,
        hread hr]
      rfl

/-- Every value without floats that fits the levels is read as itself. -/
theorem reads_value {levels : Nat} {v : Value} (h : v.Fits levels) (hf : v.FloatFree) :
    Reads (value levels) v v := by
  have hopens {c : Char} (ha : c.toNat ≤ 127) (hs : isBlank (byte c) = false)
      (hne : byte c ≠ byte ']') : Opens c := ⟨ha, hs, hne⟩
  induction h with
  | null =>
    refine reads_word (fun _ => rfl) (hopens (by decide) rfl (by decide)) (by simp) ?_
    intro bytes rest hs
    rw [value, hs]
    rfl
  | bool b =>
    cases b <;>
    · refine reads_word (fun _ => rfl) (hopens (by decide) rfl (by decide)) (by simp) ?_
      intro bytes rest hs
      rw [value, hs]
      rfl
  | number hn =>
    cases hf
    exact value_number hn
  | string text =>
    refine ⟨(reads_text text).opens, fun level blanks rest hb hr => ?_⟩
    have hprint : print level (.string text) =
        '"' :: (text.toList.flatMap escapeChar ++ ['"']) := rfl
    rw [value, hprint, skipBlanks_opens hb (hopens (by decide) rfl (by decide)), utf8_append,
      List.append_assoc]
    dsimp only
    rw [if_neg (by decide), if_neg (by decide), if_neg (by decide), if_neg (by decide),
      if_neg (by decide), if_pos rfl]
    exact congrArg (Except.map _) (string_printed text rest)
  | @array levels vs h ih =>
    cases hf with
    | array hf =>
    have hvs : ∀ v ∈ vs, Reads (value levels) (id v) v := fun v hv => ih v hv (hf v hv)
    refine ⟨fun level => opens_array level vs, fun level blanks rest hb hr => ?_⟩
    obtain ⟨chars, hprint, hread⟩ := sequence_printed hvs level rest
    rw [List.map_id] at hprint
    rw [value, hprint, skipBlanks_bracket hb]
    dsimp only
    rw [if_neg (by decide), if_neg (by decide), if_neg (by decide), if_neg (by decide),
      if_neg (by decide), if_neg (by decide), if_pos rfl, hread]
    rfl
  | @object levels fields ha h ih =>
    cases hf with
    | object hf =>
    have hfields := feeds_fields (fun e he => ih e he (hf e he)) []
    refine ⟨fun level => opens_object level fields, fun level blanks rest hb hr => ?_⟩
    obtain ⟨chars, hprint, hread⟩ := mapping_printed hfields level rest
    rw [value, hprint, skipBlanks_brace hb]
    dsimp only
    rw [if_neg (by decide), if_neg (by decide), if_neg (by decide), if_neg (by decide),
      if_neg (by decide), if_neg (by decide), if_neg (by decide), if_pos rfl, hread]
    simp only [Except.map, List.append_nil, List.reverse_reverse, sortFields_of_ascending ha]

end Breadboard.Json
