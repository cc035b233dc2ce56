import Mathlib
import Breadboard.Json.Printer
import Breadboard.Json.Reader

namespace Breadboard.Json

/-- The bytes of characters in UTF-8. -/
def utf8 (chars : List Char) : Bytes := chars.flatMap String.utf8EncodeChar

theorem utf8_append (chars chars' : List Char) :
    utf8 (chars ++ chars') = utf8 chars ++ utf8 chars' :=
  List.flatMap_append

theorem encode_ascii {c : Char} (h : c.toNat ≤ 127) : String.utf8EncodeChar c = [byte c] :=
  if_pos h

theorem utf8_cons_ascii {c : Char} (h : c.toNat ≤ 127) (chars : List Char) :
    utf8 (c :: chars) = byte c :: utf8 chars := by
  unfold utf8
  rw [List.flatMap_cons, encode_ascii h, List.singleton_append]

theorem utf8_ascii {chars : List Char} (h : ∀ c ∈ chars, c.toNat ≤ 127) :
    utf8 chars = chars.map byte := by
  induction chars with
  | nil => rfl
  | cons c chars ih =>
    obtain ⟨hc, h⟩ := List.forall_mem_cons.1 h
    rw [utf8_cons_ascii hc, ih h, List.map_cons]

theorem byte_toNat {c : Char} (h : c.toNat ≤ 127) : (byte c).toNat = c.toNat := by
  unfold byte
  rw [UInt8.toNat_ofNat']
  omega

theorem byte_inj {c d : Char} (hc : c.toNat ≤ 127) (hd : d.toNat ≤ 127) (h : byte c = byte d) :
    c = d := by
  have heq := congrArg UInt8.toNat h
  rw [byte_toNat hc, byte_toNat hd] at heq
  exact Char.toNat_inj.1 heq

/-- Beyond ASCII no byte of a character is that of an ASCII character. -/
theorem le_of_mem_encode {c : Char} (h : 127 < c.toNat) {b : UInt8}
    (hb : b ∈ String.utf8EncodeChar c) : 128 ≤ b.toNat := by
  have hv : c.toNat = c.val.toNat := rfl
  rw [String.utf8EncodeChar, if_neg (by omega)] at hb
  split at hb
  · simp only [List.mem_cons, List.not_mem_nil, or_false] at hb
    rcases hb with rfl | rfl <;> rw [UInt8.toNat_ofNat'] <;> omega
  · split at hb <;> simp only [List.mem_cons, List.not_mem_nil, or_false] at hb
    · rcases hb with rfl | rfl | rfl <;> rw [UInt8.toNat_ofNat'] <;> omega
    · rcases hb with rfl | rfl | rfl | rfl <;> rw [UInt8.toNat_ofNat'] <;> omega

theorem decodeText_utf8 (chars : List Char) :
    decodeText (utf8 chars) = .ok (String.ofList chars) := by
  have hbytes : (⟨(utf8 chars).toArray⟩ : ByteArray) = chars.utf8Encode := by
    refine ByteArray.ext (Array.toList_inj.1 ?_)
    exact List.toList_data_toByteArray.symm
  have hvalid : chars.utf8Encode.IsValidUTF8 := .intro chars rfl
  unfold decodeText String.fromUTF8?
  rw [hbytes, dif_pos hvalid]
  rfl

/-- Bytes that need no escape are kept. -/
theorem stringPart_kept {bytes : Bytes}
    (h : ∀ b ∈ bytes, b ≠ byte '"' ∧ b ≠ byte '\\' ∧ ¬ b < 32) (read rest : Bytes) :
    stringPart read (bytes ++ rest) = stringPart (bytes.reverse ++ read) rest := by
  induction bytes generalizing read with
  | nil => rfl
  | cons b bytes ih =>
    obtain ⟨⟨hquote, hslash, hcontrol⟩, h⟩ := List.forall_mem_cons.1 h
    rw [List.cons_append, stringPart, if_neg hquote, if_neg hslash, if_neg hcontrol, ih h,
      List.reverse_cons, List.append_assoc, List.singleton_append]

/-- An escape is replaced by the bytes that it stands for. -/
theorem stringPart_escape {bytes meant : Bytes} {length : Nat} (read : Bytes)
    (h : escape bytes = .ok (meant, length)) :
    stringPart read (byte '\\' :: bytes) =
      stringPart (meant.reverse ++ read) (bytes.drop length) := by
  rw [stringPart, if_neg (by decide), if_pos rfl]
  simp only [h]

theorem hexValue?_digitChar {n : Nat} (h : n < 16) :
    hexValue? (byte (Nat.digitChar n)) = some n := by
  have hall : ∀ n : Fin 16, hexValue? (byte (Nat.digitChar n)) = some n.1 := by decide
  exact hall ⟨n, h⟩

theorem digitChar_le {n : Nat} (h : n < 16) : (Nat.digitChar n).toNat ≤ 127 := by
  have hall : ∀ n : Fin 16, (Nat.digitChar n).toNat ≤ 127 := by decide
  exact hall ⟨n, h⟩

theorem escape_control {c : Char} (h : c.toNat < 32) (rest : Bytes) :
    escape (byte 'u' :: byte '0' :: byte '0' :: ((hexByte c.toNat).map byte ++ rest)) =
      .ok (String.utf8EncodeChar c, 5) := by
  have hhigh := hexValue?_digitChar (n := c.toNat / 16) (by omega)
  have hlow := hexValue?_digitChar (n := c.toNat % 16) (by omega)
  have hzero : hexValue? (byte '0') = some 0 := by decide
  have hunit : hexUnit (byte '0' :: byte '0' :: ((hexByte c.toNat).map byte ++ rest)) =
      .ok c.toNat := by
    simp only [hexByte, List.map_cons, List.map_nil, List.cons_append, hexUnit, hzero, hhigh, hlow]
    congr 1
    omega
  have hunits {bytes : Bytes} {unit : Nat} (hu : hexUnit bytes = .ok unit) (hlt : unit < 0xD800) :
      escape (byte 'u' :: bytes) = .ok (charBytes unit, 5) := by
    rw [escape, if_neg (by decide), if_neg (by decide), if_neg (by decide), if_neg (by decide),
      if_neg (by decide), if_neg (by decide), if_pos rfl, hu]
    exact if_pos (.inl hlt)
  rw [hunits hunit (by omega), charBytes, Char.ofNat_toNat]

theorem stringPart_control {c : Char} (hc : c.toNat < 32) (read rest : Bytes) :
    stringPart read (utf8 (['\\', 'u', '0', '0'] ++ hexByte c.toNat) ++ rest) =
      stringPart ((String.utf8EncodeChar c).reverse ++ read) rest := by
  have hhex : utf8 (hexByte c.toNat) = (hexByte c.toNat).map byte := by
    refine utf8_ascii fun d hd => ?_
    rw [hexByte, List.mem_cons, List.mem_singleton] at hd
    rcases hd with rfl | rfl <;> exact digitChar_le (by omega)
  have hutf8 : utf8 (['\\', 'u', '0', '0'] ++ hexByte c.toNat) =
      byte '\\' :: byte 'u' :: byte '0' :: byte '0' :: (hexByte c.toNat).map byte := by
    rw [utf8_append, hhex]
    rfl
  rw [hutf8, List.cons_append]
  exact stringPart_escape read (escape_control hc rest)

/-- No byte of a character that needs no escape ends the string or starts an escape. -/
theorem stringPart_plain {c : Char} (hquote : c ≠ '"') (hslash : c ≠ '\\')
    (hcontrol : ¬ c.toNat < 32) (read rest : Bytes) :
    stringPart read (utf8 [c] ++ rest) =
      stringPart ((String.utf8EncodeChar c).reverse ++ read) rest := by
  have hutf8 : utf8 [c] = String.utf8EncodeChar c := List.flatMap_singleton ..
  rw [hutf8]
  refine stringPart_kept (fun b hb => ?_) read rest
  by_cases hascii : c.toNat ≤ 127
  · rw [encode_ascii hascii, List.mem_singleton] at hb
    subst hb
    refine ⟨fun he => hquote (byte_inj hascii (by decide) he),
      fun he => hslash (byte_inj hascii (by decide) he), ?_⟩
    rw [UInt8.lt_iff_toNat_lt, byte_toNat hascii]
    exact hcontrol
  · have hle := le_of_mem_encode (Nat.not_le.1 hascii) hb
    refine ⟨?_, ?_, ?_⟩
    · rintro rfl
      exact absurd hle (by decide)
    · rintro rfl
      exact absurd hle (by decide)
    · rw [UInt8.lt_iff_toNat_lt]
      exact Nat.not_lt.2 (Nat.le_trans (by decide) hle)

/-- A printed character is read as itself. -/
theorem stringPart_escapeChar (c : Char) (read rest : Bytes) :
    stringPart read (utf8 (escapeChar c) ++ rest) =
      stringPart ((String.utf8EncodeChar c).reverse ++ read) rest := by
  have hescape {b : UInt8} {meant : Char} (hc : c = meant)
      (he : ∀ rest, escape (b :: rest) = .ok (String.utf8EncodeChar meant, 1)) :
      stringPart read (byte '\\' :: b :: rest) =
        stringPart ((String.utf8EncodeChar c).reverse ++ read) rest := by
    rw [hc]
    exact stringPart_escape read (he rest)
  unfold escapeChar
  split
  · next hc => exact hescape hc fun _ => rfl
  split
  · next hc => exact hescape hc fun _ => rfl
  split
  · next hc => exact hescape hc fun _ => rfl
  split
  · next hc => exact hescape hc fun _ => rfl
  split
  · next hc => exact hescape hc fun _ => rfl
  split
  · next hc => exact hescape hc fun _ => rfl
  split
  · next hc => exact hescape hc fun _ => rfl
  split
  · next hc => exact stringPart_control hc read rest
  · next hquote hslash _ _ _ _ _ hcontrol =>
    exact stringPart_plain hquote hslash hcontrol read rest

/-- A printed string is read as it was, after its opening quote. -/
theorem string_printed (text : String) (rest : Bytes) :
    string (utf8 (text.toList.flatMap escapeChar) ++ byte '"' :: rest) = .ok (text, rest) := by
  have hpart (chars : List Char) (read : Bytes) :
      stringPart read (utf8 (chars.flatMap escapeChar) ++ byte '"' :: rest) =
        (decodeText (read.reverse ++ utf8 chars)).map (·, rest) := by
    induction chars generalizing read with
    | nil =>
      rw [List.flatMap_nil, utf8, List.flatMap_nil, List.nil_append, stringPart, if_pos rfl,
        List.append_nil]
    | cons c chars ih =>
      rw [List.flatMap_cons, utf8_append, List.append_assoc, stringPart_escapeChar, ih,
        List.reverse_append, List.reverse_reverse, List.append_assoc]
      rfl
  rw [string, hpart, List.reverse_nil, List.nil_append, decodeText_utf8, String.ofList_toList]
  rfl

/-- What follows a printed value: nothing, a comma, or the end of the line. -/
def Stops (rest : Bytes) : Prop := ∀ b ∈ rest.head?, b = byte ',' ∨ b = byte '\n'

theorem Stops.not_digit {rest : Bytes} (h : Stops rest) : rest.head?.any isDigit = false := by
  cases rest with
  | nil => rfl
  | cons b rest => rcases h b rfl with rfl | rfl <;> rfl

theorem isDigit_byte {c : Char} (h : c.isDigit) : isDigit (byte c) = true ∧ c.toNat ≤ 127 ∧
    digitValue (byte c) = c.toNat - '0'.toNat := by
  have hv : c.toNat = c.val.toNat := rfl
  rw [Char.isDigit, Bool.and_eq_true, decide_eq_true_eq, decide_eq_true_eq, ge_iff_le,
    UInt32.le_iff_toNat_le, UInt32.le_iff_toNat_le, ← hv] at h
  obtain ⟨hlow, hhigh⟩ : 48 ≤ c.toNat ∧ c.toNat ≤ 57 := h
  have hbyte : (byte c).toNat = c.toNat := byte_toNat (by omega)
  refine ⟨?_, by omega, congrArg (· - 48) hbyte⟩
  rw [isDigit, Bool.and_eq_true, decide_eq_true_eq, decide_eq_true_eq, UInt8.le_iff_toNat_le,
    UInt8.le_iff_toNat_le, hbyte]
  exact ⟨hlow, hhigh⟩

theorem le_ofDigitChars (digits : List Char) (n : Nat) : n ≤ Nat.ofDigitChars 10 digits n := by
  induction digits generalizing n with
  | nil => exact Nat.le_refl n
  | cons c digits ih =>
    have hstep : n ≤ 10 * n + (c.toNat - '0'.toNat) := by omega
    exact Nat.le_trans hstep (ih _)

/-- Digits are read up to the first byte that is none, while their value fits. -/
theorem wholeDigits_printed {digits : List Char} (hd : ∀ c ∈ digits, c.isDigit) {rest : Bytes}
    (hr : Stops rest) {n : Nat} (hn : Nat.ofDigitChars 10 digits n ≤ maxSignificand) :
    wholeDigits n (utf8 digits ++ rest) = (Nat.ofDigitChars 10 digits n, false, rest) := by
  induction digits generalizing n with
  | nil =>
    have hstop := hr.not_digit
    cases rest with
    | nil => rfl
    | cons b rest =>
      have hb : ¬ isDigit b := Bool.eq_false_iff.1 hstop
      exact if_neg hb
  | cons c digits ih =>
    obtain ⟨hc, hd⟩ := List.forall_mem_cons.1 hd
    obtain ⟨hdigit, hascii, hvalue⟩ := isDigit_byte hc
    have hlonger : n * 10 + digitValue (byte c) = 10 * n + (c.toNat - '0'.toNat) := by
      rw [hvalue, Nat.mul_comm]
    have hfits := Nat.le_trans (le_ofDigitChars digits _) hn
    rw [utf8_cons_ascii hascii, List.cons_append, wholeDigits, if_pos hdigit]
    dsimp only
    rw [hlonger, if_pos hfits, ih hd hn]
    rfl

/-- A positive number is not written with a leading zero. -/
theorem head_toDigits {n : Nat} (h : 0 < n) :
    ∃ c digits, Nat.toDigits 10 n = c :: digits ∧ c ≠ '0' := by
  induction n using Nat.strongRecOn with
  | ind n ih =>
    by_cases hn : n < 10
    · refine ⟨n.digitChar, [], Nat.toDigits_of_lt_base hn, ?_⟩
      have hall : ∀ n : Fin 10, 0 < n.1 → Nat.digitChar n ≠ '0' := by decide
      exact hall ⟨n, hn⟩ h
    · obtain ⟨c, digits, hd, hc⟩ := ih (n / 10) (by omega) (by omega)
      rw [Nat.toDigits_of_base_le (by decide) (Nat.not_lt.1 hn), hd]
      exact ⟨c, _, List.cons_append, hc⟩

/-- A printed natural number is read after its sign, up to what follows it. -/
theorem number_printed (negative : Bool) {n : Nat} (hn : n ≤ maxSignificand) {rest : Bytes}
    (hr : Stops rest) :
    number negative (utf8 (Nat.toDigits 10 n) ++ rest) = .ok (wholeNumber negative n, rest) := by
  have hdigits : ∀ c ∈ Nat.toDigits 10 n, c.isDigit := fun c hc =>
    Nat.isDigit_of_mem_toDigits (by decide) (by decide) hc
  obtain ⟨c, digits, hd, hlead⟩ : ∃ c digits, Nat.toDigits 10 n = c :: digits ∧
      (c = '0' → digits = []) := by
    by_cases hlt : n < 10
    · exact ⟨n.digitChar, [], Nat.toDigits_of_lt_base hlt, fun _ => rfl⟩
    · obtain ⟨c, digits, hd, hc⟩ := head_toDigits (n := n) (by omega)
      exact ⟨c, digits, hd, fun he => absurd he hc⟩
  obtain ⟨hdigit, hascii, _⟩ := isDigit_byte (hdigits c (hd ▸ List.mem_cons_self))
  have hzero : ¬ (byte c = byte '0' ∧ (utf8 digits ++ rest).head?.any isDigit) := by
    rintro ⟨he, hnext⟩
    rw [hlead (byte_inj hascii (by decide) he)] at hnext
    exact absurd hnext (Bool.eq_false_iff.1 hr.not_digit)
  have hvalue : Nat.ofDigitChars 10 (Nat.toDigits 10 n) 0 = n := Nat.ofDigitChars_ten_toDigits
  have hwhole : wholeDigits 0 (byte c :: (utf8 digits ++ rest)) = (n, false, rest) := by
    have hprinted := wholeDigits_printed hdigits hr (n := 0) (hvalue.symm ▸ hn)
    rwa [hvalue, hd, utf8_cons_ascii hascii, List.cons_append] at hprinted
  rw [hd, utf8_cons_ascii hascii, List.cons_append, number, if_neg (by simp [hdigit]),
    if_neg hzero, hwhole]
  cases rest with
  | nil => rfl
  | cons b rest =>
    have hb : ¬ (b = byte '.' ∨ b = byte 'e' ∨ b = byte 'E') := by
      rcases hr b rfl with rfl | rfl <;> decide
    exact if_neg hb

end Breadboard.Json
