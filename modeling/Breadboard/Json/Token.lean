import Breadboard.Json.Basic
import Breadboard.Json.Error

namespace Breadboard.Json

/-- The bytes that are still to be read. -/
abbrev Bytes := List UInt8

/-- Reads something from the front of the bytes. -/
abbrev Reader (α : Type) := Bytes → Except ReadError (α × Bytes)

def byte (c : Char) : UInt8 := UInt8.ofNat c.toNat

/-- Blanks may stand between tokens: space, tab, line feed and carriage return. -/
def isBlank (b : UInt8) : Bool := b == 32 || b == 9 || b == 10 || b == 13

/-- The bytes from the first that is no blank. -/
def skipBlanks (bytes : Bytes) : Bytes := bytes.dropWhile isBlank

def isDigit (b : UInt8) : Bool := 48 ≤ b && b ≤ 57

def digitValue (b : UInt8) : Nat := b.toNat - 48

def hexValue? (b : UInt8) : Option Nat :=
  if isDigit b then some (digitValue b)
  else if 97 ≤ b && b ≤ 102 then some (b.toNat - 87)
  else if 65 ≤ b && b ≤ 70 then some (b.toNat - 55)
  else none

/-- Read the given characters and nothing else. -/
def word : List Char → Reader Unit
  | [], bytes => .ok ((), bytes)
  | _ :: _, [] => .error .truncated
  | c :: cs, b :: bytes => if b = byte c then word cs bytes else .error .malformed

/-- The largest significand, of 64 binary ones. -/
def maxSignificand : Nat := 0xFFFFFFFFFFFFFFFF

/-- Take digits into the significand while it fits; answers also whether a digit did not fit. -/
def wholeDigits (significand : Nat) : Bytes → Nat × Bool × Bytes
  | [] => (significand, false, [])
  | b :: bytes =>
    if isDigit b then
      let longer := significand * 10 + digitValue b
      if longer ≤ maxSignificand then wholeDigits longer bytes else (significand, true, b :: bytes)
    else (significand, false, b :: bytes)

/-- Take digits after the point into the significand while it fits, and skip the others. -/
def fractionDigits (significand : Nat) (exponent : Int) : Bytes → Nat × Int × Bytes
  | [] => (significand, exponent, [])
  | b :: bytes =>
    if isDigit b then
      let longer := significand * 10 + digitValue b
      if longer ≤ maxSignificand then fractionDigits longer (exponent - 1) bytes
      else (significand, exponent, bytes.dropWhile isDigit)
    else (significand, exponent, b :: bytes)

/-- The value of a row of digits. -/
def digitsValue (digits : Bytes) : Nat := digits.foldl (fun n b => n * 10 + digitValue b) 0

/-- Multiply a float by a power of ten; the result has to be finite. -/
def scale (value : Float) (exponent : Int) : Option Float :=
  if h : exponent < -308 then
    if value == 0 then some value
    else scale (value / Float.ofScientific 1 false 308) (exponent + 308)
  else if exponent < 0 then some (value / Float.ofScientific 1 false (-exponent).toNat)
  else if exponent ≤ 308 then
    let scaled := value * Float.ofScientific 1 false exponent.toNat
    if scaled.isInf then none else some scaled
  else if value == 0 then some value
  else none
termination_by (-exponent).toNat
decreasing_by omega

def signed (negative : Bool) (value : Float) : Float := if negative then -value else value

/-- The float of a significand and a power of ten. -/
def toFloat (negative : Bool) (significand : Nat) (exponent : Int) : Except ReadError Float :=
  match scale (UInt64.ofNat significand).toFloat exponent with
  | some value => .ok (signed negative value)
  | none => .error .malformed

/-- The largest exponent that is counted; a larger one makes every number zero or too large. -/
def maxExponent : Nat := 0x7FFFFFFF

/-- Read what follows the letter of an exponent. -/
def exponentPart (negative : Bool) (significand : Nat) (exponent : Int) : Reader Float
  | bytes =>
    let (down, bytes) := match bytes with
      | [] => (false, [])
      | b :: rest =>
        if b = byte '-' then (true, rest) else if b = byte '+' then (false, rest)
        else (false, b :: rest)
    match bytes with
    | [] => .error .truncated
    | b :: _ =>
      if !isDigit b then .error .malformed
      else
        let digits := bytes.takeWhile isDigit
        let rest := bytes.dropWhile isDigit
        let shift := digitsValue digits
        if maxExponent < shift then
          if significand ≠ 0 ∧ !down then .error .malformed
          else .ok (signed negative 0, rest)
        else
          (toFloat negative significand (if down then exponent - shift else exponent + shift)).map
            (·, rest)

/-- Read an exponent, if there is one. -/
def optionalExponent (negative : Bool) (significand : Nat) (exponent : Int) : Reader Float
  | [] => (toFloat negative significand exponent).map (·, [])
  | b :: bytes =>
    if b = byte 'e' ∨ b = byte 'E' then exponentPart negative significand exponent bytes
    else (toFloat negative significand exponent).map (·, b :: bytes)

/-- Read the digits after the point, and an exponent. -/
def fractionPart (negative : Bool) (significand : Nat) (exponent : Int) : Reader Float
  | [] => .error .truncated
  | b :: bytes =>
    if !isDigit b then .error .malformed
    else
      let (significand, exponent, rest) := fractionDigits significand exponent (b :: bytes)
      optionalExponent negative significand exponent rest

/-- Read what follows the whole part of a number that is not an integer by its size alone. -/
def floatPart (negative : Bool) (significand : Nat) (exponent : Int) : Reader Float
  | [] => optionalExponent negative significand exponent []
  | b :: bytes =>
    if b = byte '.' then fractionPart negative significand exponent bytes
    else optionalExponent negative significand exponent (b :: bytes)

/-- The number of a literal without point and exponent. Minus zero, and what does not fit 64 bits,
is a float. -/
def wholeNumber (negative : Bool) (significand : Nat) : Number :=
  if !negative then .integer significand
  else if 0 < significand ∧ significand ≤ 0x8000000000000000 then .integer (-significand)
  else .float (-(UInt64.ofNat significand).toFloat)

/-- Read a number after its sign. The significand is converted to a float once, and multiplied or
divided by a power of ten once, so a literal with many digits may read as a neighbour of the nearest
float. -/
def number (negative : Bool) : Reader Number
  | [] => .error .truncated
  | b :: bytes =>
    if !isDigit b then .error .malformed
    else if b = byte '0' ∧ (bytes.head?.any isDigit) then .error .malformed
    else
      match wholeDigits 0 (b :: bytes) with
      | (significand, true, rest) =>
        let extra := (rest.takeWhile isDigit).length
        (floatPart negative significand extra (rest.dropWhile isDigit)).map fun (value, rest) =>
          (.float value, rest)
      | (significand, false, rest) =>
        match rest with
        | [] => .ok (wholeNumber negative significand, [])
        | c :: _ =>
          if c = byte '.' ∨ c = byte 'e' ∨ c = byte 'E' then
            (floatPart negative significand 0 rest).map fun (value, rest) => (.float value, rest)
          else .ok (wholeNumber negative significand, rest)

def hexUnit (bytes : Bytes) : Except ReadError Nat :=
  match bytes with
  | a :: b :: c :: d :: _ =>
    match hexValue? a, hexValue? b, hexValue? c, hexValue? d with
    | some a, some b, some c, some d => .ok (((a * 16 + b) * 16 + c) * 16 + d)
    | _, _, _, _ => .error .malformed
  | _ => .error .truncated

/-- The bytes of the character with a code point. -/
def charBytes (code : Nat) : Bytes := String.utf8EncodeChar (Char.ofNat code)

/-- Read the low half of a surrogate pair, after the four digits of its high half; answers the code
point. -/
def lowSurrogate (high : Nat) : Bytes → Except ReadError Nat
  | [] => .error .truncated
  | b :: bytes =>
    if b ≠ byte '\\' then .error .malformed
    else
      match bytes with
      | [] => .error .truncated
      | c :: rest =>
        if c ≠ byte 'u' then .error .malformed
        else
          match hexUnit rest with
          | .error e => .error e
          | .ok low =>
            if low < 0xDC00 ∨ 0xDFFF < low then .error .malformed
            else .ok (0x10000 + (high - 0xD800) * 0x400 + (low - 0xDC00))

/-- Read what follows the backslash of an escape: the bytes it stands for, and how many bytes it
takes. -/
def escape : Bytes → Except ReadError (Bytes × Nat)
  | [] => .error .truncated
  | b :: bytes =>
    if b = byte '"' ∨ b = byte '\\' ∨ b = byte '/' then .ok ([b], 1)
    else if b = byte 'b' then .ok ([8], 1)
    else if b = byte 'f' then .ok ([12], 1)
    else if b = byte 'n' then .ok ([10], 1)
    else if b = byte 'r' then .ok ([13], 1)
    else if b = byte 't' then .ok ([9], 1)
    else if b = byte 'u' then
      match hexUnit bytes with
      | .error e => .error e
      | .ok unit =>
        if unit < 0xD800 ∨ 0xDFFF < unit then .ok (charBytes unit, 5)
        else if 0xDC00 ≤ unit then .error .malformed
        else (lowSurrogate unit (bytes.drop 4)).map fun code => (charBytes code, 11)
    else .error .malformed

/-- The text of bytes in UTF-8. -/
def decodeText (bytes : Bytes) : Except ReadError String :=
  match String.fromUTF8? ⟨bytes.toArray⟩ with
  | some text => .ok text
  | none => .error .malformed

/-- Read a string after its opening quote; the bytes read so far are kept in reverse. -/
def stringPart (read : Bytes) : Reader String
  | [] => .error .truncated
  | b :: bytes =>
    if b = byte '"' then (decodeText read.reverse).map (·, bytes)
    else if b = byte '\\' then
      match escape bytes with
      | .error e => .error e
      | .ok (meant, length) => stringPart (meant.reverse ++ read) (bytes.drop length)
    else if b < 32 then .error .malformed
    else stringPart (b :: read) bytes
termination_by bytes => bytes.length

def string : Reader String := stringPart []

/-- Read what follows the backslash of an escape; answers how many bytes it takes. -/
def skipEscape : Bytes → Except ReadError Nat
  | [] => .error .truncated
  | b :: bytes =>
    if b = byte 'u' then (hexUnit bytes).map fun _ => 5
    else if b ∈ ['"', '\\', '/', 'b', 'f', 'n', 'r', 't'].map byte then .ok 1
    else .error .malformed

/-- Skip a string that is not kept; it may hold any bytes and any escaped units. -/
def skipString : Bytes → Except ReadError Bytes
  | [] => .error .truncated
  | b :: bytes =>
    if b = byte '"' then .ok bytes
    else if b = byte '\\' then
      match skipEscape bytes with
      | .error e => .error e
      | .ok length => skipString (bytes.drop length)
    else if b < 32 then .error .malformed
    else skipString bytes
termination_by bytes => bytes.length

/-- Skip at least one digit. -/
def skipDigits (bytes : Bytes) : Except ReadError Bytes :=
  if bytes.head?.any isDigit then .ok (bytes.dropWhile isDigit) else .error .malformed

/-- Skip an exponent, if there is one. -/
def skipExponent : Bytes → Except ReadError Bytes
  | [] => .ok []
  | b :: bytes =>
    if b = byte 'e' ∨ b = byte 'E' then
      match bytes with
      | [] => .error .malformed
      | c :: rest => skipDigits (if c = byte '+' ∨ c = byte '-' then rest else c :: rest)
    else .ok (b :: bytes)

/-- Skip a number after its sign. -/
def skipNumber : Bytes → Except ReadError Bytes
  | [] => .error .malformed
  | b :: bytes =>
    if !isDigit b then .error .malformed
    else if b = byte '0' ∧ (bytes.head?.any isDigit) then .error .malformed
    else
      match bytes.dropWhile isDigit with
      | [] => .ok []
      | c :: rest =>
        if c = byte '.' then (skipDigits rest).bind skipExponent else skipExponent (c :: rest)

end Breadboard.Json
