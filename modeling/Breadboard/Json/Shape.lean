import Breadboard.Json.Reader

namespace Breadboard.Json

/-- The error for a value that is not of the expected shape. A scalar is read to its end first, and
what is wrong with it counts before its shape. -/
def wrongType (expected : String) (bytes : Bytes) : ReadError :=
  let mismatch (found : Found) : ReadError := .mismatch (.wrongType found expected)
  let after {α : Type} (read : Except ReadError (α × Bytes)) (found : α → Found) : ReadError :=
    match read with
    | .error e => e
    | .ok (a, _) => mismatch (found a)
  let foundNumber : Number → Found
    | .integer n => .integer n
    | .float x => .float x
  match bytes with
  | [] => .truncated
  | b :: rest =>
    if b = byte 'n' then after (word ['u', 'l', 'l'] rest) fun _ => .null
    else if b = byte 't' then after (word ['r', 'u', 'e'] rest) fun _ => .bool true
    else if b = byte 'f' then after (word ['a', 'l', 's', 'e'] rest) fun _ => .bool false
    else if b = byte '-' then after (number true rest) foundNumber
    else if isDigit b then after (number false (b :: rest)) foundNumber
    else if b = byte '"' then after (string rest) .string
    else if b = byte '[' then mismatch .sequence
    else if b = byte '{' then mismatch .map
    else .malformed

def text : Reader String := fun bytes =>
  match skipBlanks bytes with
  | [] => .error .truncated
  | b :: rest => if b = byte '"' then string rest else .error (wrongType "a string" (b :: rest))

/-- Read a number, where a value of another type is reported against what is expected. -/
def anyNumber (expected : String) : Reader Number := fun bytes =>
  match skipBlanks bytes with
  | [] => .error .truncated
  | b :: rest =>
    if b = byte '-' then number true rest
    else if isDigit b then number false (b :: rest)
    else .error (wrongType expected (b :: rest))

/-- Read a natural number below `2 ^ 64`. -/
def natural : Reader Nat := fun bytes =>
  match anyNumber "usize" bytes with
  | .error e => .error e
  | .ok (.integer n, rest) =>
    if 0 ≤ n then .ok (n.toNat, rest) else .error (.mismatch (.wrongValue n "usize"))
  | .ok (.float x, _) => .error (.mismatch (.wrongType (.float x) "usize"))

/-- Read a natural number, or `null` for none. -/
def optionalNatural : Reader (Option Nat) := fun bytes =>
  match skipBlanks bytes with
  | [] => .error .truncated
  | b :: rest =>
    if b = byte 'n' then (word ['u', 'l', 'l'] rest).map fun (_, rest) => (none, rest)
    else (natural (b :: rest)).map fun (n, rest) => (some n, rest)

/-- An integer as a float, rounded to the nearest. -/
def integerToFloat (n : Int) : Float :=
  let magnitude := (UInt64.ofNat n.natAbs).toFloat
  if n < 0 then -magnitude else magnitude

/-- Read a float; integers are converted. -/
def float : Reader Float := fun bytes =>
  match anyNumber "f64" bytes with
  | .error e => .error e
  | .ok (.integer n, rest) => .ok (integerToFloat n, rest)
  | .ok (.float x, rest) => .ok (x, rest)

/-- Read a sequence of items; the reader of an item is given the levels that are left. -/
def listOf {α : Type} (levels : Nat) (item : Nat → Reader α) : Reader (List α) := fun bytes =>
  match skipBlanks bytes with
  | [] => .error .truncated
  | b :: rest =>
    if b = byte '[' then
      match levels with
      | 0 => .error .malformed
      | levels + 1 => sequence (item levels) rest
    else .error (wrongType "a sequence" (b :: rest))

def floatPair (levels : Nat) : Reader (Float × Float) := fun bytes =>
  let expected := "an array of length 2"
  match skipBlanks bytes with
  | [] => .error .truncated
  | b :: rest =>
    if b = byte '[' then
      if levels = 0 then .error .malformed
      else
        match nextItem true rest with
        | .error e => .error e
        | .ok none => .error (.mismatch (.wrongLength 0 expected))
        | .ok (some bytes) =>
          match float bytes with
          | .error e => .error e
          | .ok (x, bytes) =>
            match nextItem false bytes with
            | .error e => .error e
            | .ok none => .error (.mismatch (.wrongLength 1 expected))
            | .ok (some bytes) =>
              match float bytes with
              | .error e => .error e
              | .ok (y, bytes) => (closeSequence bytes).map ((x, y), ·)
    else .error (wrongType expected (b :: rest))

/-- Read a map; entries are announced by their keys. -/
def mapOf {σ : Type} (expected : String) (levels : Nat)
    (announce : Nat → σ → String → Except ReadError (Reader σ)) (start : σ) : Reader σ :=
  fun bytes =>
    match skipBlanks bytes with
    | [] => .error .truncated
    | b :: rest =>
      if b = byte '{' then
        match levels with
        | 0 => .error .malformed
        | levels + 1 => mapping string (announce levels) start rest
      else .error (wrongType expected (b :: rest))

/-- A field of a record under construction: its name, whether it may be left out, whether it was
read already, and how its value is read; the reader is given the levels that are left. -/
structure RecordField (σ : Type) where
  name : String
  optional : Bool
  isRead : σ → Bool
  read : Nat → σ → Reader σ

/-- Read the values of fields in order, from a sequence. -/
def fieldsInOrder {σ : Type} (expected : String) (levels : Nat) :
    (index : Nat) → List (RecordField σ) → σ → Reader σ
  | _, [], state, bytes => .ok (state, bytes)
  | index, field :: fields, state, bytes =>
    match nextItem (index == 0) bytes with
    | .error e => .error e
    | .ok none =>
      if field.optional then fieldsInOrder expected levels (index + 1) fields state bytes
      else .error (.mismatch (.wrongLength index expected))
    | .ok (some bytes) =>
      match field.read levels state bytes with
      | .error e => .error e
      | .ok (state, bytes) => fieldsInOrder expected levels (index + 1) fields state bytes

/-- How the value of a key is read: a field is read once, an unknown key is skipped. -/
def announceField {σ : Type} (fields : List (RecordField σ)) (levels : Nat) (state : σ)
    (key : String) :
    Except ReadError (Reader σ) :=
  match fields.find? (·.name == key) with
  | none => .ok fun bytes => (skipValue bytes bytes).map fun (_, rest) => (state, rest)
  | some field =>
    if field.isRead state then .error (.mismatch (.duplicateField key))
    else .ok (field.read levels state)

/-- The first required field that was not read. -/
def missingField? {σ : Type} (fields : List (RecordField σ)) (state : σ) : Option String :=
  (fields.find? fun field => !field.optional && !field.isRead state).map (·.name)

/-- What a sequence for a record should have been. -/
def recordLength (expected : String) (count : Nat) : String :=
  if count = 1 then s!"{expected} with 1 element" else s!"{expected} with {count} elements"

/-- Read a record, which is written as a map of its fields, or as the sequence of their values in
order. -/
def record {σ : Type} (expected : String) (fields : List (RecordField σ)) (start : σ)
    (levels : Nat) : Reader σ := fun bytes =>
  match skipBlanks bytes with
  | [] => .error .truncated
  | b :: rest =>
    if b = byte '[' then
      match levels with
      | 0 => .error .malformed
      | levels + 1 =>
        match fieldsInOrder (recordLength expected fields.length) levels 0 fields start rest with
        | .error e => .error e
        | .ok (state, bytes) => (closeSequence bytes).map (state, ·)
    else if b = byte '{' then
      match levels with
      | 0 => .error .malformed
      | levels + 1 =>
        match mapping string (announceField fields levels) start rest with
        | .error e => .error e
        | .ok (state, bytes) =>
          match missingField? fields state with
          | some name => .error (.mismatch (.missingField name))
          | none => .ok (state, bytes)
    else .error (wrongType expected (b :: rest))

end Breadboard.Json
