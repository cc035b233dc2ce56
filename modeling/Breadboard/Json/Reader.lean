import Breadboard.Json.Token

namespace Breadboard.Json

/-- The number of brackets that may be open at once. A reader is told as `levels` how many more it
may open. -/
def maxLevels : Nat := 127

/-- Go to the next item of a sequence; nothing at its closing bracket. -/
def nextItem (first : Bool) (bytes : Bytes) : Except ReadError (Option Bytes) :=
  match skipBlanks bytes with
  | [] => .error .truncated
  | b :: rest =>
    if b = byte ']' then .ok none
    else if first then .ok (some (b :: rest))
    else if b = byte ',' then
      match skipBlanks rest with
      | [] => .error .truncated
      | c :: rest => if c = byte ']' then .error .malformed else .ok (some (c :: rest))
    else .error .malformed

def closeSequence (bytes : Bytes) : Except ReadError Bytes :=
  match skipBlanks bytes with
  | [] => .error .truncated
  | b :: rest => if b = byte ']' then .ok rest else .error .malformed

/-- Read the items of a sequence up to its closing bracket. Every item is paid for with a byte of
the budget. -/
def items {α : Type} (item : Reader α) : (budget : Bytes) → Bool → Reader (List α)
  | [], _, _ => .error .malformed
  | _ :: budget, first, bytes =>
    match nextItem first bytes with
    | .error e => .error e
    | .ok none => .ok ([], bytes)
    | .ok (some bytes) =>
      match item bytes with
      | .error e => .error e
      | .ok (value, bytes) =>
        (items item budget false bytes).map fun (values, rest) => (value :: values, rest)

/-- Read a whole sequence after its opening bracket. An item takes at least one byte, so the text
pays for all of them, and one more byte for the closing bracket. -/
def sequence {α : Type} (item : Reader α) : Reader (List α)
  | bytes =>
    match items item (byte '[' :: bytes) true bytes with
    | .error e => .error e
    | .ok (values, rest) => (closeSequence rest).map (values, ·)

/-- Read the next key of a map, with its quotes; nothing after its closing bracket. -/
def nextKey (first : Bool) (bytes : Bytes) : Except ReadError (Option Bytes × Bytes) :=
  let key (bytes : Bytes) : Except ReadError (Option Bytes × Bytes) :=
    match bytes with
    | [] => .error .truncated
    | b :: rest => if b = byte '"' then .ok (some rest, rest) else .error .malformed
  match skipBlanks bytes with
  | [] => .error .truncated
  | b :: rest =>
    if b = byte '}' then .ok (none, rest)
    else if first then key (b :: rest)
    else if b = byte ',' then key (skipBlanks rest)
    else .error .malformed

def colon (bytes : Bytes) : Except ReadError Bytes :=
  match skipBlanks bytes with
  | [] => .error .truncated
  | b :: rest => if b = byte ':' then .ok rest else .error .malformed

/-- Read the entries of a map after its opening bracket, up to and with its closing one. An entry
is announced by its key, which may be refused, and then its value is read into the state. Every
entry is paid for with a byte of the budget. -/
def entries {κ σ : Type} (key : Reader κ) (announce : σ → κ → Except ReadError (Reader σ)) :
    (budget : Bytes) → Bool → σ → Reader σ
  | [], _, _, _ => .error .malformed
  | _ :: budget, first, state, bytes =>
    match nextKey first bytes with
    | .error e => .error e
    | .ok (none, rest) => .ok (state, rest)
    | .ok (some bytes, _) =>
      match key bytes with
      | .error e => .error e
      | .ok (name, bytes) =>
        match announce state name with
        | .error e => .error e
        | .ok value =>
          match colon bytes with
          | .error e => .error e
          | .ok bytes =>
            match value bytes with
            | .error e => .error e
            | .ok (state, bytes) => entries key announce budget false state bytes

/-- Read a whole map after its opening bracket; the text pays for its entries. -/
def mapping {κ σ : Type} (key : Reader κ) (announce : σ → κ → Except ReadError (Reader σ))
    (start : σ) : Reader σ
  | bytes => entries key announce (byte '{' :: bytes) true start bytes

def value : Nat → Reader Value
  | levels, bytes =>
    match skipBlanks bytes with
    | [] => .error .truncated
    | b :: rest =>
      if b = byte 'n' then (word ['u', 'l', 'l'] rest).map fun (_, rest) => (.null, rest)
      else if b = byte 't' then (word ['r', 'u', 'e'] rest).map fun (_, rest) => (.bool true, rest)
      else if b = byte 'f' then
        (word ['a', 'l', 's', 'e'] rest).map fun (_, rest) => (.bool false, rest)
      else if b = byte '-' then (number true rest).map fun (n, rest) => (.number n, rest)
      else if isDigit b then (number false (b :: rest)).map fun (n, rest) => (.number n, rest)
      else if b = byte '"' then (string rest).map fun (text, rest) => (.string text, rest)
      else if b = byte '[' then
        match levels with
        | 0 => .error .malformed
        | levels + 1 => (sequence (value levels) rest).map fun (vs, rest) => (.array vs, rest)
      else if b = byte '{' then
        match levels with
        | 0 => .error .malformed
        | levels + 1 =>
          (mapping string (fun fields key => .ok fun bytes =>
              (value levels bytes).map fun (v, rest) => ((key, v) :: fields, rest)) [] rest).map
            fun (fields, rest) => (.object (sortFields fields.reverse), rest)
      else .error .malformed

/-- Skip a value of any shape. Every bracket that is opened is paid for with a byte of the budget,
so the text itself is enough for all of them. -/
def skipValue : (budget : Bytes) → Reader Unit
  | budget, bytes =>
    match skipBlanks bytes with
    | [] => .error .truncated
    | b :: rest =>
      if b = byte 'n' then word ['u', 'l', 'l'] rest
      else if b = byte 't' then word ['r', 'u', 'e'] rest
      else if b = byte 'f' then word ['a', 'l', 's', 'e'] rest
      else if b = byte '-' then (skipNumber rest).map ((), ·)
      else if isDigit b then (skipNumber (b :: rest)).map ((), ·)
      else if b = byte '"' then (skipString rest).map ((), ·)
      else if b = byte '[' then
        match budget with
        | [] => .error .malformed
        | _ :: budget => (sequence (skipValue budget) rest).map fun (_, rest) => ((), rest)
      else if b = byte '{' then
        match budget with
        | [] => .error .malformed
        | _ :: budget =>
          mapping (fun bytes => (skipString bytes).map ((), ·))
            (fun _ _ => .ok (skipValue budget)) () rest
      else .error .malformed

/-- Nothing but blanks may follow a document. -/
def document {α : Type} (reader : Reader α) (bytes : Bytes) : Except ReadError α :=
  match reader bytes with
  | .error e => .error e
  | .ok (a, rest) => if (skipBlanks rest).isEmpty then .ok a else .error .malformed

def Value.read (bytes : Bytes) : Except ReadError Value := document (value maxLevels) bytes

end Breadboard.Json
