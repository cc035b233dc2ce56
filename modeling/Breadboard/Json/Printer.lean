import Breadboard.Json.Basic
import Breadboard.Json.Error

namespace Breadboard.Json

def hexByte (n : Nat) : List Char := [Nat.digitChar (n / 16), Nat.digitChar (n % 16)]

/-- A character as it stands in a JSON string. -/
def escapeChar (c : Char) : List Char :=
  if c = '"' then ['\\', '"']
  else if c = '\\' then ['\\', '\\']
  else if c = Char.ofNat 8 then ['\\', 'b']
  else if c = Char.ofNat 12 then ['\\', 'f']
  else if c = '\n' then ['\\', 'n']
  else if c = '\r' then ['\\', 'r']
  else if c = '\t' then ['\\', 't']
  else if c.toNat < 32 then ['\\', 'u', '0', '0'] ++ hexByte c.toNat
  else [c]

/-- The characters of a JSON string, quotes included. -/
def printString (text : String) : List Char := '"' :: text.toList.flatMap escapeChar ++ ['"']

def printNumber : Number → List Char
  | .integer n => (toString n).toList
  | .float x => (floatLayout.writeFloat x).toList

/-- A line break and the blanks of a level. -/
def newLine (level : Nat) : List Char := '\n' :: List.replicate (2 * level) ' '

mutual

/-- The characters of a value whose first line stands at a level. -/
def print (level : Nat) : Value → List Char
  | .null => ['n', 'u', 'l', 'l']
  | .bool true => ['t', 'r', 'u', 'e']
  | .bool false => ['f', 'a', 'l', 's', 'e']
  | .number n => printNumber n
  | .string text => printString text
  | .array [] => ['[', ']']
  | .array (v :: vs) =>
    '[' :: newLine (level + 1) ++ print (level + 1) v ++ printItems (level + 1) vs ++
      newLine level ++ [']']
  | .object [] => ['{', '}']
  | .object ((key, v) :: fields) =>
    '{' :: newLine (level + 1) ++ printString key ++ [':', ' '] ++ print (level + 1) v ++
      printFields (level + 1) fields ++ newLine level ++ ['}']

/-- The characters of the items after the first. -/
def printItems (level : Nat) : List Value → List Char
  | [] => []
  | v :: vs => ',' :: newLine level ++ print level v ++ printItems level vs

/-- The characters of the fields after the first. -/
def printFields (level : Nat) : List (String × Value) → List Char
  | [] => []
  | (key, v) :: fields =>
    ',' :: newLine level ++ printString key ++ [':', ' '] ++ print level v ++
      printFields level fields

end

def Value.pretty (v : Value) : String := String.ofList (print 0 v)

end Breadboard.Json
