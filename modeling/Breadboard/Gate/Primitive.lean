import Breadboard.Gate.Basic

namespace Breadboard

/-- The standard gates: two with one input, six with two. -/
inductive Primitive where
  | buffer
  | not
  | and
  | nand
  | or
  | nor
  | xor
  | xnor
  deriving DecidableEq, Repr, Inhabited

namespace Primitive

/-- The standard gates in their usual order. -/
def all : List Primitive := [.buffer, .not, .and, .nand, .or, .nor, .xor, .xnor]

def index (p : Primitive) : Nat := p.ctorIdx

def name : Primitive → String
  | .buffer => "BUFFER"
  | .not => "NOT"
  | .and => "AND"
  | .nand => "NAND"
  | .or => "OR"
  | .nor => "NOR"
  | .xor => "XOR"
  | .xnor => "XNOR"

/-- The standard gate of a name; a buffer may also be called `BUF`. -/
def ofName? (name : String) : Option Primitive :=
  if name = "BUF" then some .buffer else all.find? (·.name == name)

def inputNames : Primitive → List String
  | .buffer | .not => ["A"]
  | _ => ["A", "B"]

def color : Primitive → String
  | .buffer => "#9e9e9e"
  | .not => "#faae3c"
  | .and => "#eb4034"
  | .nand => "#b3261e"
  | .or => "#3c8bfa"
  | .nor => "#1f5fbf"
  | .xor => "#8e3cfa"
  | .xnor => "#5e1fb3"

/-- The operation; a gate with one input ignores the second operand. -/
def apply (p : Primitive) (a b : Bool) : Bool :=
  match p with
  | .buffer => a
  | .not => !a
  | .and => a && b
  | .nand => !(a && b)
  | .or => a || b
  | .nor => !(a || b)
  | .xor => a ^^ b
  | .xnor => !(a ^^ b)

def eval (p : Primitive) (inputs : Bits) : Bool :=
  p.apply (inputs.getD 0 false) (inputs.getD 1 false)

def gate (p : Primitive) : Gate where
  name := p.name
  inputs := p.inputNames
  outputs := ["X"]
  logic := .primitive ⟨p.index, fun inputs => [p.eval inputs]⟩
  metadata := Named.ofList [(Metadata.color, .string p.color)]

theorem mem_all (p : Primitive) : p ∈ all := by cases p <;> decide

end Primitive

end Breadboard
