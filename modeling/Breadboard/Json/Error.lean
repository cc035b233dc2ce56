import Breadboard.Decimal.Layout
import Breadboard.Text.Quoted

namespace Breadboard.Json

/-- What stands where something else was expected. -/
inductive Found where
  | null
  | bool (value : Bool)
  | integer (value : Int)
  | float (value : Float)
  | string (text : String)
  | sequence
  | map
  deriving Inhabited

/-- How the shape of a value differs from what was expected. -/
inductive Mismatch where
  | missingField (name : String)
  | duplicateField (name : String)
  | wrongType (found : Found) (expected : String)
  | wrongValue (value : Int) (expected : String)
  | wrongLength (length : Nat) (expected : String)
  deriving Inhabited

/-- Why a text was not read: it is no JSON, it ends too early, or it has the wrong shape. -/
inductive ReadError where
  | malformed
  | truncated
  | mismatch (reason : Mismatch)
  deriving Inhabited

/-- Floats are written positionally from five places after the point up to sixteen before it. -/
def floatLayout : Decimal.Layout := ⟨-5, 15⟩

def Found.describe : Found → String
  | .null => "null"
  | .bool value => s!"boolean `{value}`"
  | .integer value => s!"integer `{value}`"
  | .float value => s!"floating point `{floatLayout.writeFloat value}`"
  | .string text => s!"string {Text.quote text}"
  | .sequence => "sequence"
  | .map => "map"

def Mismatch.message : Mismatch → String
  | .missingField name => s!"missing field `{name}`"
  | .duplicateField name => s!"duplicate field `{name}`"
  | .wrongType found expected => s!"invalid type: {found.describe}, expected {expected}"
  | .wrongValue value expected => s!"invalid value: integer `{value}`, expected {expected}"
  | .wrongLength length expected => s!"invalid length {length}, expected {expected}"

end Breadboard.Json
