namespace Breadboard.Json

/-- A number as it was written: an integer that fits 64 bits, or a float. -/
inductive Number where
  | integer (value : Int)
  | float (value : Float)
  deriving Inhabited

inductive Value where
  | null
  | bool (value : Bool)
  | number (value : Number)
  | string (text : String)
  | array (items : List Value)
  | object (fields : List (String × Value))
  deriving Inhabited

namespace Value

def ofNat (n : Nat) : Value := .number (.integer n)

def strings (texts : List String) : Value := .array (texts.map .string)

def string? : Value → Option String
  | .string text => some text
  | _ => none

def array? : Value → Option (List Value)
  | .array items => some items
  | _ => none

/-- The strings among the items of an array. -/
def stringItems? (v : Value) : Option (List String) := v.array?.map (·.filterMap string?)

@[simp] theorem stringItems?_strings (texts : List String) :
    (strings texts).stringItems? = some texts := by
  simp [stringItems?, strings, array?, List.filterMap_map, Function.comp_def, string?]

end Value

/-- Add a field before the first larger key; an equal key loses its earlier value. -/
def insertField (key : String) (value : Value) : List (String × Value) → List (String × Value)
  | [] => [(key, value)]
  | e :: es =>
    if key < e.1 then (key, value) :: e :: es
    else if key = e.1 then (key, value) :: es
    else e :: insertField key value es

/-- The fields by ascending key, where the last value of a repeated key counts. -/
def sortFields (fields : List (String × Value)) : List (String × Value) :=
  fields.foldl (fun sorted (key, value) => insertField key value sorted) []

/-- The keys ascend, so none is repeated. -/
def Ascending (fields : List (String × Value)) : Prop := (fields.map (·.1)).Pairwise (· < ·)

theorem mem_keys_insertField {key k : String} {value : Value} {fields : List (String × Value)} :
    k ∈ (insertField key value fields).map (·.1) ↔ k = key ∨ k ∈ fields.map (·.1) := by
  induction fields with
  | nil => simp [insertField]
  | cons e es ih =>
    simp only [insertField]
    split
    · simp
    · split
      · next h => subst h; simp
      · simp only [List.map_cons, List.mem_cons, ih]
        exact or_left_comm

theorem ascending_insertField {key : String} {value : Value} {fields : List (String × Value)}
    (h : Ascending fields) : Ascending (insertField key value fields) := by
  induction fields with
  | nil => simp [insertField, Ascending]
  | cons e es ih =>
    have hp := List.pairwise_cons.1 h
    simp only [insertField]
    split
    · next hlt =>
      refine List.pairwise_cons.2 ⟨fun k hk => ?_, h⟩
      rcases List.mem_cons.1 hk with rfl | hk
      · exact hlt
      · exact String.lt_trans hlt (hp.1 k hk)
    · split
      · next heq => subst heq; exact List.pairwise_cons.2 hp
      · next hlt hne =>
        refine List.pairwise_cons.2 ⟨fun k hk => ?_, ih hp.2⟩
        rcases mem_keys_insertField.1 hk with rfl | hk
        · exact Std.lt_of_le_of_ne (String.not_lt.1 hlt) (Ne.symm hne)
        · exact hp.1 k hk

theorem ascending_sortFields (fields : List (String × Value)) : Ascending (sortFields fields) := by
  suffices h : ∀ sorted, Ascending sorted →
      Ascending (fields.foldl (fun sorted (key, value) => insertField key value sorted) sorted) from
    h [] List.Pairwise.nil
  induction fields with
  | nil => exact fun _ h => h
  | cons e es ih => exact fun sorted h => ih _ (ascending_insertField h)

end Breadboard.Json
