namespace Breadboard

/-- Values under names, in the order in which the names first came. -/
structure Named (α : Type) where
  entries : List (String × α) := []

namespace Named

variable {α : Type}

instance : EmptyCollection (Named α) := ⟨⟨[]⟩⟩
instance : Inhabited (Named α) := ⟨∅⟩

def get? (m : Named α) (name : String) : Option α :=
  (m.entries.find? (·.1 == name)).map (·.2)

def contains (m : Named α) (name : String) : Bool := (m.get? name).isSome

def names (m : Named α) : List String := m.entries.map (·.1)

def values (m : Named α) : List α := m.entries.map (·.2)

def size (m : Named α) : Nat := m.entries.length

/-- Put a value in the place of its name, or at the end of the list for a new name. -/
def put (name : String) (value : α) : List (String × α) → List (String × α)
  | [] => [(name, value)]
  | e :: es => if e.1 = name then (name, value) :: es else e :: put name value es

/-- Bind a name; a name that is bound already keeps its place and takes the new value. -/
def insert (m : Named α) (name : String) (value : α) : Named α := ⟨put name value m.entries⟩

def insertAll (m : Named α) (bindings : List (String × α)) : Named α :=
  bindings.foldl (fun m (name, value) => m.insert name value) m

def ofList (bindings : List (String × α)) : Named α := insertAll ∅ bindings

@[simp] theorem get?_empty (name : String) : (∅ : Named α).get? name = none := rfl

theorem get?_insert (m : Named α) (name : String) (value : α) (name' : String) :
    (m.insert name value).get? name' = if name = name' then some value else m.get? name' := by
  simp only [get?, insert]
  induction m.entries with
  | nil => by_cases h : name = name' <;> simp [put, h]
  | cons e es ih =>
    by_cases he : e.1 = name
    · by_cases h : name = name'
      · simp [put, he, h]
      · simp [put, he, h]
    · by_cases h : e.1 = name'
      · have hn : name ≠ name' := fun hn => he (h.trans hn.symm)
        simp [put, h, Ne.symm hn, hn]
      · simpa [put, he, h] using ih

@[simp] theorem get?_insert_self (m : Named α) (name : String) (value : α) :
    (m.insert name value).get? name = some value := by simp [get?_insert]

theorem mem_names_iff (m : Named α) (name : String) : name ∈ m.names ↔ (m.get? name).isSome := by
  simp only [names, get?, List.mem_map, Option.isSome_map, List.find?_isSome, beq_iff_eq]

private theorem map_fst_put (name : String) (value : α) (es : List (String × α)) :
    (put name value es).map (·.1) =
      if name ∈ es.map (·.1) then es.map (·.1) else es.map (·.1) ++ [name] := by
  induction es with
  | nil => simp [put]
  | cons e es ih =>
    by_cases he : e.1 = name
    · simp [put, he]
    · have hm : name ∈ (e :: es).map (·.1) ↔ name ∈ es.map (·.1) := by simp [Ne.symm he]
      rw [put, if_neg he, List.map_cons, ih]
      by_cases h : name ∈ es.map (·.1)
      · rw [if_pos h, if_pos (hm.2 h), List.map_cons]
      · rw [if_neg h, if_neg (fun k => h (hm.1 k)), List.map_cons, List.cons_append]

theorem names_insert (m : Named α) (name : String) (value : α) :
    (m.insert name value).names = if name ∈ m.names then m.names else m.names ++ [name] :=
  map_fst_put name value m.entries

end Named

end Breadboard
