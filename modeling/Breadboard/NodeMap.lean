namespace Breadboard

/-- Handle of a node: its place in the creation order of its netlist. -/
abbrev NodeId := Nat

/-- Values bound to node handles, the latest binding first, so the order in which nodes were bound
can be read from it. -/
structure NodeMap (α : Type) where
  entries : List (NodeId × α) := []

namespace NodeMap

variable {α : Type}

instance : EmptyCollection (NodeMap α) := ⟨⟨[]⟩⟩
instance : Inhabited (NodeMap α) := ⟨∅⟩

/-- The first value bound to a handle in a list of bindings. -/
def find (id : NodeId) : List (NodeId × α) → Option α
  | [] => none
  | (id', value) :: rest => if id' = id then some value else find id rest

def get? (m : NodeMap α) (id : NodeId) : Option α := find id m.entries

def contains (m : NodeMap α) (id : NodeId) : Bool := (m.get? id).isSome

/-- Bind a handle, forgetting its earlier value. -/
def insert (m : NodeMap α) (id : NodeId) (value : α) : NodeMap α :=
  ⟨(id, value) :: if m.contains id then m.entries.filter (·.1 != id) else m.entries⟩

/-- Bindings made in list order, so the last one of a handle counts. -/
def ofList (bindings : List (NodeId × α)) : NodeMap α :=
  bindings.foldl (fun m (id, value) => m.insert id value) ∅

/-- The bound handles, the latest binding first. -/
def ids (m : NodeMap α) : List NodeId := m.entries.map (·.1)

def size (m : NodeMap α) : Nat := m.entries.length

def ascending (m : NodeMap α) : List (NodeId × α) :=
  m.entries.mergeSort (fun a b => a.1 ≤ b.1)

@[simp] theorem get?_empty (id : NodeId) : (∅ : NodeMap α).get? id = none := rfl

theorem find_isSome_iff (id : NodeId) (entries : List (NodeId × α)) :
    (find id entries).isSome ↔ id ∈ entries.map (·.1) := by
  induction entries with
  | nil => simp [find]
  | cons e rest ih =>
    by_cases h : e.1 = id
    · simp [find, h]
    · simp [find, h, Ne.symm h, ih]

theorem find_filter_of_ne {id id' : NodeId} (h : id ≠ id') (entries : List (NodeId × α)) :
    find id' (entries.filter (·.1 != id)) = find id' entries := by
  induction entries with
  | nil => rfl
  | cons e rest ih =>
    by_cases he : e.1 = id
    · simp [find, he, h, ih]
    · by_cases he' : e.1 = id'
      · simp [find, he', Ne.symm h]
      · simp [find, he, he', ih]

/-- A handle that is not bound has no binding to forget. -/
theorem entries_insert (m : NodeMap α) (id : NodeId) (value : α) :
    (m.insert id value).entries = (id, value) :: m.entries.filter (·.1 != id) := by
  unfold insert
  split
  · rfl
  · next h =>
    have all : ∀ e ∈ m.entries, (e.1 != id) = true := fun e he => bne_iff_ne.2 fun heq =>
      h ((find_isSome_iff id m.entries).2 (List.mem_map.2 ⟨e, he, heq⟩))
    rw [List.filter_eq_self.2 all]

theorem get?_insert (m : NodeMap α) (id : NodeId) (value : α) (id' : NodeId) :
    (m.insert id value).get? id' = if id = id' then some value else m.get? id' := by
  simp only [get?, entries_insert, find]
  split
  · rfl
  · next h => exact find_filter_of_ne h m.entries

@[simp] theorem get?_insert_self (m : NodeMap α) (id : NodeId) (value : α) :
    (m.insert id value).get? id = some value := by simp [get?_insert]

theorem get?_insert_of_ne (m : NodeMap α) {id id' : NodeId} (value : α) (h : id ≠ id') :
    (m.insert id value).get? id' = m.get? id' := by simp [get?_insert, h]

theorem mem_ids_iff (m : NodeMap α) (id : NodeId) : id ∈ m.ids ↔ (m.get? id).isSome :=
  (find_isSome_iff id m.entries).symm

theorem nodup_ids_insert {m : NodeMap α} (h : m.ids.Nodup) (id : NodeId) (value : α) :
    (m.insert id value).ids.Nodup := by
  have rest : (m.entries.filter (·.1 != id)).map (·.1) = m.ids.filter (· != id) := by
    simp [ids, List.filter_map, Function.comp_def]
  simp only [ids, entries_insert, List.map_cons, List.nodup_cons]
  rw [rest]
  exact ⟨by simp, h.filter _⟩

end NodeMap

end Breadboard
