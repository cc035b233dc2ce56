import Breadboard.Bits

namespace Breadboard

/-- The truth table of an island: row `k` holds the island's outputs when its `j`-th input has the
value of bit `j` of `k`. Inputs and outputs are pin indices of the gate. -/
structure GateTable where
  inputs : List Nat
  outputs : List Nat
  rows : Array Bits
  deriving DecidableEq, Inhabited

namespace GateTable

/-- The table whose row `k` is `entry k`. -/
def ofFn (inputs outputs : List Nat) (entry : Nat → Bits) : GateTable :=
  ⟨inputs, outputs, ((List.range (Nat.pow 2 inputs.length)).map entry).toArray⟩

def size (t : GateTable) : Nat := t.rows.size

def row (t : GateTable) (key : Nat) : Bits := t.rows.getD key []

/-- The key of the gate's input values. -/
def key (t : GateTable) (gateInputs : Bits) : Nat :=
  Bits.pack (t.inputs.map fun i => gateInputs.getD i false)

/-- The island's outputs for the gate's input values. -/
def lookup (t : GateTable) (gateInputs : Bits) : Bits := t.row (t.key gateInputs)

theorem size_ofFn (inputs outputs : List Nat) (entry : Nat → Bits) :
    (ofFn inputs outputs entry).size = Nat.pow 2 inputs.length := by simp [size, ofFn]

theorem row_ofFn {inputs outputs : List Nat} {entry : Nat → Bits} {k : Nat}
    (h : k < Nat.pow 2 inputs.length) : (ofFn inputs outputs entry).row k = entry k := by
  simp only [row, ofFn, Array.getD_eq_getD_getElem?, List.getElem?_toArray, List.getElem?_map,
    List.getElem?_range h, Option.map_some, Option.getD_some]

theorem key_lt (t : GateTable) (gateInputs : Bits) :
    t.key gateInputs < Nat.pow 2 t.inputs.length := by
  simpa [key] using Bits.pack_lt (t.inputs.map fun i => gateInputs.getD i false)

theorem lookup_ofFn (inputs outputs : List Nat) (entry : Nat → Bits) (gateInputs : Bits) :
    (ofFn inputs outputs entry).lookup gateInputs =
      entry (Bits.pack (inputs.map fun i => gateInputs.getD i false)) :=
  row_ofFn (key_lt (ofFn inputs outputs entry) gateInputs)

end GateTable

/-- Tables, and for each gate output the table that produces it with its place among that table's
outputs. -/
structure TableLogic where
  tables : List GateTable
  routes : List (Nat × Nat)
  deriving DecidableEq, Inhabited

namespace TableLogic

/-- Every place at which a gate output is listed, table after table. -/
def places (tables : List GateTable) : List (Nat × Nat × Nat) :=
  tables.zipIdx.flatMap fun (table, id) =>
    table.outputs.zipIdx.map fun (output, position) => (output, id, position)

/-- The last place at which an output is listed. -/
def lastPlace? (tables : List GateTable) (output : Nat) : Option (Nat × Nat) :=
  ((places tables).reverse.find? (·.1 == output)).map (·.2)

/-- The routes of the outputs in a list, or the first of them that no table lists. -/
def routesOf (tables : List GateTable) : List Nat → Except Nat (List (Nat × Nat))
  | [] => .ok []
  | output :: outputs =>
    match lastPlace? tables output with
    | none => .error output
    | some place => (routesOf tables outputs).map (place :: ·)

/-- Route each of `n` outputs to its table; fails with the first output that has none. -/
def ofTables (tables : List GateTable) (n : Nat) : Except Nat TableLogic :=
  (routesOf tables (List.range n)).map fun routes => ⟨tables, routes⟩

def tableFor? (logic : TableLogic) (output : Nat) : Option GateTable :=
  logic.routes[output]?.bind fun (id, _) => logic.tables[id]?

/-- The gate's outputs: every table is looked up, and the results are spread along the routes. -/
def compute (logic : TableLogic) (gateInputs : Bits) : Bits :=
  let results := logic.tables.map (·.lookup gateInputs)
  logic.routes.map fun (id, position) => (results.getD id []).getD position false

theorem lastPlace?_eq_none_iff {tables : List GateTable} {output : Nat} :
    lastPlace? tables output = none ↔ ∀ table ∈ tables, output ∉ table.outputs := by
  simp only [lastPlace?, Option.map_eq_none_iff, List.find?_eq_none, List.mem_reverse, places,
    List.mem_flatMap, List.mem_map, beq_iff_eq]
  constructor
  · intro h table ht ho
    obtain ⟨i, hi, rfl⟩ := List.getElem_of_mem ht
    obtain ⟨j, hj, rfl⟩ := List.getElem_of_mem ho
    exact h (tables[i].outputs[j], i, j)
      ⟨(tables[i], i), List.mem_zipIdx_iff_getElem?.2 (by simp [hi]),
        (tables[i].outputs[j], j), List.mem_zipIdx_iff_getElem?.2 (by simp [hj]), rfl⟩ rfl
  · rintro h _ ⟨⟨table, i⟩, ht, ⟨o, j⟩, ho, rfl⟩ rfl
    have ht := List.mem_zipIdx_iff_getElem?.1 ht
    have ho := List.mem_zipIdx_iff_getElem?.1 ho
    exact h table (List.mem_of_getElem? ht) (List.mem_of_getElem? ho)

theorem routesOf_eq_error_iff {tables : List GateTable} {outputs : List Nat} {k : Nat} :
    routesOf tables outputs = .error k ↔
      ∃ before after, outputs = before ++ k :: after ∧ lastPlace? tables k = none ∧
        ∀ o ∈ before, lastPlace? tables o ≠ none := by
  induction outputs with
  | nil => simp [routesOf]
  | cons output outputs ih =>
    simp only [routesOf]
    split
    · next h =>
      constructor
      · rintro ⟨⟩
        exact ⟨[], outputs, rfl, h, by simp⟩
      · rintro ⟨before, after, he, hk, hb⟩
        cases before with
        | nil => simp only [List.nil_append, List.cons.injEq] at he; rw [he.1]
        | cons b bs =>
          simp only [List.cons_append, List.cons.injEq] at he
          exact absurd (he.1 ▸ h) (hb b (by simp))
    · next place h =>
      have step : (routesOf tables outputs).map (place :: ·) = .error k ↔
          routesOf tables outputs = .error k := by
        cases routesOf tables outputs <;> simp [Except.map]
      rw [step, ih]
      constructor
      · rintro ⟨before, after, rfl, hk, hb⟩
        refine ⟨output :: before, after, rfl, hk, ?_⟩
        intro o ho
        rcases List.mem_cons.1 ho with rfl | ho
        · simp [h]
        · exact hb o ho
      · rintro ⟨before, after, he, hk, hb⟩
        cases before with
        | nil =>
          simp only [List.nil_append, List.cons.injEq] at he
          rw [he.1, hk] at h
          exact nomatch h
        | cons b bs =>
          simp only [List.cons_append, List.cons.injEq] at he
          exact ⟨bs, after, he.2, hk, fun o ho => hb o (by simp [ho])⟩

/-- Routing fails exactly when an output is listed by no table, and names the smallest one. -/
theorem ofTables_eq_error_iff {tables : List GateTable} {n k : Nat} :
    ofTables tables n = .error k ↔
      k < n ∧ (∀ table ∈ tables, k ∉ table.outputs) ∧
        ∀ o < k, ∃ table ∈ tables, o ∈ table.outputs := by
  have step : ofTables tables n = .error k ↔ routesOf tables (List.range n) = .error k := by
    simp only [ofTables]
    cases routesOf tables (List.range n) <;> simp [Except.map]
  rw [step, routesOf_eq_error_iff]
  constructor
  · rintro ⟨before, after, he, hk, hb⟩
    have hlen : n = before.length + (after.length + 1) := by
      simpa using congrArg List.length he
    have hat : k = before.length := by
      have h := congrArg (·[before.length]?) he
      simp [hlen] at h
      exact h.symm
    refine ⟨by omega, lastPlace?_eq_none_iff.1 hk, fun o ho => ?_⟩
    have hm : o ∈ before := by
      have h := congrArg (·[o]?) he
      have ho' : o < before.length := by omega
      simp only [List.getElem?_append_left ho', List.getElem?_range (by omega : o < n)] at h
      exact List.mem_of_getElem? h.symm
    have := hb o hm
    simp only [ne_eq, lastPlace?_eq_none_iff] at this
    simpa using this
  · rintro ⟨hk, hnone, hsome⟩
    refine ⟨List.range k, (List.range (n - k - 1)).map (k + 1 + ·), ?_,
      lastPlace?_eq_none_iff.2 hnone, fun o ho => ?_⟩
    · apply List.ext_getElem?
      intro i
      by_cases h1 : i < k
      · simp [List.getElem?_append_left, h1, show i < n by omega]
      · obtain ⟨j, rfl⟩ : ∃ j, i = k + j := ⟨i - k, by omega⟩
        rw [List.getElem?_append_right (by simp)]
        cases j with
        | zero => simp [hk]
        | succ j =>
          by_cases h2 : k + (j + 1) < n
          · simp [h2, show j < n - k - 1 by omega]
            omega
          · rw [List.getElem?_eq_none (by simpa using h2), List.getElem?_eq_none (by simp; omega)]
    · simp only [ne_eq, lastPlace?_eq_none_iff]
      obtain ⟨table, ht, ho'⟩ := hsome o (List.mem_range.1 ho)
      exact fun h => h table ht ho'

end TableLogic

end Breadboard
