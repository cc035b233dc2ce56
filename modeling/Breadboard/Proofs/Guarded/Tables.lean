import Breadboard.Proofs.Compilation.Tables

namespace Breadboard

/-- A check of the engine that did not hold. -/
inductive Fault where
  | cachedTwice (id : NodeId)
  | notGate (id : NodeId)
  | inputCount (gate : String) (declared given : Nat)
  | outputCount (gate : String) (declared given : Nat)
  | rowWidth (declared : Nat)
  | outOfRange (index size : Nat)
  | unproduced (output : Nat)
  | wideShift (amount : Nat)
  | unmapped (id : NodeId)
  | unnamed (name : String)
  | endless
  deriving DecidableEq, Repr

namespace Guarded

/-- Number of digits of a machine word. -/
def wordSize : Nat := 64

def require (p : Prop) [Decidable p] (fault : Fault) : Except Fault Unit :=
  if p then .ok () else .error fault

def fetch {α : Type} (as : List α) (index : Nat) : Except Fault α :=
  match as[index]? with
  | some a => .ok a
  | none => .error (.outOfRange index as.length)

/-- Put the values together, the first one as the lowest digit. -/
def pack (bits : Bits) : Except Fault Nat :=
  bits.zipIdx.foldlM (fun sum (bit, i) => do
    require (i < wordSize) (.wideShift i)
    .ok (sum ||| bit.toNat <<< i)) 0

def unpack (value width : Nat) : Except Fault Bits :=
  (List.range width).mapM fun i => do
    require (i < wordSize) (.wideShift i)
    .ok (value >>> i &&& 1 == 1)

/-- The row of a table for the gate's input values. -/
def lookup (t : GateTable) (gateInputs : Bits) : Except Fault Bits := do
  let key ← pack (← t.inputs.mapM (fetch gateInputs))
  fetch t.rows.toList key

/-- The outputs of a gate that is made of tables. -/
def lookupAll (logic : TableLogic) (gateInputs : Bits) : Except Fault Bits := do
  let results ← logic.tables.mapM (lookup · gateInputs)
  logic.routes.mapM fun (id, position) => do fetch (← fetch results id) position

/-- The table whose row `k` is `entry k`. -/
def tabulate (inputs outputs : List Nat) (entry : Nat → Except Fault (Metered Bits)) :
    Except Fault (Metered GateTable) := do
  require (inputs.length < wordSize) (.wideShift inputs.length)
  let rows ← (List.range (Nat.pow 2 inputs.length)).mapM entry
  require (∀ row ∈ rows, row.value.length = outputs.length) (.rowWidth outputs.length)
  .ok ⟨⟨inputs, outputs, (rows.map (·.value)).toArray⟩, rows.reverse.flatMap (·.calls)⟩

/-- Route each of `n` outputs to its table. -/
def route (tables : List GateTable) (n : Nat) : Except Fault TableLogic := do
  require (∀ table ∈ tables, ∀ output ∈ table.outputs, output < n) (.outOfRange n n)
  match TableLogic.ofTables tables n with
  | .error output => .error (.unproduced output)
  | .ok logic => .ok logic

variable {α β ε : Type}

@[simp] theorem ok_bind (a : α) (f : α → Except ε β) : (Except.ok a >>= f) = f a := rfl

theorem exists_of_bind {x : Except ε α} {f : α → Except ε β} {b : β} (h : (x >>= f) = .ok b) :
    ∃ a, x = .ok a ∧ f a = .ok b := by
  cases x with
  | error e => cases h
  | ok a => exact ⟨a, rfl, h⟩

theorem require_eq {p : Prop} [Decidable p] (h : p) (fault : Fault) : require p fault = .ok () :=
  if_pos h

theorem of_require {p : Prop} [Decidable p] {fault : Fault} (h : require p fault = .ok ()) : p := by
  by_contra hn
  rw [require, if_neg hn] at h
  cases h

theorem fetch_eq {as : List α} {index : Nat} {a : α} (h : as[index]? = some a) :
    fetch as index = .ok a := by rw [fetch, h]

theorem mapM_eq_ok {f : α → Except ε β} {g : α → β} {as : List α} (h : ∀ a ∈ as, f a = .ok (g a)) :
    as.mapM f = .ok (as.map g) := by
  induction as with
  | nil => rfl
  | cons a as ih =>
    obtain ⟨ha, h⟩ := List.forall_mem_cons.1 h
    rw [List.mapM_cons, ha, ih h]
    rfl

/-- Packing from digit `i` on adds to what is packed below. -/
theorem foldlM_pack {bits : Bits} {i sum : Nat} (hs : sum < 2 ^ i)
    (h : i + bits.length ≤ wordSize) :
    (bits.zipIdx i).foldlM (fun sum (bit, i) => do
      require (i < wordSize) (.wideShift i)
      .ok (sum ||| bit.toNat <<< i)) sum = Except.ok (sum + 2 ^ i * Bits.pack bits) := by
  induction bits generalizing i sum with
  | nil => rfl
  | cons b bits ih =>
    rw [List.length_cons] at h
    have hb : b.toNat ≤ 1 := b.toNat_le
    have hsum : sum ||| b.toNat <<< i = sum + 2 ^ i * b.toNat := by
      rw [Nat.or_comm, ← Nat.shiftLeft_add_eq_or_of_lt hs, Nat.shiftLeft_eq, Nat.add_comm,
        Nat.mul_comm]
    have hlt : sum + 2 ^ i * b.toNat < 2 ^ (i + 1) := by
      have hle := Nat.mul_le_mul_left (2 ^ i) hb
      omega
    rw [List.zipIdx_cons, List.foldlM_cons]
    dsimp only
    rw [require_eq (by omega), ok_bind, ok_bind, hsum, ih hlt (by omega), Bits.pack, Nat.mul_add,
      ← Nat.mul_assoc, ← Nat.pow_succ, Nat.add_assoc]

theorem pack_eq {bits : Bits} (h : bits.length ≤ wordSize) : pack bits = .ok (Bits.pack bits) := by
  have hs : 0 < 2 ^ 0 := Nat.one_pos
  have hfold := foldlM_pack hs (by rwa [Nat.zero_add])
  rwa [Nat.zero_add, Nat.pow_zero, Nat.one_mul] at hfold

theorem unpack_eq {width : Nat} (h : width ≤ wordSize) (value : Nat) :
    unpack value width = .ok (Bits.unpack value width) := by
  have hdigit : ∀ i ∈ List.range width, (do
      require (i < wordSize) (.wideShift i)
      .ok (value >>> i &&& 1 == 1)) = Except.ok (value.testBit i) := by
    intro i hi
    have hlt := List.mem_range.1 hi
    rw [require_eq (by omega), ok_bind, Nat.testBit, Nat.and_comm]
    rcases Nat.mod_two_eq_zero_or_one (value >>> i) with hm | hm <;>
      simp [Nat.one_and_eq_mod_two, hm]
  rw [unpack, mapM_eq_ok hdigit]
  refine congrArg Except.ok (List.ext_getElem (by simp) fun i hi _ => ?_)
  have hlt : i < width := by simpa using hi
  have hbit := Bits.getD_unpack value width i
  rw [decide_eq_true hlt, Bool.true_and, List.getD_eq_getElem?_getD,
    List.getElem?_eq_getElem (by simpa using hlt)] at hbit
  simpa using hbit.symm

end Guarded

/-- A table that fits a gate with `width` inputs: its key fits a word and has a row, and every row
has the width of the table. -/
structure GateTable.Sound (t : GateTable) (width : Nat) : Prop where
  narrow : t.inputs.length ≤ Guarded.wordSize
  inputs : ∀ i ∈ t.inputs, i < width
  full : t.rows.size = Nat.pow 2 t.inputs.length
  rows : ∀ row ∈ t.rows.toList, row.length = t.outputs.length

/-- Tables that fit a gate with `width` inputs and `count` outputs. -/
structure TableLogic.Sound (logic : TableLogic) (width count : Nat) : Prop where
  tables : ∀ t ∈ logic.tables, t.Sound width
  routes : ∀ r ∈ logic.routes, ∃ t, logic.tables[r.1]? = some t ∧ r.2 < t.outputs.length
  count : logic.routes.length = count

namespace Guarded

open TableLogic

variable {logic : TableLogic} {gateInputs : Bits} {count : Nat}

/-- The key of a row is below the number of rows. -/
theorem lookup_eq {t : GateTable} (h : t.Sound gateInputs.length) :
    lookup t gateInputs = .ok (t.lookup gateInputs) ∧
      (t.lookup gateInputs).length = t.outputs.length := by
  have hbits : ∀ i ∈ t.inputs, fetch gateInputs i = .ok (gateInputs.getD i false) := by
    intro i hm
    refine fetch_eq ?_
    rw [List.getD_eq_getElem?_getD, List.getElem?_eq_getElem (h.inputs i hm)]
    rfl
  have hkey : t.key gateInputs < t.rows.toList.length := by
    rw [Array.length_toList, h.full]
    exact t.key_lt gateInputs
  have hrow : t.rows.toList[t.key gateInputs]? = some (t.lookup gateInputs) := by
    rw [List.getElem?_eq_getElem hkey, GateTable.lookup, GateTable.row, Array.getD_eq_getD_getElem?,
      ← Array.getElem?_toList, List.getElem?_eq_getElem hkey]
    rfl
  have hpack : pack (t.inputs.map fun i => gateInputs.getD i false) = .ok (t.key gateInputs) :=
    pack_eq (by rw [List.length_map]; exact h.narrow)
  rw [lookup, mapM_eq_ok hbits, ok_bind, hpack, ok_bind]
  exact ⟨fetch_eq hrow, h.rows _ (List.mem_of_getElem? hrow)⟩

theorem lookupAll_eq (h : logic.Sound gateInputs.length count) :
    lookupAll logic gateInputs = .ok (logic.compute gateInputs) ∧
      (logic.compute gateInputs).length = count := by
  have hlookup (t : GateTable) (ht : t ∈ logic.tables) := lookup_eq (h.tables t ht)
  have hroute : ∀ r ∈ logic.routes, (do
      fetch (← fetch (logic.tables.map (·.lookup gateInputs)) r.1) r.2) =
        Except.ok ((((logic.tables.map (·.lookup gateInputs)).getD r.1 []).getD r.2 false)) := by
    intro r hr
    obtain ⟨t, ht, hp⟩ := h.routes r hr
    have hlength := (hlookup t (List.mem_of_getElem? ht)).2
    have hresult : (logic.tables.map (·.lookup gateInputs))[r.1]? = some (t.lookup gateInputs) := by
      rw [List.getElem?_map, ht, Option.map_some]
    have hgiven : (logic.tables.map (·.lookup gateInputs)).getD r.1 [] = t.lookup gateInputs := by
      rw [List.getD_eq_getElem?_getD, hresult, Option.getD_some]
    have hbit : (t.lookup gateInputs)[r.2]? = some ((t.lookup gateInputs).getD r.2 false) := by
      rw [List.getD_eq_getElem?_getD, List.getElem?_eq_getElem (hlength ▸ hp), Option.getD_some]
    rw [fetch_eq hresult, ok_bind, fetch_eq hbit, hgiven]
  rw [lookupAll, mapM_eq_ok fun t ht => (hlookup t ht).1, ok_bind]
  exact ⟨mapM_eq_ok hroute, by rw [TableLogic.compute, List.length_map, h.count]⟩

/-- A table is built when its rows are, and they have the right width. -/
theorem tabulate_eq {inputs outputs : List Nat} {entry : Nat → Except Fault (Metered Bits)}
    {row : Nat → Metered Bits} (hn : inputs.length < wordSize)
    (he : ∀ k < Nat.pow 2 inputs.length, entry k = .ok (row k))
    (hw : ∀ k < Nat.pow 2 inputs.length, (row k).value.length = outputs.length) :
    tabulate inputs outputs entry =
      let rows := (List.range (Nat.pow 2 inputs.length)).map row
      .ok ⟨⟨inputs, outputs, (rows.map (·.value)).toArray⟩, rows.reverse.flatMap (·.calls)⟩ := by
  have hrows : ∀ r ∈ (List.range (Nat.pow 2 inputs.length)).map row,
      r.value.length = outputs.length := by
    intro r hr
    obtain ⟨k, hk, rfl⟩ := List.mem_map.1 hr
    exact hw k (List.mem_range.1 hk)
  rw [tabulate, require_eq hn, ok_bind, mapM_eq_ok fun k hk => he k (List.mem_range.1 hk), ok_bind,
    require_eq hrows, ok_bind]

/-- Routes lead to places in the tables, one for each output. -/
theorem route_eq {tables : List GateTable} (hlt : ∀ t ∈ tables, ∀ o ∈ t.outputs, o < count)
    (hall : ∀ o < count, ∃ t ∈ tables, o ∈ t.outputs) :
    ∃ logic, ofTables tables count = .ok logic ∧ route tables count = .ok logic ∧
      logic.tables = tables ∧ logic.routes.length = count ∧
      ∀ r ∈ logic.routes, ∃ t, tables[r.1]? = some t ∧ r.2 < t.outputs.length := by
  cases hl : ofTables tables count with
  | error output =>
    obtain ⟨hlt, hnone, _⟩ := ofTables_eq_error_iff.1 hl
    obtain ⟨t, ht, ho⟩ := hall output hlt
    exact absurd ho (hnone t ht)
  | ok logic =>
    have hroute : route tables count = .ok logic := by
      rw [route, require_eq hlt, ok_bind, hl]
    have hof := hl
    rw [ofTables] at hof
    cases hr : routesOf tables (List.range count) with
    | error output => simp [hr, Except.map] at hof
    | ok routes =>
      rw [hr] at hof
      obtain rfl := Except.ok.inj hof
      have hplaces := routesOf_eq_ok hr
      refine ⟨_, rfl, hroute, rfl, ?_, fun r hm => ?_⟩
      · simpa using congrArg List.length hplaces
      · have hsome : some r ∈ (List.range count).map (lastPlace? tables) :=
          hplaces ▸ List.mem_map_of_mem hm
        obtain ⟨o, _, ho⟩ := List.mem_map.1 hsome
        obtain ⟨t, ht, hj⟩ := lastPlace?_eq_some ho
        exact ⟨t, ht, (List.getElem?_eq_some_iff.1 hj).1⟩

end Guarded

end Breadboard
