import Breadboard.Evaluation.Compute
import Breadboard.Proofs.Guarded.Tables

namespace Breadboard

/-- What a table is made from: the pins that it lists, and its row for every key. -/
structure TablePlan where
  inputs : List Nat
  outputs : List Nat
  row : Nat → Bits

namespace TablePlan

def table (plan : TablePlan) : GateTable := .ofFn plan.inputs plan.outputs plan.row

/-- A plan for a gate with `n` outputs: few inputs, outputs of the gate, and rows that have a value
for each of them. -/
structure Fits (plan : TablePlan) (n : Nat) : Prop where
  narrow : plan.inputs.length ≤ maxTableInputs
  outputs : ∀ o ∈ plan.outputs, o < n
  width : ∀ key < Nat.pow 2 plan.inputs.length, (plan.row key).length = plan.outputs.length

theorem Fits.tabulate_eq {plan : TablePlan} {n : Nat} (h : plan.Fits n) :
    Guarded.tabulate plan.inputs plan.outputs (fun key => .ok ⟨plan.row key, []⟩) =
      .ok ⟨plan.table, []⟩ := by
  have hword : plan.inputs.length < Guarded.wordSize :=
    Nat.lt_of_le_of_lt h.narrow (by decide)
  rw [Guarded.tabulate_eq hword (fun key _ => rfl) h.width]
  simp [table, GateTable.ofFn, Function.comp_def]

/-- The table of a plan has a row for every key of the inputs that it lists. -/
theorem Fits.sound {plan : TablePlan} {n width : Nat} (h : plan.Fits n)
    (hi : ∀ i ∈ plan.inputs, i < width) : plan.table.Sound width where
  narrow := Nat.le_trans h.narrow (by decide)
  inputs := hi
  full := GateTable.size_ofFn plan.inputs plan.outputs plan.row
  rows row hr := by
    simp only [table, GateTable.ofFn, List.mem_map, List.mem_range] at hr
    obtain ⟨key, hkey, rfl⟩ := hr
    exact h.width key hkey

/-- The inputs select the row whose number has their values as its binary digits. -/
theorem lookup_table (plan : TablePlan) (x : Bits) :
    plan.table.lookup x = plan.row (plan.table.key x) :=
  GateTable.lookup_ofFn plan.inputs plan.outputs plan.row x

theorem testBit_key {plan : TablePlan} {x : Bits} {j i : Nat} (hj : plan.inputs[j]? = some i)
    (hi : i < x.length) : x[i]? = some ((plan.table.key x).testBit j) := by
  have hbit : (plan.inputs.map fun i => x.getD i false)[j]? = some (x.getD i false) := by
    rw [List.getElem?_map, hj, Option.map_some]
  rw [GateTable.key, Bits.testBit_pack, List.getD_eq_getElem?_getD]
  change _ = some ((plan.inputs.map fun i => x.getD i false)[j]?.getD false)
  rw [hbit, Option.getD_some, List.getD_eq_getElem?_getD, List.getElem?_eq_getElem hi,
    Option.getD_some]

end TablePlan

/-- The last place at which lists of outputs have an output: a list, and a position in it. -/
structure LastListed (lists : List (List Nat)) (output list position : Nat) : Prop where
  listed : ∃ outputs, lists[list]? = some outputs ∧ outputs[position]? = some output
  last : ∀ i j outputs, lists[i]? = some outputs → outputs[j]? = some output →
    i < list ∨ i = list ∧ j ≤ position

namespace TableLogic

variable {tables : List GateTable} {logic : TableLogic} {n output i j : Nat}

/-- The places are listed table after table, and in a table position after position. -/
theorem pairwise_places (tables : List GateTable) :
    (places tables).Pairwise fun a b => a.2.1 < b.2.1 ∨ a.2.1 = b.2.1 ∧ a.2.2 < b.2.2 := by
  rw [places, List.pairwise_flatMap]
  refine ⟨fun entry _ => ?_, (pairwise_zipIdx tables).imp fun hlt a ha b hb => ?_⟩
  · exact List.pairwise_map.2 ((pairwise_zipIdx _).imp fun hlt => .inr ⟨rfl, hlt⟩)
  · obtain ⟨_, _, rfl⟩ := List.mem_map.1 ha
    obtain ⟨_, _, rfl⟩ := List.mem_map.1 hb
    exact .inl hlt

theorem mem_places : (output, i, j) ∈ places tables ↔
    ∃ table, tables[i]? = some table ∧ table.outputs[j]? = some output := by
  simp only [places, List.mem_flatMap, List.mem_map, Prod.exists, Prod.mk.injEq,
    List.mem_zipIdx_iff_getElem?]
  constructor
  · rintro ⟨table, _, ht, _, _, hj, rfl, rfl, rfl⟩
    exact ⟨table, ht, hj⟩
  · rintro ⟨table, ht, hj⟩
    exact ⟨table, i, ht, output, j, hj, rfl, rfl, rfl⟩

/-- The place that is routed to is the last one. -/
theorem lastListed_of_lastPlace? (h : lastPlace? tables output = some (i, j)) :
    LastListed (tables.map (·.outputs)) output i j := by
  obtain ⟨⟨o, place⟩, hfind, rfl⟩ := Option.map_eq_some_iff.1 h
  obtain ⟨ho, later, earlier, hsplit, hlater⟩ := List.find?_eq_some_iff_append.1 hfind
  obtain rfl : o = output := eq_of_beq ho
  have hplaces : places tables = earlier.reverse ++ (o, i, j) :: later.reverse := by
    rw [← List.reverse_reverse (places tables), hsplit, List.reverse_append, List.reverse_cons,
      List.append_assoc, List.singleton_append]
  have hordered := pairwise_places tables
  rw [hplaces] at hordered
  obtain ⟨-, -, hearlier⟩ := List.pairwise_append.1 hordered
  refine ⟨?_, fun i' j' outputs hi hj => ?_⟩
  · obtain ⟨table, ht, hj⟩ := lastPlace?_eq_some h
    exact ⟨table.outputs, by rw [List.getElem?_map, ht, Option.map_some], hj⟩
  · rw [List.getElem?_map] at hi
    obtain ⟨table, ht, rfl⟩ := Option.map_eq_some_iff.1 hi
    have hmem : (o, i', j') ∈ places tables := mem_places.2 ⟨table, ht, hj⟩
    rw [hplaces, List.mem_append, List.mem_cons, List.mem_reverse, List.mem_reverse] at hmem
    rcases hmem with hm | hm | hm
    · have hbefore := hearlier _ (List.mem_reverse.2 hm) _ List.mem_cons_self
      exact hbefore.imp_right fun hb => ⟨hb.1, Nat.le_of_lt hb.2⟩
    · obtain ⟨rfl, rfl⟩ := Prod.mk.inj (Prod.mk.inj hm).2
      exact .inr ⟨rfl, Nat.le_refl _⟩
    · exact absurd (hlater _ hm) (by simp)

/-- The routes of `n` outputs as they are written place after place, where a later place of an
output overwrites an earlier one. -/
def written (tables : List GateTable) (n : Nat) : List (Option (Nat × Nat)) :=
  (places tables).foldl (fun routes (output, place) => routes.set output (some place))
    (List.replicate n none)

theorem getElem?_foldl_set (listed : List (Nat × Nat × Nat)) (routes : List (Option (Nat × Nat)))
    (k : Nat) :
    (listed.foldl (fun routes (output, place) => routes.set output (some place)) routes)[k]? =
      routes[k]?.map fun old => ((listed.reverse.find? (·.1 == k)).map (·.2)).or old := by
  -- from the right: the place that is written last is the first one that is found
  induction listed using List.reverseRecOn with
  | nil => simp
  | append_singleton listed entry ih =>
    obtain ⟨output, place⟩ := entry
    rw [List.foldl_append, List.foldl_cons, List.foldl_nil, List.getElem?_set', ih,
      List.reverse_append, List.reverse_singleton, List.singleton_append, List.find?_cons]
    by_cases he : output = k
    · subst he
      simp [Function.const_def]
    · simp [he, beq_false_of_ne he]

theorem written_eq (tables : List GateTable) (n : Nat) :
    written tables n = (List.range n).map (lastPlace? tables) := by
  apply List.ext_getElem?
  intro k
  rw [written, getElem?_foldl_set, List.getElem?_map, List.getElem?_replicate]
  by_cases hk : k < n
  · rw [if_pos hk, List.getElem?_range hk, Option.map_some, Option.map_some, Option.or_none]
    rfl
  · rw [if_neg hk, List.getElem?_eq_none (by simpa using hk), Option.map_none, Option.map_none]

/-- A gate that was routed has the routes that are written. -/
theorem written_of_ofTables (h : ofTables tables n = .ok logic) :
    written tables n = logic.routes.map some := by
  rw [ofTables] at h
  cases hr : routesOf tables (List.range n) with
  | error o =>
    rw [hr] at h
    cases h
  | ok routes =>
    rw [hr] at h
    obtain rfl := Except.ok.inj h
    rw [written_eq, routesOf_eq_ok hr]

/-- Each output has a route to the last place that lists it. -/
theorem route_lastListed (h : ofTables tables n = .ok logic) (hk : output < n) :
    ∃ i j, logic.routes[output]? = some (i, j) ∧
      LastListed (tables.map (·.outputs)) output i j := by
  have hplace := congrArg (·[output]?) (written_of_ofTables h)
  simp only [written_eq, List.getElem?_map, List.getElem?_range hk, Option.map_some] at hplace
  obtain ⟨⟨i, j⟩, hroute, hlast⟩ := Option.map_eq_some_iff.1 hplace.symm
  exact ⟨i, j, hroute, lastListed_of_lastPlace? hlast.symm⟩

/-- Nothing but an output without a table is refused. -/
theorem exists_error_iff : (∃ k, ofTables tables n = .error k) ↔
    ∃ k < n, ∀ table ∈ tables, k ∉ table.outputs := by
  constructor
  · rintro ⟨k, hk⟩
    obtain ⟨hlt, hnone, -⟩ := ofTables_eq_error_iff.1 hk
    exact ⟨k, hlt, hnone⟩
  · rintro ⟨k, hlt, hnone⟩
    cases hl : ofTables tables n with
    | error k => exact ⟨k, rfl⟩
    | ok logic =>
      obtain ⟨-, -, hroutes⟩ := exists_route hl
      obtain ⟨i, j, table, -, ht, hj⟩ := hroutes k hlt
      exact absurd (List.mem_of_getElem? hj) (hnone table (List.mem_of_getElem? ht))

/-- A gate that was routed looks up only what is there. -/
theorem sound_of_ofTables {width : Nat} (h : ofTables tables n = .ok logic)
    (hs : ∀ table ∈ tables, table.Sound width) : logic.Sound width n := by
  obtain ⟨rfl, hlength, hroutes⟩ := exists_route h
  refine ⟨hs, fun r hr => ?_, hlength⟩
  obtain ⟨k, hk⟩ := List.mem_iff_getElem?.1 hr
  obtain ⟨i, j, table, hroute, ht, hj⟩ :=
    hroutes k (hlength ▸ (List.getElem?_eq_some_iff.1 hk).1)
  obtain rfl := Option.some.inj (hk.symm.trans hroute)
  exact ⟨table, ht, (List.getElem?_eq_some_iff.1 hj).1⟩

/-- Any tables that are made from plans which fit the gate are made without a fault, and routed
unless an output is listed by none of them, of which the smallest is reported; the routes are those
written place after place. The gate then answers every row of values that has all listed inputs: for
each of its outputs, at the last place that lists it, the value in the row whose number has the
listed inputs as its binary digits. -/
theorem routing_exact (plans : List TablePlan) (n : Nat) (hfits : ∀ plan ∈ plans, plan.Fits n) :
    let tables := plans.map (·.table)
    (∀ plan ∈ plans, Guarded.tabulate plan.inputs plan.outputs
      (fun key => .ok ⟨plan.row key, []⟩) = .ok ⟨plan.table, []⟩) ∧
    Guarded.route tables n = (ofTables tables n).mapError .unproduced ∧
    ((∃ k, ofTables tables n = .error k) ↔ ∃ k < n, ∀ plan ∈ plans, k ∉ plan.outputs) ∧
    (∀ k, ofTables tables n = .error k ↔ k < n ∧ (∀ plan ∈ plans, k ∉ plan.outputs) ∧
      ∀ o < k, ∃ plan ∈ plans, o ∈ plan.outputs) ∧
    ∀ logic, ofTables tables n = .ok logic → written tables n = logic.routes.map some ∧
      ∀ x : Bits, (∀ plan ∈ plans, ∀ i ∈ plan.inputs, i < x.length) →
        Guarded.lookupAll logic x = .ok (logic.compute x) ∧ (logic.compute x).length = n ∧
        ∀ k < n, ∃ t p plan key, LastListed (plans.map (·.outputs)) k t p ∧
          plans[t]? = some plan ∧ key < Nat.pow 2 plan.inputs.length ∧
          (∀ j i, plan.inputs[j]? = some i → x[i]? = some (key.testBit j)) ∧
          (logic.compute x)[k]? = (plan.row key)[p]? := by
  intro tables
  have hall {P : GateTable → Prop} : (∀ table ∈ tables, P table) ↔ ∀ plan ∈ plans, P plan.table :=
    List.forall_mem_map
  have hlists : tables.map (·.outputs) = plans.map (·.outputs) := List.map_map ..
  refine ⟨fun plan hp => (hfits plan hp).tabulate_eq, ?_, ?_, fun k => ?_, ?_⟩
  · have hlt : ∀ table ∈ tables, ∀ o ∈ table.outputs, o < n :=
      hall.2 fun plan hp => (hfits plan hp).outputs
    rw [Guarded.route, Guarded.require_eq hlt, Guarded.ok_bind]
    cases ofTables tables n <;> rfl
  · rw [exists_error_iff]
    simp only [hall]
    rfl
  · rw [ofTables_eq_error_iff, hall]
    simp only [tables, List.mem_map, exists_exists_and_eq_and]
    rfl
  · intro logic hl
    refine ⟨written_of_ofTables hl, fun x hx => ?_⟩
    have hsound : logic.Sound x.length n := sound_of_ofTables hl
      (hall.2 fun plan hp => (hfits plan hp).sound (hx plan hp))
    obtain ⟨hlookup, hlength⟩ := Guarded.lookupAll_eq hsound
    refine ⟨hlookup, hlength, fun k hk => ?_⟩
    obtain ⟨t, p, hroute, hlast⟩ := route_lastListed hl hk
    obtain ⟨outputs, ht, hp⟩ := hlast.listed
    rw [hlists] at ht hlast
    obtain ⟨plan, hplan, rfl⟩ := Option.map_eq_some_iff.1 ((List.getElem?_map ..).symm.trans ht)
    have hmem := List.mem_of_getElem? hplan
    refine ⟨t, p, plan, plan.table.key x, hlast, hplan, plan.table.key_lt x,
      fun j i hj => TablePlan.testBit_key hj (hx plan hmem i (List.mem_of_getElem? hj)), ?_⟩
    have hwidth : p < (plan.row (plan.table.key x)).length := by
      rw [(hfits plan hmem).width _ (plan.table.key_lt x)]
      exact (List.getElem?_eq_some_iff.1 hp).1
    have htable : logic.tables[t]? = some plan.table := by
      rw [(exists_route hl).1, List.getElem?_map, hplan, Option.map_some]
    simp only [compute, List.getElem?_map, hroute, Option.map_some, List.getD_eq_getElem?_getD,
      htable, Option.getD_some, TablePlan.lookup_table, List.getElem?_eq_getElem hwidth]

/-- Two tables that list pins out of order and repeatedly, and both list output 0. -/
def crossedPlans : List TablePlan :=
  [⟨[2, 0, 2], [1, 0, 1], fun key => [false, true, key == 2]⟩, ⟨[1], [0], fun key => [key == 1]⟩]

/-- Output 1 comes from the last of its places in the first table, output 0 from the second one. -/
theorem routing_exact_crossed :
    (∀ plan ∈ crossedPlans, plan.Fits 2) ∧
    ∃ logic, ofTables (crossedPlans.map (·.table)) 2 = .ok logic ∧
      Guarded.lookupAll logic [true, false, false] = .ok [false, true] := by
  have hfits : ∀ plan ∈ crossedPlans, plan.Fits 2 :=
    List.forall_mem_cons.2 ⟨⟨by decide, by decide, by decide⟩,
      List.forall_mem_singleton.2 ⟨by decide, by decide, by decide⟩⟩
  obtain ⟨-, -, -, -, hrouted⟩ := routing_exact crossedPlans 2 hfits
  have hcompute : (ofTables (crossedPlans.map (·.table)) 2).map
      (·.compute [true, false, false]) = .ok [false, true] := by decide
  cases hl : ofTables (crossedPlans.map (·.table)) 2 with
  | error k =>
    rw [hl] at hcompute
    cases hcompute
  | ok logic =>
    obtain ⟨hlookup, -, -⟩ := (hrouted logic hl).2 [true, false, false] (by decide)
    rw [hl] at hcompute
    exact ⟨hfits, logic, rfl, hlookup.trans (congrArg Except.ok (Except.ok.inj hcompute))⟩

end TableLogic

end Breadboard
