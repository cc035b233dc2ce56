import Breadboard.Project.Load
import Breadboard.Proofs.Compilation.Compile

namespace Breadboard

namespace Registry

/-- The registries that can be made: new ones, and what registrations leave behind. Only a gate
that the registry has given a number is registered again. -/
inductive Reachable : Registry → Prop where
  | empty (policy : ConflictPolicy) : Reachable (.empty policy)
  | standard (policy : ConflictPolicy) : Reachable (.standard policy)
  | setPolicy {r} (h : Reachable r) (policy : ConflictPolicy) : Reachable { r with policy }
  | register {r r'} (h : Reachable r) {gate : Gate} {entry : Registered}
      (hr : r.register gate = .ok (entry, r')) : Reachable r'
  | registerAgain {r r'} (h : Reachable r) {entry : Registered} (hn : entry.number < r.count)
      (hr : r.registerAgain entry = .ok r') : Reachable r'

/-- The number of the next new gate is none that a registered gate has. -/
def Numbered (r : Registry) : Prop :=
  ∀ {name entry}, r.get? name = some entry → entry.number < r.count

/-- Every gate is registered under its own name. -/
def Keyed (r : Registry) : Prop :=
  ∀ name entry, r.get? name = some entry → entry.gate.name = name

/-- The gate under a name. -/
def gate? (r : Registry) (name : String) : Option Gate := (r.get? name).map (·.gate)

/-- The registry with one more gate, which takes the place of an earlier one of its name. -/
def add (r : Registry) (g : Gate) : Registry :=
  { r with gates := r.gates.insert g.name ⟨g, r.count⟩, count := r.count + 1 }

def addAll (r : Registry) (gates : List Gate) : Registry := gates.foldl add r

variable {r r' : Registry} {entry : Registered}

theorem registerAgain_eq_ok (h : r.registerAgain entry = .ok r') :
    r' = { r with gates := r.gates.insert entry.gate.name entry } := by
  unfold registerAgain at h
  split at h
  · split at h
    · cases h
    · exact (Except.ok.inj h).symm
  · exact (Except.ok.inj h).symm

theorem get?_insert (r : Registry) (name : String) (entry : Registered) (name' : String) :
    get? { r with gates := r.gates.insert name entry } name' =
      if name = name' then some entry else r.get? name' := Named.get?_insert ..

theorem Numbered.insert (h : r.Numbered) (name : String) (hn : entry.number < r.count) :
    Numbered { r with gates := r.gates.insert name entry } := by
  intro name' found hf
  rw [get?_insert] at hf
  split at hf
  · exact Option.some.inj hf ▸ hn
  · exact h hf

theorem Numbered.next (h : r.Numbered) : Numbered { r with count := r.count + 1 } :=
  fun hf => Nat.lt_succ_of_lt (h hf)

theorem Keyed.insert (h : r.Keyed) (entry : Registered) :
    Keyed { r with gates := r.gates.insert entry.gate.name entry } := by
  intro name' found hf
  rw [get?_insert] at hf
  split at hf
  · next hname => exact Option.some.inj hf ▸ hname
  · exact h _ _ hf

theorem mem_entries_of_get? {name : String} (h : r.get? name = some entry) :
    (name, entry) ∈ r.gates.entries := by
  obtain ⟨e, he, rfl⟩ := Option.map_eq_some_iff.1 h
  have hname : e.1 = name := by simpa using List.find?_some he
  exact hname ▸ List.mem_of_find?_eq_some he

theorem numbered_standard (policy : ConflictPolicy) : Numbered (.standard policy) := by
  have hall : ∀ e ∈ (Registry.standard policy).gates.entries, e.2.number < 8 := by
    cases policy <;> decide +kernel
  exact fun {_ _} hf => hall _ (mem_entries_of_get? hf)

theorem keyed_standard (policy : ConflictPolicy) : Keyed (.standard policy) := by
  have hall : ∀ e ∈ (Registry.standard policy).gates.entries, e.2.gate.name = e.1 := by
    cases policy <;> decide +kernel
  exact fun _ _ hf => hall _ (mem_entries_of_get? hf)

theorem Numbered.add (h : r.Numbered) (g : Gate) : (r.add g).Numbered :=
  Numbered.insert h.next g.name (Nat.lt_succ_self r.count)

theorem register_eq_ok {g : Gate} (h : r.register g = .ok (entry, r')) :
    entry = ⟨g, r.count⟩ ∧ r' = r.add g := by
  unfold register at h
  cases ha : registerAgain { r with count := r.count + 1 } ⟨g, r.count⟩ with
  | error cause => simp [ha, Except.map] at h
  | ok added =>
    simp only [ha, Except.map, Except.ok.injEq, Prod.mk.injEq] at h
    obtain ⟨rfl, rfl⟩ := h
    exact ⟨rfl, registerAgain_eq_ok ha⟩

theorem Reachable.numbered (h : r.Reachable) : r.Numbered := by
  induction h with
  | empty policy => exact fun hf => nomatch hf
  | standard policy => exact numbered_standard policy
  | setPolicy _ _ ih => exact ih
  | @register r _ _ gate _ hr ih => exact (register_eq_ok hr).2 ▸ ih.add gate
  | registerAgain _ hn hr ih => exact registerAgain_eq_ok hr ▸ ih.insert _ hn

theorem Reachable.keyed (h : r.Reachable) : r.Keyed := by
  induction h with
  | empty policy => exact fun _ _ hf => nomatch hf
  | standard policy => exact keyed_standard policy
  | setPolicy _ _ ih => exact ih
  | @register r _ _ gate _ hr ih => exact (register_eq_ok hr).2 ▸ Keyed.insert ih ⟨gate, r.count⟩
  | registerAgain _ _ hr ih => exact registerAgain_eq_ok hr ▸ ih.insert _

theorem get?_add (r : Registry) (g : Gate) (name : String) :
    (r.add g).get? name = if g.name = name then some ⟨g, r.count⟩ else r.get? name :=
  Named.get?_insert ..

theorem gate?_add (r : Registry) (g : Gate) (name : String) :
    (r.add g).gate? name = if g.name = name then some g else r.gate? name := by
  unfold gate?
  rw [get?_add]
  split <;> rfl

/-- A new gate is refused only for its name, and only under the policy that asks for it. -/
theorem register_eq (h : r.Numbered) (g : Gate) :
    r.register g = if r.policy = .reject ∧ (r.get? g.name).isSome then .error (.taken g.name)
      else .ok (⟨g, r.count⟩, r.add g) := by
  have hsame : get? { r with count := r.count + 1 } g.name = r.get? g.name := rfl
  unfold register registerAgain
  dsimp only
  rw [hsame]
  cases hf : r.get? g.name with
  | none => simp [Except.map, add]
  | some existing =>
    have hne : existing.number ≠ r.count := Nat.ne_of_lt (h hf)
    by_cases hp : r.policy = .reject <;> simp [Except.map, add, hne, hp]

theorem resolve_eq (r : Registry) (name : String) :
    (r.resolve name).map (·.gate) =
      match r.gate? name with
      | some g => .ok g
      | none => .error (.unknown name) := by
  unfold resolve gate?
  cases r.get? name <;> rfl

theorem resolve_eq_ok {name : String} : r.resolve name = .ok entry ↔ r.get? name = some entry := by
  unfold resolve
  cases r.get? name <;> simp

theorem gate?_of_resolve {name : String} (h : r.resolve name = .ok entry) :
    r.gate? name = some entry.gate := by
  unfold gate?
  rw [resolve_eq_ok.1 h]
  rfl

theorem gate?_congr {name : String} (h : r'.resolve name = r.resolve name) :
    r'.gate? name = r.gate? name := by
  unfold resolve at h
  unfold gate?
  cases hr : r.get? name <;> cases hr' : r'.get? name <;> simp_all

theorem resolve_congr {name : String} (h : r'.get? name = r.get? name) :
    r'.resolve name = r.resolve name := by
  unfold resolve
  rw [h]

end Registry

theorem Netlist.name_compileBetween {nl : Netlist Gate} {name : String}
    {inputs outputs : List NodeId} {metadata : Metadata} {g : Gate}
    (h : (nl.compileBetween name inputs outputs metadata).value = .ok g) : g.name = name := by
  obtain ⟨_, ⟨islands, _, ht⟩ | hh⟩ := compileBetween_cases h
  · unfold tabledGate at ht
    dsimp only at ht
    split at ht
    · cases ht
    · exact Except.ok.inj ht ▸ rfl
  · unfold hierarchicalGate at hh
    split at hh
    · cases hh
    · split at hh
      · cases hh
      · exact Except.ok.inj hh ▸ rfl

namespace GateDef

variable {r r' : Registry}

theorem resolveAll_congr {nodes : List NodeDef}
    (h : ∀ node ∈ nodes, r'.gate? node.gateType = r.gate? node.gateType) :
    resolveAll r' nodes = resolveAll r nodes := by
  induction nodes with
  | nil => rfl
  | cons node nodes ih =>
    obtain ⟨hnode, h⟩ := List.forall_mem_cons.1 h
    have hresolve : (r'.resolve node.gateType).map (·.gate) =
        (r.resolve node.gateType).map (·.gate) := by
      rw [Registry.resolve_eq, Registry.resolve_eq, hnode]
    unfold resolveAll
    rw [ih h]
    cases hr : r.resolve node.gateType <;> cases hr' : r'.resolve node.gateType <;>
      simp_all [Except.map]

theorem resolveAll_eq_ok_iff {nodes : List NodeDef} {gates : List Gate} :
    resolveAll r nodes = .ok gates ↔
      nodes.map (fun node => r.gate? node.gateType) = gates.map some := by
  induction nodes generalizing gates with
  | nil => cases gates <;> simp [resolveAll]
  | cons node nodes ih =>
    have hgate : r.gate? node.gateType = (r.get? node.gateType).map (·.gate) := rfl
    rw [resolveAll, Registry.resolve, List.map_cons, hgate]
    cases r.get? node.gateType with
    | none => cases gates <;> simp
    | some entry =>
      cases gates with
      | nil => cases resolveAll r nodes <;> simp [Except.map]
      | cons g gates =>
        simp only [Option.map_some, List.map_cons, List.cons.injEq, Option.some.injEq, ← ih]
        cases resolveAll r nodes <;> simp [Except.map]

theorem exists_resolveAll_iff {nodes : List NodeDef} :
    (∃ gates, resolveAll r nodes = .ok gates) ↔
      ∀ node ∈ nodes, (r.gate? node.gateType).isSome := by
  simp only [resolveAll_eq_ok_iff]
  constructor
  · intro h node hm
    obtain ⟨gates, hg⟩ := h
    have hfound := List.mem_map_of_mem (f := fun node => r.gate? node.gateType) hm
    rw [hg] at hfound
    obtain ⟨g, _, hfound⟩ := List.mem_map.1 hfound
    exact Option.isSome_of_eq_some hfound.symm
  · intro h
    refine ⟨nodes.filterMap fun node => r.gate? node.gateType, ?_⟩
    rw [List.map_filterMap_some_eq_filter_map_isSome, List.filter_eq_self.2]
    exact List.forall_mem_map.2 h

/-- A definition compiles to the same wherever the types that it places are the same gates. -/
theorem compile_congr {d : GateDef}
    (h : ∀ node ∈ d.nodes, r'.gate? node.gateType = r.gate? node.gateType) :
    d.compile r' = d.compile r := by
  unfold compile toNetlist
  rw [resolveAll_congr h]

theorem name_compile {d : GateDef} {g : Gate} (h : (d.compile r).value = .ok g) :
    g.name = d.name := by
  unfold compile at h
  split at h
  · cases h
  · exact Netlist.name_compileBetween (Netlist.ok_of_mapError h)

end GateDef

end Breadboard
