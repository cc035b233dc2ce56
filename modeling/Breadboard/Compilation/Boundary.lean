import Breadboard.Netlist.Edit

namespace Breadboard

/-- Why the part of a netlist between two lists of pins is no gate. -/
inductive BoundaryError where
  | notInput (id : NodeId)
  | notOutput (id : NodeId)
  | listedTwice (id : NodeId)
  | undeclared (name : String) (id : NodeId)
  | unrouted (output : Nat)
  | refused (cause : EditError)
  deriving DecidableEq, Repr, Inhabited

def BoundaryError.message : BoundaryError → String
  | .notInput id => s!"Node {id} is not an input pin."
  | .notOutput id => s!"Node {id} is not an output pin."
  | .listedTwice id => s!"Pin {id} is listed twice."
  | .undeclared name id =>
    s!"Input pin '{name}' (node {id}) is used but is not an input of the gate."
  | .unrouted output => s!"output {output} is produced by no table"
  | .refused cause => cause.message

namespace Netlist

variable {γ : Type}

/-- Check a list of pins: every one has to be of the right kind and not among the earlier ones. -/
def checkPins (isPin : NodeId → Bool) (wrong : NodeId → BoundaryError) :
    (earlier : List NodeId) → List NodeId → Except BoundaryError Unit
  | _, [] => .ok ()
  | earlier, id :: ids =>
    if !isPin id then .error (wrong id)
    else if id ∈ earlier then .error (.listedTwice id)
    else checkPins isPin wrong (id :: earlier) ids

/-- Check the two lists of a boundary, inputs first. -/
def checkBoundary (nl : Netlist γ) (inputs outputs : List NodeId) : Except BoundaryError Unit :=
  match checkPins (fun id => (nl.inputPin? id).isSome) .notInput [] inputs with
  | .error e => .error e
  | .ok () => checkPins (fun id => (nl.outputPin? id).isSome) .notOutput [] outputs

theorem checkPins_eq_ok_iff {isPin : NodeId → Bool} {wrong : NodeId → BoundaryError}
    {earlier ids : List NodeId} :
    checkPins isPin wrong earlier ids = .ok () ↔
      (∀ id ∈ ids, isPin id = true) ∧ ids.Nodup ∧ ∀ id ∈ ids, id ∉ earlier := by
  induction ids generalizing earlier with
  | nil => simp [checkPins]
  | cons id ids ih =>
    simp only [checkPins]
    by_cases hp : isPin id = true
    · by_cases he : id ∈ earlier
      · simp [hp, he]
      · simp only [hp, he, ih, List.mem_cons, List.nodup_cons, Bool.not_true, if_false,
          Bool.false_eq_true]
        constructor
        · rintro ⟨h1, h2, h3⟩
          exact ⟨by rintro _ (rfl | h) <;> simp_all, ⟨fun h => h3 id h (.inl rfl), h2⟩,
            by rintro _ (rfl | h) <;> simp_all⟩
        · rintro ⟨h1, ⟨h2, h2'⟩, h3⟩
          refine ⟨fun x hx => h1 x (.inr hx), h2', fun x hx => ?_⟩
          rintro (rfl | h)
          · exact h2 hx
          · exact h3 x (.inr hx) h
    · simp [hp]

end Netlist

end Breadboard
