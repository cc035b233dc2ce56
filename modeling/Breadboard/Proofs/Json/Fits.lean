import Mathlib
import Breadboard.Json.Shape

namespace Breadboard.Json

/-- An integer takes 64 bits, with or without a sign. -/
def Number.Fits : Number → Prop
  | .integer n => -0x8000000000000000 ≤ n ∧ n ≤ maxSignificand
  | .float _ => True

/-- A value that can stand where some levels of brackets are left. -/
inductive Value.Fits : Nat → Value → Prop where
  | null {levels} : Fits levels .null
  | bool {levels} (b : Bool) : Fits levels (.bool b)
  | number {levels} {n : Number} (h : n.Fits) : Fits levels (.number n)
  | string {levels} (text : String) : Fits levels (.string text)
  | array {levels} {vs : List Value} (h : ∀ v ∈ vs, Fits levels v) : Fits (levels + 1) (.array vs)
  | object {levels} {fields : List (String × Value)} (ha : Ascending fields)
      (h : ∀ e ∈ fields, Fits levels e.2) : Fits (levels + 1) (.object fields)

theorem mem_insertField {key : String} {v : Value} {fields : List (String × Value)}
    {e : String × Value} (h : e ∈ insertField key v fields) : e = (key, v) ∨ e ∈ fields := by
  induction fields with
  | nil => exact .inl (List.mem_singleton.1 h)
  | cons first fields ih =>
    rw [insertField] at h
    split at h
    · exact List.mem_cons.1 h
    · split at h
      · exact (List.mem_cons.1 h).imp_right (List.mem_cons_of_mem _)
      · rcases List.mem_cons.1 h with rfl | h
        · exact .inr List.mem_cons_self
        · exact (ih h).imp_right (List.mem_cons_of_mem _)

theorem mem_foldl_insertField {fields : List (String × Value)} {e : String × Value}
    {sorted : List (String × Value)}
    (h : e ∈ fields.foldl (fun sorted (key, v) => insertField key v sorted) sorted) :
    e ∈ fields ∨ e ∈ sorted := by
  induction fields generalizing sorted with
  | nil => exact .inr h
  | cons first fields ih =>
    rcases ih h with h | h
    · exact .inl (List.mem_cons_of_mem _ h)
    · rcases mem_insertField h with rfl | h
      · exact .inl List.mem_cons_self
      · exact .inr h

theorem mem_sortFields {fields : List (String × Value)} {e : String × Value}
    (h : e ∈ sortFields fields) : e ∈ fields :=
  (mem_foldl_insertField h).resolve_right List.not_mem_nil

/-- Whatever a reader answers has a property. -/
def Yields {α : Type} (reader : Reader α) (P : α → Prop) : Prop :=
  ∀ bytes a rest, reader bytes = .ok (a, rest) → P a

variable {α β σ κ : Type} {P : α → Prop} {I : σ → Prop} {bytes : Bytes}

theorem map_eq_ok {f : α → β} {read : Except ReadError α} {b : β} (h : read.map f = .ok b) :
    ∃ a, read = .ok a ∧ f a = b := by
  cases read with
  | error e => cases h
  | ok a => exact ⟨a, rfl, Except.ok.inj h⟩

theorem Yields.map {reader : Reader α} {Q : β → Prop} (h : Yields reader P) {f : α → β}
    (hf : ∀ a, P a → Q (f a)) :
    Yields (fun bytes => (reader bytes).map fun (a, rest) => (f a, rest)) Q := by
  intro bytes b rest hb
  obtain ⟨⟨a, rest⟩, ha, he⟩ := map_eq_ok hb
  obtain ⟨rfl, rfl⟩ := Prod.mk.inj he
  exact hf a (h _ _ _ ha)

theorem wholeDigits_le {n : Nat} (h : n ≤ maxSignificand) :
    (wholeDigits n bytes).1 ≤ maxSignificand := by
  induction bytes generalizing n with
  | nil => exact h
  | cons b bytes ih =>
    rw [wholeDigits]
    split
    · dsimp only
      split
      · next hle => exact ih hle
      · exact h
    · exact h

theorem fits_wholeNumber (negative : Bool) {n : Nat} (h : n ≤ maxSignificand) :
    (wholeNumber negative n).Fits := by
  unfold wholeNumber
  split
  · exact ⟨by omega, by exact_mod_cast h⟩
  · split
    · next hn => exact ⟨by omega, by omega⟩
    · trivial

theorem yields_number (negative : Bool) : Yields (number negative) Number.Fits := by
  intro bytes n rest h
  unfold number at h
  split at h
  · cases h
  split at h
  · cases h
  split at h
  · cases h
  next b bytes _ _ =>
  have hle : (wholeDigits 0 (b :: bytes)).1 ≤ maxSignificand := wholeDigits_le (Nat.zero_le _)
  split at h
  · obtain ⟨_, _, he⟩ := map_eq_ok h
    obtain ⟨rfl, rfl⟩ := Prod.mk.inj he
    trivial
  · next hw =>
    rw [hw] at hle
    split at h
    · obtain ⟨rfl, rfl⟩ := Prod.mk.inj (Except.ok.inj h)
      exact fits_wholeNumber negative hle
    · split at h
      · obtain ⟨_, _, he⟩ := map_eq_ok h
        obtain ⟨rfl, rfl⟩ := Prod.mk.inj he
        trivial
      · obtain ⟨rfl, rfl⟩ := Prod.mk.inj (Except.ok.inj h)
        exact fits_wholeNumber negative hle

theorem yields_items {item : Reader α} (h : Yields item P) (budget : Bytes) (first : Bool) :
    Yields (items item budget first) fun as => ∀ a ∈ as, P a := by
  induction budget generalizing first with
  | nil => exact fun _ _ _ h => nomatch h
  | cons b budget ih =>
    intro bytes as rest has
    rw [items] at has
    split at has
    · cases has
    · obtain ⟨rfl, rfl⟩ := Prod.mk.inj (Except.ok.inj has)
      exact fun a ha => nomatch ha
    · split at has
      · cases has
      · next ha =>
        obtain ⟨_, has', he⟩ := map_eq_ok has
        obtain ⟨rfl, rfl⟩ := Prod.mk.inj he
        exact List.forall_mem_cons.2 ⟨h _ _ _ ha, ih false _ _ _ has'⟩

theorem yields_sequence {item : Reader α} (h : Yields item P) :
    Yields (sequence item) fun as => ∀ a ∈ as, P a := by
  intro bytes as rest has
  unfold sequence at has
  dsimp only at has
  split at has
  · cases has
  · next hitems =>
    obtain ⟨_, _, he⟩ := map_eq_ok has
    obtain ⟨rfl, rfl⟩ := Prod.mk.inj he
    exact yields_items h _ _ _ _ _ hitems

/-- A property of the state that every announced reader keeps. -/
def Keeps (announce : σ → κ → Except ReadError (Reader σ)) (I : σ → Prop) : Prop :=
  ∀ state key reader, I state → announce state key = .ok reader → Yields reader I

theorem yields_entries {key : Reader κ} {announce : σ → κ → Except ReadError (Reader σ)}
    (h : Keeps announce I) (budget : Bytes) (first : Bool) {state : σ} (hi : I state) :
    Yields (entries key announce budget first state) I := by
  induction budget generalizing first state with
  | nil => exact fun _ _ _ h => nomatch h
  | cons b budget ih =>
    intro bytes final rest hf
    rw [entries] at hf
    split at hf
    · cases hf
    · obtain ⟨rfl, rfl⟩ := Prod.mk.inj (Except.ok.inj hf)
      exact hi
    · split at hf
      · cases hf
      · split at hf
        · cases hf
        · next reader ha =>
          split at hf
          · cases hf
          · split at hf
            · cases hf
            · next hread => exact ih false (h _ _ _ hi ha _ _ _ hread) _ _ _ hf

theorem yields_mapping (key : Reader κ) {announce : σ → κ → Except ReadError (Reader σ)}
    (h : Keeps announce I) {start : σ} (hi : I start) : Yields (mapping key announce start) I :=
  fun _ _ _ hf => yields_entries h _ _ hi _ _ _ hf

theorem Yields.fits {reader : Reader α} (h : Yields reader P) {levels : Nat} {f : α → Value}
    (hf : ∀ a, P a → (f a).Fits levels) {v : Value}
    (hr : ((reader bytes).map fun (a, rest) => (f a, rest)) = .ok (v, rest)) : v.Fits levels :=
  h.map hf _ _ _ hr

/-- The fields of an object, read at one level less, all fit that level. -/
theorem keeps_fields {levels : Nat} (h : Yields (value levels) (Value.Fits levels)) :
    Keeps (fun fields key => .ok fun bytes => (value levels bytes).map
        fun (v, rest) => ((key, v) :: fields, rest))
      fun fields : List (String × Value) => ∀ e ∈ fields, e.2.Fits levels := by
  intro fields key reader hi he
  obtain rfl := Except.ok.inj he
  have hcons : ∀ v : Value, v.Fits levels → ∀ e ∈ (key, v) :: fields, e.2.Fits levels :=
    fun v hv => List.forall_mem_cons.2 ⟨hv, hi⟩
  exact h.map (f := fun v => (key, v) :: fields)
    (Q := fun fields => ∀ e ∈ fields, e.2.Fits levels) hcons

/-- Whatever is read as a value fits the levels, by induction on these. -/
theorem yields_value (levels : Nat) : Yields (value levels) (Value.Fits levels) := by
  induction levels using Nat.strongRecOn with
  | ind levels ih =>
    intro bytes v rest h
    unfold value at h
    dsimp only at h
    have hany {α : Type} (reader : Reader α) : Yields reader fun _ => True := fun _ _ _ _ => trivial
    split at h
    · cases h
    split at h
    · exact (hany (word _)).fits (fun _ _ => .null) h
    split at h
    · exact (hany (word _)).fits (fun _ _ => .bool true) h
    split at h
    · exact (hany (word _)).fits (fun _ _ => .bool false) h
    split at h
    · exact (yields_number true).fits (fun _ hn => .number hn) h
    split at h
    · exact (yields_number false).fits (fun _ hn => .number hn) h
    split at h
    · exact (hany string).fits (fun text _ => .string text) h
    split at h
    · split at h
      · cases h
      · next levels =>
        exact (yields_sequence (ih levels (Nat.lt_succ_self _))).fits (fun _ hvs => .array hvs) h
    split at h
    · split at h
      · cases h
      · next levels =>
        have hkeeps := keeps_fields (ih levels (Nat.lt_succ_self _))
        have hstart : ∀ e ∈ ([] : List (String × Value)), e.2.Fits levels := nofun
        refine (yields_mapping string hkeeps hstart).fits
          (f := fun fields => .object (sortFields fields.reverse)) (fun fields hi => ?_) h
        refine .object (ascending_sortFields _) fun e he => hi e ?_
        exact List.mem_reverse.1 (mem_sortFields he)
    · cases h

theorem yields_natural : Yields natural (· ≤ maxSignificand) := by
  intro bytes n rest h
  unfold natural at h
  split at h
  · cases h
  · next n _ hn =>
    split at h
    · next hle =>
      obtain ⟨rfl, rfl⟩ := Prod.mk.inj (Except.ok.inj h)
      have hfits : (Number.integer n).Fits := by
        unfold anyNumber at hn
        split at hn
        · cases hn
        split at hn
        · exact yields_number true _ _ _ hn
        split at hn
        · exact yields_number false _ _ _ hn
        · cases hn
      have hmax := hfits.2
      omega
    · cases h
  · cases h

theorem yields_optionalNatural : Yields optionalNatural fun n => ∀ m ∈ n, m ≤ maxSignificand := by
  intro bytes n rest h
  unfold optionalNatural at h
  split at h
  · cases h
  split at h
  · obtain ⟨_, _, he⟩ := map_eq_ok h
    obtain ⟨rfl, rfl⟩ := Prod.mk.inj he
    exact fun m hm => absurd hm (Option.not_mem_none m)
  · obtain ⟨⟨m, _⟩, hm, he⟩ := map_eq_ok h
    obtain ⟨rfl, rfl⟩ := Prod.mk.inj he
    exact fun _ he => Option.some.inj he ▸ yields_natural _ _ _ hm

variable {levels : Nat}

theorem yields_listOf {item : Nat → Reader α} (h : Yields (item levels) P) :
    Yields (listOf (levels + 1) item) fun as => ∀ a ∈ as, P a := by
  intro bytes as rest has
  unfold listOf at has
  split at has
  · cases has
  split at has
  · exact yields_sequence h _ _ _ has
  · cases has

theorem yields_mapOf (expected : String)
    {announce : Nat → σ → String → Except ReadError (Reader σ)} (h : Keeps (announce levels) I)
    {start : σ} (hi : I start) : Yields (mapOf expected (levels + 1) announce start) I := by
  intro bytes final rest hf
  unfold mapOf at hf
  split at hf
  · cases hf
  split at hf
  · exact yields_mapping string h hi _ _ _ hf
  · cases hf

theorem yields_fieldsInOrder {expected : String} {fields : List (RecordField σ)}
    (h : ∀ field ∈ fields, ∀ state, I state → Yields (field.read levels state) I) (index : Nat)
    {state : σ} (hi : I state) : Yields (fieldsInOrder expected levels index fields state) I := by
  induction fields generalizing index state with
  | nil =>
    intro bytes final rest hf
    obtain ⟨rfl, rfl⟩ := Prod.mk.inj (Except.ok.inj hf)
    exact hi
  | cons field fields ih =>
    obtain ⟨hfield, h⟩ := List.forall_mem_cons.1 h
    intro bytes final rest hf
    rw [fieldsInOrder] at hf
    split at hf
    · cases hf
    · split at hf
      · exact ih h _ hi _ _ _ hf
      · cases hf
    · split at hf
      · cases hf
      · next hread => exact ih h _ (hfield _ hi _ _ _ hread) _ _ _ hf

theorem keeps_announceField {fields : List (RecordField σ)}
    (h : ∀ field ∈ fields, ∀ state, I state → Yields (field.read levels state) I) :
    Keeps (announceField fields levels) I := by
  intro state key reader hi ha
  unfold announceField at ha
  split at ha
  · obtain rfl := Except.ok.inj ha
    intro bytes final rest hf
    obtain ⟨_, _, he⟩ := map_eq_ok hf
    obtain ⟨rfl, rfl⟩ := Prod.mk.inj he
    exact hi
  · next field hfield =>
    split at ha
    · cases ha
    · obtain rfl := Except.ok.inj ha
      exact h field (List.mem_of_find?_eq_some hfield) state hi

/-- What every field keeps holds of the records that are read. -/
theorem yields_record (expected : String) {fields : List (RecordField σ)}
    (h : ∀ field ∈ fields, ∀ state, I state → Yields (field.read levels state) I) {start : σ}
    (hi : I start) : Yields (record expected fields start (levels + 1)) I := by
  intro bytes final rest hf
  unfold record at hf
  split at hf
  · cases hf
  split at hf
  · dsimp only at hf
    split at hf
    · cases hf
    · next hfields =>
      obtain ⟨_, _, he⟩ := map_eq_ok hf
      obtain ⟨rfl, rfl⟩ := Prod.mk.inj he
      exact yields_fieldsInOrder h 0 hi _ _ _ hfields
  split at hf
  · dsimp only at hf
    split at hf
    · cases hf
    · next hmapping =>
      split at hf
      · cases hf
      · obtain ⟨rfl, rfl⟩ := Prod.mk.inj (Except.ok.inj hf)
        exact yields_mapping string (keeps_announceField h) hi _ _ _ hmapping
  · cases hf

end Breadboard.Json
