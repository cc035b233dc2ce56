import Breadboard.NodeMap

namespace Breadboard

/-- A set of handles: whether 0 is a member, and what the even and the odd members are when their
last digit is dropped; 0 itself is not among the even ones. -/
inductive NodeSet where
  | empty
  | node (zero : Bool) (even odd : NodeSet)
  deriving DecidableEq, Repr, Inhabited

namespace NodeSet

instance : EmptyCollection NodeSet := ⟨empty⟩

def contains : NodeSet → NodeId → Bool
  | empty, _ => false
  | node zero even odd, id =>
    if id = 0 then zero
    else if id % 2 = 0 then even.contains (id / 2) else odd.contains (id / 2)

/-- A set of its parts; there is one form of the empty set. -/
def join : Bool → NodeSet → NodeSet → NodeSet
  | false, empty, empty => empty
  | zero, even, odd => node zero even odd

/-- The set of one handle, which has at most `width` digits. -/
def single : (width : Nat) → NodeId → NodeSet
  | 0, _ => node true empty empty
  | width + 1, id =>
    if id = 0 then node true empty empty
    else if id % 2 = 0 then node false (single width (id / 2)) empty
    else node false empty (single width (id / 2))

/-- Make a handle a member, or no member. -/
def set : NodeSet → NodeId → Bool → NodeSet
  | empty, id, member => if member then single id id else empty
  | node zero even odd, id, member =>
    if id = 0 then join member even odd
    else if id % 2 = 0 then join zero (even.set (id / 2) member) odd
    else join zero even (odd.set (id / 2) member)

@[simp] theorem contains_empty (id : NodeId) : (∅ : NodeSet).contains id = false := rfl

theorem contains_join (zero : Bool) (even odd : NodeSet) (id : NodeId) :
    (join zero even odd).contains id = (node zero even odd).contains id := by
  unfold join
  split
  · simp [contains]
  · rfl

/-- Handles with the same last digit are told apart by their other digits. -/
theorem half_eq_half_iff {m n : Nat} (h : m % 2 = n % 2) : m / 2 = n / 2 ↔ m = n := by omega

theorem contains_single {width id : Nat} (h : id ≤ width) (id' : Nat) :
    (single width id).contains id' = decide (id = id') := by
  induction width generalizing id id' with
  | zero =>
    have h0 : id = 0 := by omega
    by_cases h' : id' = 0 <;> simp [single, contains, h0, h', Ne.symm]
  | succ width ih =>
    by_cases h0 : id = 0
    · by_cases h' : id' = 0 <;> simp [single, contains, h0, h', Ne.symm]
    · have hw : id / 2 ≤ width := by omega
      by_cases h' : id' = 0
      · by_cases he : id % 2 = 0 <;> simp [single, contains, h0, h', he]
      · have same := @half_eq_half_iff id id'
        have differ : id % 2 ≠ id' % 2 → id ≠ id' := fun h e => h (e ▸ rfl)
        rcases Nat.mod_two_eq_zero_or_one id with he | he <;>
          rcases Nat.mod_two_eq_zero_or_one id' with he' | he'
        · simp [single, contains, h0, h', he, he', ih hw, same (he.trans he'.symm)]
        · simp [single, contains, h0, h', he, he', differ (by simp [he, he'])]
        · simp [single, contains, h0, h', he, he', differ (by simp [he, he'])]
        · simp [single, contains, h0, h', he, he', ih hw, same (he.trans he'.symm)]

theorem contains_set (s : NodeSet) (id : NodeId) (member : Bool) (id' : NodeId) :
    (s.set id member).contains id' = if id = id' then member else s.contains id' := by
  induction s generalizing id id' with
  | empty =>
    cases member
    · simp [set, contains]
    · simp [set, contains, contains_single (Nat.le_refl id)]
  | node zero even odd ihe iho =>
    by_cases h0 : id = 0
    · by_cases h' : id' = 0 <;> simp [set, contains_join, contains, h0, h', Ne.symm]
    · by_cases h' : id' = 0
      · by_cases he : id % 2 = 0 <;> simp [set, contains_join, contains, h0, h', he]
      · have same := @half_eq_half_iff id id'
        have differ : id % 2 ≠ id' % 2 → id ≠ id' := fun h e => h (e ▸ rfl)
        rcases Nat.mod_two_eq_zero_or_one id with he | he <;>
          rcases Nat.mod_two_eq_zero_or_one id' with he' | he'
        · simp [set, contains_join, contains, h0, h', he, he', ihe, same (he.trans he'.symm)]
        · simp [set, contains_join, contains, h0, h', he, he', differ (by simp [he, he'])]
        · simp [set, contains_join, contains, h0, h', he, he', differ (by simp [he, he'])]
        · simp [set, contains_join, contains, h0, h', he, he', iho, same (he.trans he'.symm)]

end NodeSet

end Breadboard
