import Mathlib

namespace Breadboard

theorem mem_eraseRepsBy_loop {α : Type} [BEq α] [LawfulBEq α] {a x : α} {rest earlier : List α} :
    x ∈ List.eraseRepsBy.loop (· == ·) a rest earlier ↔ x = a ∨ x ∈ rest ∨ x ∈ earlier := by
  induction rest generalizing a earlier with
  | nil => simp [List.eraseRepsBy.loop, or_comm]
  | cons b rest ih =>
    rw [List.eraseRepsBy.loop]
    cases h : a == b with
    | true =>
      obtain rfl := eq_of_beq h
      simp only [ih, List.mem_cons]
      tauto
    | false =>
      simp only [ih, List.mem_cons]
      tauto

theorem mem_eraseReps {α : Type} [BEq α] [LawfulBEq α] {x : α} {l : List α} :
    x ∈ l.eraseReps ↔ x ∈ l := by
  cases l with
  | nil => rfl
  | cons a rest =>
    change x ∈ List.eraseRepsBy.loop (· == ·) a rest [] ↔ _
    simp [mem_eraseRepsBy_loop]

section ascending

variable {α : Type} [BEq α] [LawfulBEq α] [LinearOrder α]

theorem ascend_eraseRepsBy_loop {a : α} {rest earlier : List α}
    (hsorted : (earlier.reverse ++ a :: rest).Pairwise (· ≤ ·))
    (hstrict : (earlier.reverse ++ [a]).Pairwise (· < ·)) :
    (List.eraseRepsBy.loop (· == ·) a rest earlier).Pairwise (· < ·) := by
  induction rest generalizing a earlier with
  | nil =>
    rw [List.eraseRepsBy.loop, List.reverse_cons]
    exact hstrict
  | cons b rest ih =>
    rw [List.eraseRepsBy.loop]
    cases h : a == b with
    | true =>
      obtain rfl := eq_of_beq h
      refine ih (hsorted.sublist ?_) hstrict
      exact (List.sublist_cons_self a (a :: rest)).append_left _
    | false =>
      have hsplit : earlier.reverse ++ a :: b :: rest =
          (a :: earlier).reverse ++ b :: rest := by simp
      rw [hsplit] at hsorted
      refine ih hsorted ?_
      have hle : ∀ x ∈ (a :: earlier).reverse, x ≤ b := fun x hx =>
        (List.pairwise_append.1 hsorted).2.2 x hx b List.mem_cons_self
      have hab : a < b := lt_of_le_of_ne (hle a (by simp)) (beq_eq_false_iff_ne.1 h)
      rw [List.reverse_cons]
      refine List.pairwise_append.2 ⟨hstrict, List.pairwise_singleton _ _, ?_⟩
      intro x hx y hy
      obtain rfl := List.mem_singleton.1 hy
      rcases List.mem_append.1 hx with hx | hx
      · exact ((List.pairwise_append.1 hstrict).2.2 x hx a List.mem_cons_self).trans hab
      · exact List.mem_singleton.1 hx ▸ hab

/-- Without repetitions a sorted list ascends. -/
theorem ascend_eraseReps {l : List α} (h : l.Pairwise (· ≤ ·)) : l.eraseReps.Pairwise (· < ·) := by
  cases l with
  | nil => exact .nil
  | cons a rest => exact ascend_eraseRepsBy_loop h (List.pairwise_singleton _ _)

end ascending

namespace Text

/-- The bytes of a text in UTF-8. -/
def bytes (text : String) : List UInt8 := text.toUTF8.data.toList

theorem bytes_eq_flatMap (text : String) :
    bytes text = text.toList.flatMap String.utf8EncodeChar := by
  rw [bytes, ← String.ofList_toList (s := text), String.toList_ofList]
  exact List.toList_data_toByteArray

theorem cons_ofNat_lt {m n : Nat} (hm : m < 256) (hn : n < 256) {rest rest' : List UInt8}
    (h : m < n ∨ m = n ∧ rest < rest') : UInt8.ofNat m :: rest < UInt8.ofNat n :: rest' := by
  rw [List.cons_lt_cons_iff, UInt8.lt_iff_toNat_lt, UInt8.toNat_ofNat_of_lt' hm,
    UInt8.toNat_ofNat_of_lt' hn]
  rcases h with h | ⟨rfl, h⟩
  · exact .inl h
  · exact .inr ⟨rfl, h⟩

/-- All bytes of a character but the first one are digits to base 64. -/
theorem digit_lt {v w : Nat} {rest rest' : List UInt8}
    (h : v % 64 < w % 64 ∨ v % 64 = w % 64 ∧ rest < rest') :
    UInt8.ofNat (v % 64 + 128) :: rest < UInt8.ofNat (w % 64 + 128) :: rest' := by
  refine cons_ofNat_lt (by omega) (by omega) ?_
  rwa [Nat.add_lt_add_iff_right, Nat.add_right_cancel_iff]

theorem utf8EncodeChar_lt {c d : Char} (h : c < d) (rest rest' : List UInt8) :
    String.utf8EncodeChar c ++ rest < String.utf8EncodeChar d ++ rest' := by
  have hv : c.val.toNat < d.val.toNat := h
  have hd : d.val.toNat < 0x110000 := by
    rcases d.valid with hd | ⟨_, hd⟩
    · exact Nat.lt_trans hd (by decide)
    · exact hd
  unfold String.utf8EncodeChar
  generalize c.val.toNat = v at hv
  generalize d.val.toNat = w at hv hd
  dsimp only
  -- a longer code starts with a larger byte, and codes of one length are compared digit by digit
  by_cases hw1 : w ≤ 127
  · rw [if_pos (by omega), if_pos hw1]
    exact cons_ofNat_lt (by omega) (by omega) (.inl hv)
  rw [if_neg hw1]
  by_cases hw2 : w ≤ 2047
  · rw [if_pos hw2]
    split
    · exact cons_ofNat_lt (by omega) (by omega) (.inl (by omega))
    · have hdigits : v / 64 < w / 64 ∨ v / 64 = w / 64 ∧ v % 64 < w % 64 := by omega
      rw [if_pos (by omega)]
      refine cons_ofNat_lt (by omega) (by omega) (hdigits.imp (by omega) fun h => ⟨by omega, ?_⟩)
      exact digit_lt (.inl h.2)
  rw [if_neg hw2]
  by_cases hw3 : w ≤ 65535
  · rw [if_pos hw3]
    split
    · exact cons_ofNat_lt (by omega) (by omega) (.inl (by omega))
    split
    · exact cons_ofNat_lt (by omega) (by omega) (.inl (by omega))
    · have hdigits : v / 4096 < w / 4096 ∨ v / 4096 = w / 4096 ∧
          (v / 64 % 64 < w / 64 % 64 ∨ v / 64 % 64 = w / 64 % 64 ∧ v % 64 < w % 64) := by omega
      rw [if_pos (by omega)]
      refine cons_ofNat_lt (by omega) (by omega) (hdigits.imp (by omega) fun h => ⟨by omega, ?_⟩)
      exact digit_lt (h.2.imp_right fun h => ⟨h.1, digit_lt (.inl h.2)⟩)
  rw [if_neg hw3]
  split
  · exact cons_ofNat_lt (by omega) (by omega) (.inl (by omega))
  split
  · exact cons_ofNat_lt (by omega) (by omega) (.inl (by omega))
  split
  · exact cons_ofNat_lt (by omega) (by omega) (.inl (by omega))
  · have hdigits : v / 262144 < w / 262144 ∨ v / 262144 = w / 262144 ∧
        (v / 4096 % 64 < w / 4096 % 64 ∨ v / 4096 % 64 = w / 4096 % 64 ∧
          (v / 64 % 64 < w / 64 % 64 ∨ v / 64 % 64 = w / 64 % 64 ∧ v % 64 < w % 64)) := by omega
    refine cons_ofNat_lt (by omega) (by omega) (hdigits.imp (by omega) fun h => ⟨by omega, ?_⟩)
    refine digit_lt (h.2.imp_right fun h => ⟨h.1, ?_⟩)
    exact digit_lt (h.2.imp_right fun h => ⟨h.1, digit_lt (.inl h.2)⟩)

theorem flatMap_utf8EncodeChar_lt {chars chars' : List Char} (h : chars < chars') :
    chars.flatMap String.utf8EncodeChar < chars'.flatMap String.utf8EncodeChar := by
  induction chars generalizing chars' with
  | nil =>
    cases chars' with
    | nil => exact absurd h (List.not_lt_nil _)
    | cons d chars' =>
      have hlength := Char.utf8Size_pos d
      rw [← String.length_utf8EncodeChar] at hlength
      obtain ⟨byte, others, hcode⟩ := List.exists_cons_of_length_pos hlength
      rw [List.flatMap_nil, List.flatMap_cons, hcode]
      exact List.nil_lt_cons _ _
  | cons c chars ih =>
    cases chars' with
    | nil => exact absurd h (List.not_lt_nil _)
    | cons d chars' =>
      rw [List.flatMap_cons, List.flatMap_cons]
      rcases List.cons_lt_cons_iff.1 h with hlt | ⟨rfl, hlt⟩
      · exact utf8EncodeChar_lt hlt _ _
      · exact List.append_left_lt (ih hlt)

/-- Texts come in the order of their bytes. -/
theorem bytes_lt_bytes {text text' : String} (h : text < text') : bytes text < bytes text' := by
  rw [bytes_eq_flatMap, bytes_eq_flatMap]
  exact flatMap_utf8EncodeChar_lt (String.lt_iff_toList_lt.1 h)

end Text

end Breadboard
