namespace Breadboard

/-- Values of a row of wires, index 0 first. -/
abbrev Bits := List Bool

namespace Bits

/-- The number whose binary digit `i` is the value at index `i`. -/
def pack : Bits → Nat
  | [] => 0
  | b :: bs => b.toNat + 2 * pack bs

/-- The `width` lowest binary digits of a number, least significant first. -/
def unpack (value : Nat) : Nat → Bits
  | 0 => []
  | width + 1 => (value % 2 == 1) :: unpack (value / 2) width

/-- Every row of `width` values, in the order of their numbers. -/
def all (width : Nat) : List Bits :=
  (List.range (Nat.pow 2 width)).map (unpack · width)

@[simp] theorem length_unpack (value width : Nat) : (unpack value width).length = width := by
  induction width generalizing value with
  | zero => rfl
  | succ width ih => simp [unpack, ih]

theorem pack_lt (bs : Bits) : pack bs < Nat.pow 2 bs.length := by
  induction bs with
  | nil => simp [pack]
  | cons b bs ih =>
    have step : Nat.pow 2 (bs.length + 1) = Nat.pow 2 bs.length * 2 := rfl
    simp only [pack, List.length_cons, step]
    cases b <;> simp only [Bool.toNat_false, Bool.toNat_true] <;> omega

/-- The value at an index is the binary digit of the number. -/
theorem testBit_pack (bs : Bits) (i : Nat) : (pack bs).testBit i = bs.getD i false := by
  induction bs generalizing i with
  | nil => simp [pack]
  | cons b bs ih =>
    have half : (b.toNat + 2 * pack bs) / 2 = pack bs := by
      cases b <;> simp only [Bool.toNat_false, Bool.toNat_true] <;> omega
    cases i with
    | zero => cases b <;> simp [pack, Nat.testBit_zero]
    | succ i => rw [pack, Nat.testBit_succ, half, ih, List.getD_cons_succ]

theorem getD_unpack (value width i : Nat) :
    (unpack value width).getD i false = (decide (i < width) && value.testBit i) := by
  induction width generalizing value i with
  | zero => simp [unpack]
  | succ width ih =>
    cases i with
    | zero =>
      rw [unpack, List.getD_cons_zero, Nat.testBit_zero, decide_eq_true (Nat.zero_lt_succ width),
        Bool.true_and]
      rfl
    | succ i => simp [unpack, Nat.testBit_succ, ← ih]

theorem unpack_pack (bs : Bits) : unpack (pack bs) bs.length = bs := by
  induction bs with
  | nil => rfl
  | cons b bs ih =>
    have half : (b.toNat + 2 * pack bs) / 2 = pack bs := by
      cases b <;> simp only [Bool.toNat_false, Bool.toNat_true] <;> omega
    have low : ((b.toNat + 2 * pack bs) % 2 == 1) = b := by
      cases b
      · simp only [Bool.toNat_false, Nat.zero_add, Nat.mul_mod_right]; rfl
      · simp only [Bool.toNat_true, Nat.add_mul_mod_self_left]; rfl
    simp only [pack, List.length_cons, unpack, half, low, ih]

theorem pack_unpack {value width : Nat} (h : value < Nat.pow 2 width) :
    pack (unpack value width) = value := by
  induction width generalizing value with
  | zero => simp only [Nat.pow] at h; simp [unpack, pack]; omega
  | succ width ih =>
    have step : Nat.pow 2 (width + 1) = Nat.pow 2 width * 2 := rfl
    rw [step] at h
    have low : (value % 2 == 1).toNat = value % 2 := by
      rcases Nat.mod_two_eq_zero_or_one value with h2 | h2 <;> simp [h2]
    rw [unpack, pack, ih (by omega), low]
    omega

theorem length_all (width : Nat) : (all width).length = Nat.pow 2 width := by simp [all]

theorem mem_all {bs : Bits} {width : Nat} : bs ∈ all width ↔ bs.length = width := by
  simp only [all, List.mem_map, List.mem_range]
  constructor
  · rintro ⟨value, _, rfl⟩
    exact length_unpack value width
  · rintro rfl
    exact ⟨pack bs, pack_lt bs, unpack_pack bs⟩

end Bits

end Breadboard
