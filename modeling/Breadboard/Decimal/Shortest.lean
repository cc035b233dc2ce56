namespace Breadboard

/-- A decimal `coefficient * 10 ^ exponent`. -/
structure Decimal where
  coefficient : Nat
  exponent : Int
  deriving Repr, DecidableEq, Inhabited

namespace Decimal

/-- The positive numbers that round to `quarters * 2 ^ exponent`, where the bounds are counted in
the same unit. The bounds belong to them if `closed`. -/
structure Neighbourhood where
  low : Nat
  quarters : Nat
  high : Nat
  closed : Bool
  exponent : Int

/-- The leading digit of a full significand, `2 ^ 52`. -/
def hiddenBit : Nat := 0x10000000000000

/-- The neighbourhood of `m * 2 ^ q`. Below a power of two the numbers lie twice as dense, so there
the lower bound is nearer, except where the exponent is the smallest one. -/
def Neighbourhood.of (m : Nat) (q : Int) : Neighbourhood where
  low := if m = hiddenBit ∧ q ≠ -1074 then 4 * m - 1 else 4 * m - 2
  quarters := 4 * m
  high := 4 * m + 2
  closed := m % 2 == 0
  exponent := q - 2

namespace Neighbourhood

/-- Factors that bring `c * 10 ^ k` and `x * 2 ^ exponent` to the common unit:
`c * (scales k).1` and `x * (scales k).2` compare as the two numbers do. -/
def scales (n : Neighbourhood) (k : Int) : Nat × Nat :=
  (Nat.pow 10 k.toNat * Nat.pow 2 (-n.exponent).toNat,
    Nat.pow 2 n.exponent.toNat * Nat.pow 10 (-k).toNat)

/-- Whether `c * 10 ^ k` lies in the neighbourhood. -/
def holds (n : Neighbourhood) (k : Int) (c : Nat) : Bool :=
  let (a, b) := n.scales k
  if n.closed then n.low * b ≤ c * a && c * a ≤ n.high * b
  else n.low * b < c * a && c * a < n.high * b

/-- The multiple of `10 ^ k` in the neighbourhood that is nearest to the value, if there is one;
of two equally near ones the even one. -/
def onGrid? (n : Neighbourhood) (k : Int) : Option Nat :=
  let (a, b) := n.scales k
  let below := n.quarters * b / a
  match n.holds k below, n.holds k (below + 1) with
  | false, false => none
  | true, false => some below
  | false, true => some (below + 1)
  | true, true =>
    let down := n.quarters * b - below * a
    let up := (below + 1) * a - n.quarters * b
    if down < up ∨ (down = up ∧ below % 2 = 0) then some below else some (below + 1)

/-- The first grid, from `10 ^ k` to finer ones, that meets the neighbourhood. -/
def search (n : Neighbourhood) (k : Int) : Nat → Decimal
  | 0 => ⟨n.quarters, k⟩
  | fuel + 1 =>
    match n.onGrid? k with
    | some c => ⟨c, k⟩
    | none => search n (k - 1) fuel

end Neighbourhood

/-- A power of ten that is not below `m * 2 ^ q` by more than one digit, as an exponent. -/
def startExponent (m : Nat) (q : Int) : Int :=
  let num := m * Nat.pow 2 q.toNat
  let den := Nat.pow 2 (-q).toNat
  if den ≤ num then ((Nat.toDigits 10 (num / den)).length : Int) - 1
  else 1 - ((Nat.toDigits 10 (den / num)).length : Int)

/-- A shortest decimal that rounds to `m * 2 ^ q`, for a positive `m`. Seventeen digits always
suffice, which bounds the search. -/
def shortest (m : Nat) (q : Int) : Decimal :=
  (Neighbourhood.of m q).search (startExponent m q) 20

/-- Sign and magnitude `m * 2 ^ q` of a finite 64-bit binary float, from its bits. -/
def magnitude (bits : UInt64) : Bool × Nat × Int :=
  let n := bits.toNat
  let fraction : Nat := n % hiddenBit
  let exponent : Nat := n / hiddenBit % 0x800
  let negative := n >>> 63 == 1
  if exponent = 0 then (negative, fraction, -1074)
  else (negative, fraction + hiddenBit, (exponent : Int) - 1075)

end Decimal

end Breadboard
