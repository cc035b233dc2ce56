import Breadboard.Decimal.Shortest

namespace Breadboard.Decimal

/-- Which scientific exponents are written positionally. -/
structure Layout where
  lowest : Int
  highest : Int

/-- The digits without trailing zeros, and the exponent of the scientific form. -/
def scientific (d : Decimal) : List Char × Int :=
  let digits := Nat.toDigits 10 d.coefficient
  let kept := (digits.reverse.dropWhile (· == '0')).reverse
  (if kept.isEmpty then ['0'] else kept,
    if d.coefficient = 0 then 0 else d.exponent + digits.length - 1)

/-- Digits with the point where the exponent asks for it, and at least one digit after it. -/
def positional (digits : List Char) (exponent : Int) : List Char :=
  if exponent < 0 then
    '0' :: '.' :: (List.replicate ((-exponent).toNat - 1) '0' ++ digits)
  else
    let whole := exponent.toNat + 1
    let padded := digits ++ List.replicate (whole - digits.length) '0'
    let fraction := padded.drop whole
    padded.take whole ++ '.' :: (if fraction.isEmpty then ['0'] else fraction)

/-- One digit before the point, no point without further digits, and a signed exponent. -/
def exponential (digits : List Char) (exponent : Int) : List Char :=
  let fraction := digits.drop 1
  digits.take 1 ++ (if fraction.isEmpty then [] else '.' :: fraction) ++
    'e' :: (if exponent < 0 then '-' else '+') :: Nat.toDigits 10 exponent.natAbs

def Layout.write (layout : Layout) (negative : Bool) (d : Decimal) : String :=
  let (digits, exponent) := scientific d
  let text :=
    if layout.lowest ≤ exponent ∧ exponent ≤ layout.highest then positional digits exponent
    else exponential digits exponent
  String.ofList (if negative then '-' :: text else text)

/-- The text of a finite float, by its shortest decimal. -/
def Layout.writeFloat (layout : Layout) (value : Float) : String :=
  let (negative, m, q) := magnitude value.toBits
  layout.write negative (if m = 0 then ⟨0, 0⟩ else shortest m q)

end Breadboard.Decimal
