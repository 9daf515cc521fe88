import ImplicitInference.Number.Rounding

/-!
Numerals: decimals as they are written. A numeral is read as the number nearest to it, or by
scaling: the leading digits that fit a 64-bit word are rounded to a number, and this number is
multiplied or divided by a rounded power of ten. Scaling rounds more than once, so with many digits
or a large exponent it may miss the nearest number.
-/

namespace ImplicitInference

namespace Number

def numerator (x : Number) : Nat := x.significand * Nat.pow 2 x.exponent.toNat

def denominator (x : Number) : Nat := Nat.pow 2 (-x.exponent).toNat

def mul? (x y : Number) : Option Number :=
  ofRatio? (x.isNegative != y.isNegative) (x.numerator * y.numerator)
    (x.denominator * y.denominator)

def div? (x y : Number) : Option Number :=
  ofRatio? (x.isNegative != y.isNegative) (x.numerator * y.denominator)
    (x.denominator * y.numerator)

def greatestPower : Nat := 308

def powerOfTen? (n : Nat) : Option Number :=
  if n ≤ greatestPower then ofNat? (Nat.pow 10 n) else none

def raise? (x : Number) (n : Nat) : Option Number :=
  if x.isZero then some x else powerOfTen? n >>= x.mul?

/-- Divides by `10 ^ n`, by the greatest power first if `n` is larger than that. -/
def lower? (x : Number) (n : Nat) : Option Number :=
  if n ≤ greatestPower then powerOfTen? n >>= x.div?
  else if x.isZero then some x
  else do lower? (← powerOfTen? greatestPower >>= x.div?) (n - greatestPower)
termination_by n
decreasing_by
  simp only [greatestPower] at *
  omega

end Number

structure Numeral where
  negative : Bool
  whole : List Nat
  places : List Nat
  exponent : Int
  deriving DecidableEq, Repr

namespace Numeral

/-- Appends digits to a number as long as it stays below `2 ^ 64`; the second part is what is left
from the first digit that does not fit. -/
def appendFitting : Nat → List Nat → Nat × List Nat
  | n, [] => (n, [])
  | n, digit :: rest =>
    if 10 * n + digit < Nat.pow 2 64 then appendFitting (10 * n + digit) rest else (n, digit :: rest)

def digits (n : Numeral) : Nat := (n.whole ++ n.places).foldl (10 * · + ·) 0

def nearest? (n : Numeral) : Option Number :=
  Number.ofDecimal? n.negative n.digits (n.exponent - n.places.length)

/-- The number that scaling gives, unless it is out of range. Digits before the point that do not
fit count as zeros; the digits after it are then tried anew. -/
def scaled? (n : Numeral) : Option Number := do
  let (whole, dropped) := appendFitting 0 n.whole
  let (significand, left) := appendFitting whole n.places
  let exponent := n.exponent + dropped.length - (n.places.length - left.length : Nat)
  let x ← Number.ofNat? significand
  let size ← if 0 ≤ exponent then x.raise? exponent.toNat else x.lower? (-exponent).toNat
  return .ofUnits n.negative size.bits.toNat

end Numeral

end ImplicitInference
