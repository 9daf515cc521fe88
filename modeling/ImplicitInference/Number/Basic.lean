/-!
Numbers are the 64-bit words of binary floating point, kept as words. Two relations on them matter
and both are decidable: identity of the words, and equality of the numbers they stand for, where a
NaN equals nothing and the two zeros are equal. A finite word stands for
`± significand * 2 ^ exponent` with a natural significand.
-/

namespace ImplicitInference

structure Number where
  bits : UInt64
  deriving DecidableEq, Repr, Inhabited

namespace Number

def isNegative (x : Number) : Bool := x.bits.toNat ≥ Nat.pow 2 63

def biasedExponent (x : Number) : Nat := x.bits.toNat / Nat.pow 2 52 % Nat.pow 2 11

def fraction (x : Number) : Nat := x.bits.toNat % Nat.pow 2 52

def isFinite (x : Number) : Bool := x.biasedExponent != 2047

def isNaN (x : Number) : Bool := x.biasedExponent == 2047 && x.fraction != 0

def isZero (x : Number) : Bool := x.biasedExponent == 0 && x.fraction == 0

def significand (x : Number) : Nat :=
  if x.biasedExponent = 0 then x.fraction else Nat.pow 2 52 + x.fraction

def exponent (x : Number) : Int := (max x.biasedExponent 1 : Nat) - 1075

def equal (x y : Number) : Bool :=
  !x.isNaN && !y.isNaN && (x == y || (x.isZero && y.isZero))

/-- Equality as numbers or as words; the second makes each NaN agree with itself. -/
def agrees (x y : Number) : Bool := x.equal y || x == y

def isIntegral (x : Number) : Bool :=
  x.isFinite && x.significand % Nat.pow 2 (-x.exponent).toNat == 0

/-- The word of `± units * 2 ^ -1074`, for units below the infinite exponent. -/
def ofUnits (negative : Bool) (units : Nat) : Number :=
  ⟨.ofNat ((if negative then Nat.pow 2 63 else 0) + units)⟩

def zero (negative : Bool) : Number := ofUnits negative 0

def infinity (negative : Bool) : Number := ofUnits negative (2047 * Nat.pow 2 52)

def nan (negative : Bool) : Number := ofUnits negative (2047 * Nat.pow 2 52 + Nat.pow 2 51)

end Number

end ImplicitInference
