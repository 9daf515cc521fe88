import ImplicitInference.Number.Basic

/-!
The number nearest to a fraction, and so to a decimal. The word of a positive number is monotone in
the number, and a step of the word is a step of the grid of numbers; hence rounding the significand
to a natural number and adding it to the word of its binade also carries into the next binade.
-/

namespace ImplicitInference

def roundDiv (num den : Nat) : Nat :=
  let quotient := num / den
  let twice := 2 * (num % den)
  if twice < den then quotient
  else if den < twice then quotient + 1
  else quotient + quotient % 2

namespace Number

/-- The grid exponent of the binade that holds `num / den`, at least that of the subnormals. -/
def gridExponent (num den : Nat) : Int :=
  let near : Int := (num.log2 : Int) - den.log2 - 53
  let fits := num * Nat.pow 2 (-(near + 53)).toNat < den * Nat.pow 2 (near + 53).toNat
  max (if fits then near else near + 1) (-1074)

def ofRatio? (negative : Bool) (num den : Nat) : Option Number :=
  if num = 0 then some (zero negative)
  else
    let exponent := gridExponent num den
    let significand := roundDiv (num * Nat.pow 2 (-exponent).toNat) (den * Nat.pow 2 exponent.toNat)
    let word := (exponent + 1074).toNat * Nat.pow 2 52 + significand
    if word < 2047 * Nat.pow 2 52 then some (ofUnits negative word) else none

/-- The number nearest to `± digits * 10 ^ exponent`. Exponents that put it far outside the range
of numbers are settled without computing the power. -/
def ofDecimal? (negative : Bool) (digits : Nat) (exponent : Int) : Option Number :=
  let magnitude := exponent + (Nat.toDigits 10 digits).length
  if digits = 0 ∨ magnitude < -400 then some (zero negative)
  else if 400 < magnitude then none
  else ofRatio? negative (digits * Nat.pow 10 exponent.toNat) (Nat.pow 10 (-exponent).toNat)

def ofNat? (n : Nat) : Option Number := ofRatio? false n 1

end Number

end ImplicitInference
