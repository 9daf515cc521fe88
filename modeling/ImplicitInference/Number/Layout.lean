import ImplicitInference.Number.Shortest

/-!
How a number is laid out as text: which first-digit exponents are written positionally, whether a
whole number keeps a place after the point, how ties go, and the words for what is not finite.
-/

namespace ImplicitInference

structure Layout where
  /-- The first-digit exponents that are written without an exponent mark. -/
  positional : Int → Bool
  /-- What follows the digits of a whole number that is written positionally. -/
  wholeEnding : String
  tie : Tie
  nan : String
  infinity : String
  negativeInfinity : String

namespace Layout

private def zeros (n : Nat) : String := String.ofList (List.replicate n '0')

def placed (layout : Layout) (digits : String) (exponent : Int) : String :=
  let first := exponent + digits.length - 1
  if 0 ≤ exponent then digits ++ zeros exponent.toNat ++ layout.wholeEnding
  else if first < 0 then "0." ++ zeros (-first - 1).toNat ++ digits
  else
    let whole := (first + 1).toNat
    String.ofList (digits.toList.take whole) ++ "." ++ String.ofList (digits.toList.drop whole)

def scientific (digits : String) (exponent : Int) : String :=
  let first := exponent + digits.length - 1
  let mantissa := match digits.toList with
    | [] => ""
    | [c] => c.toString
    | c :: rest => c.toString ++ "." ++ String.ofList rest
  mantissa ++ "e" ++ (if first < 0 then "-" else "+") ++ toString first.natAbs

def render (layout : Layout) (x : Number) : String :=
  if x.isNaN then layout.nan
  else if !x.isFinite then
    if x.isNegative then layout.negativeInfinity else layout.infinity
  else
    let decimal := x.shortest layout.tie
    let digits := toString decimal.digits
    let body :=
      if layout.positional (decimal.exponent + digits.length - 1)
      then layout.placed digits decimal.exponent
      else scientific digits decimal.exponent
    (if x.isNegative then "-" else "") ++ body

/-- Displayed numbers never have an exponent mark, and whole ones have no point. -/
def displayed : Layout where
  positional := fun _ => true
  wholeEnding := ""
  tie := .up
  nan := "NaN"
  infinity := "inf"
  negativeInfinity := "-inf"

/-- Numbers in documents are positional from `0.00001` up to below `10 ^ 16` and always show a
point or an exponent. Documents have no word for a NaN or an infinity. -/
def document : Layout where
  positional := fun first => -5 ≤ first && first < 16
  wholeEnding := ".0"
  tie := .even
  nan := "null"
  infinity := "null"
  negativeInfinity := "null"

end Layout

end ImplicitInference
