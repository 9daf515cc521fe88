import ImplicitInference.Number.Basic

/-!
The shortest decimal that reads back as a given number: of the decimals with the fewest digits
inside the interval of reals that round to the number, the one nearest to it. All arithmetic is on
natural numbers; the number is the fraction `4 * significand * 2 ^ (exponent - 2)`, so the ends of
its interval are fractions with the same denominator.
-/

namespace ImplicitInference

structure Decimal where
  digits : Nat
  exponent : Int
  deriving DecidableEq, Repr

inductive Tie where
  | up
  | even
  deriving DecidableEq, Repr

namespace Decimal

def trim : Nat → Decimal → Decimal
  | 0, d => d
  | fuel + 1, d =>
    if d.digits ≠ 0 ∧ d.digits % 10 = 0 then trim fuel ⟨d.digits / 10, d.exponent + 1⟩ else d

end Decimal

structure Rounded where
  low : Nat
  value : Nat
  high : Nat
  denominator : Nat
  closed : Bool
  deriving DecidableEq, Repr

namespace Rounded

/-- The interval of reals that round to a finite nonzero number. Its ends belong to it when the
significand is even, and its lower half is short at the bottom of a binade. -/
def ofNumber (x : Number) : Rounded :=
  let scale := Nat.pow 2 (x.exponent - 2).toNat
  let below := if x.fraction = 0 ∧ 1 < x.biasedExponent then 1 else 2
  { low := (4 * x.significand - below) * scale
    value := 4 * x.significand * scale
    high := (4 * x.significand + 2) * scale
    denominator := Nat.pow 2 (2 - x.exponent).toNat
    closed := x.significand % 2 == 0 }

def contains (r : Rounded) (d : Decimal) : Bool :=
  let point := d.digits * Nat.pow 10 d.exponent.toNat * r.denominator
  let unit := Nat.pow 10 (-d.exponent).toNat
  if r.closed then r.low * unit ≤ point && point ≤ r.high * unit
  else r.low * unit < point && point < r.high * unit

/-- The exponent of the first digit of the value: the largest `e` with `10 ^ e ≤ value`. The
estimate from the binary lengths is at most one too small. -/
def firstExponent (r : Rounded) : Int :=
  let estimate := ((r.value.log2 : Int) - r.denominator.log2 - 1) * 30103 / 100000
  let reaches (e : Int) := Nat.pow 10 e.toNat * r.denominator ≤ r.value * Nat.pow 10 (-e).toNat
  if reaches (estimate + 1) then
    if reaches (estimate + 2) then estimate + 2 else estimate + 1
  else estimate

def onGrid? (r : Rounded) (tie : Tie) (exponent : Int) : Option Decimal :=
  let num := r.value * Nat.pow 10 (-exponent).toNat
  let den := r.denominator * Nat.pow 10 exponent.toNat
  let below : Decimal := ⟨num / den, exponent⟩
  let above : Decimal := ⟨num / den + 1, exponent⟩
  let twice := 2 * (num % den)
  let lower := twice < den || (twice == den && tie == .even && below.digits % 2 == 0)
  match r.contains below, r.contains above with
  | true, true => some (if lower then below else above)
  | true, false => some below
  | false, true => some above
  | false, false => none

/-- Seventeen digits always suffice, so the last grid is taken when no shorter one has a member. -/
def shortest (r : Rounded) (tie : Tie) : Decimal :=
  let first := r.firstExponent
  let grids := (List.range 17).map fun (n : Nat) => first - n
  let found := grids.findSome? (r.onGrid? tie)
  (found.getD ⟨r.value * Nat.pow 10 (16 - first).toNat / (r.denominator * Nat.pow 10 (first - 16).toNat),
    first - 16⟩).trim 17

end Rounded

def Number.shortest (x : Number) (tie : Tie) : Decimal :=
  if x.isZero then ⟨0, 0⟩ else (Rounded.ofNumber x).shortest tie

end ImplicitInference
