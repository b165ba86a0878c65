import FlowLang.Binary64

/-!
# Shortest decimals

Every positive finite double is the nearest one to a whole interval of reals. `shortest` gives the
decimal in that interval with the fewest digits, and of several such the one nearest to the double.

* The interval reaches half way to both neighbours; its ends belong to it when the mantissa is even.
  Below a power of two the neighbour is twice as near.
* `pick?` looks at the two multiples of `10 ^ p` around the value. If any multiple of `10 ^ p` lies
  in the interval, one of these two does.
* `shortest` takes the largest `p` for which `pick?` finds one, so the digits end in no zero.

All arithmetic is on natural numbers and exact.

This is what the number formats rest on. The library finds the digits in another way; what they are
is determined by the rule above.
-/

namespace FlowLang

/-- The decimal number `digits * 10 ^ exponent`. -/
structure Decimal where
  digits : Nat
  exponent : Int
  deriving DecidableEq

namespace Binary64.Magnitude

/-- A quarter of the distance to the next larger double, in units of `10 ^ p`, as a fraction. -/
def quarter (x : Magnitude) (p : Int) : Nat × Nat :=
  (Nat.pow 2 x.exponent.toNat * Nat.pow 10 (-p).toNat,
    4 * Nat.pow 2 (-x.exponent).toNat * Nat.pow 10 p.toNat)

/-- How many quarters the interval reaches below the value: one under a power of two whose lower
neighbour has a smaller exponent, two otherwise. -/
def reachBelow (x : Magnitude) : Nat :=
  if x.mantissa = leadingBit ∧ x.exponent ≠ -1074 then 1 else 2

/-- Whether `c` units round to `x`, if a quarter is `n / d` units. -/
def roundsFrom (x : Magnitude) (n d c : Nat) : Bool :=
  let low := (4 * x.mantissa - x.reachBelow) * n
  let high := (4 * x.mantissa + 2) * n
  if x.mantissa % 2 = 0 then low ≤ c * d && c * d ≤ high
  else low < c * d && c * d < high

/-- The multiple of `10 ^ p` that rounds to `x` and is nearest to it; of two equally near ones the
larger. -/
def pick? (x : Magnitude) (p : Int) : Option Nat :=
  let (n, d) := x.quarter p
  let down := 4 * x.mantissa * n / d
  match x.roundsFrom n d down, x.roundsFrom n d (down + 1) with
  | true, true => some (if d ≤ 2 * (4 * x.mantissa * n % d) then down + 1 else down)
  | true, false => some down
  | false, true => some (down + 1)
  | false, false => none

/-- All digits of the value. -/
def exact (x : Magnitude) : Decimal :=
  if 0 ≤ x.exponent then ⟨x.mantissa * Nat.pow 2 x.exponent.toNat, 0⟩
  else ⟨x.mantissa * Nat.pow 5 (-x.exponent).toNat, x.exponent⟩

/-- A power of ten above the value. -/
def powerAbove (x : Magnitude) : Int :=
  ((x.mantissa.log2 : Int) + 1 + x.exponent) * 30103 / 100000 + 1

/-- Tries `count` powers of ten downwards from `p`. -/
def shortestFrom (x : Magnitude) : Nat → Int → Decimal
  | 0, _ => x.exact
  | count + 1, p =>
    match x.pick? p with
    | some c => ⟨c, p⟩
    | none => x.shortestFrom count (p - 1)

/-- The decimal with the fewest digits that rounds to `x`. The exact value is a multiple of the last
power tried, so the search always succeeds. -/
def shortest (x : Magnitude) : Decimal :=
  x.shortestFrom ((x.powerAbove - min x.exponent 0).toNat + 1) x.powerAbove

end Binary64.Magnitude

end FlowLang
