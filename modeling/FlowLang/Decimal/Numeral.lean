import FlowLang.Binary64

/-!
# Numerals

A numeral is a run of digits with at most one point. Without a point it is an integer, which must
fit in 32 bits with a sign; with a point it is the double nearest to it, infinite if it is too
large.

`Numeral.ofRun?` is the choice that `parse_number` makes for a run of digits and points.
-/

namespace FlowLang

/-- A number as written in a source text. -/
inductive Numeral where
  | integer (n : Nat)
  | real (x : Binary64)
  deriving DecidableEq

namespace Numeral

/-- The largest integer numeral. -/
def maxInteger : Nat := 2147483647

/-- The number that a run of digits stands for. -/
def digitsValue (digits : List Char) : Nat :=
  digits.foldl (fun n c => 10 * n + (c.toNat - '0'.toNat)) 0

/-- Reads a run of digits and points: refuses two points, and an integer that is too large. -/
def ofRun? (run : List Char) : Option Numeral :=
  match run.count '.' with
  | 0 =>
    let n := digitsValue run
    if n ≤ maxInteger then some (.integer n) else none
  | 1 =>
    let whole := run.takeWhile (· != '.')
    let places := (run.dropWhile (· != '.')).drop 1
    some (.real (.ofDecimal (digitsValue (whole ++ places)) places.length))
  | _ => none

end Numeral

end FlowLang
