/-!
# Double precision numbers

A `Binary64` is an IEEE 754 double given by its 64 bits. Keeping the bits, rather than the number
they stand for, makes equality decidable and exact: the two zeros differ, and so do two NaNs with
different payloads.

* Arithmetic (`add`, `sub`, `mul`, `div`) rounds to nearest, ties to even.
* `Magnitude` is the exact value of a positive finite double, `mantissa * 2 ^ exponent`.
* `shape` says what a double is: not a number, infinite, zero, or a positive magnitude with a sign.

It is the number of a `FloatLit`, a `ConstF64` and a scalar `F64`. The arithmetic is that of
`Float`, and no proof looks into it: what is proved of numbers is proved of their bits.
-/

namespace FlowLang

/-- An IEEE 754 double by its bit pattern: sign, eleven bits of exponent, 52 bits of fraction. -/
structure Binary64 where
  bits : UInt64
  deriving DecidableEq

namespace Binary64

/-- The number that the bits stand for. -/
def toFloat (x : Binary64) : Float := Float.ofBits x.bits

/-- The bits of a number. -/
def ofFloat (x : Float) : Binary64 := ⟨x.toBits⟩

/-- The double nearest to an integer. -/
def ofInt (n : Int) : Binary64 := ofFloat (Float.ofInt n)

/-- The double nearest to `digits / 10 ^ places`. -/
def ofDecimal (digits places : Nat) : Binary64 := ofFloat (Float.ofScientific digits true places)

/-- Positive zero. -/
def zero : Binary64 := ⟨0⟩

/-- The number one. -/
def one : Binary64 := ⟨0x3ff0000000000000⟩

def add (x y : Binary64) : Binary64 := ofFloat (x.toFloat + y.toFloat)

def sub (x y : Binary64) : Binary64 := ofFloat (x.toFloat - y.toFloat)

def mul (x y : Binary64) : Binary64 := ofFloat (x.toFloat * y.toFloat)

def div (x y : Binary64) : Binary64 := ofFloat (x.toFloat / y.toFloat)

/-- Whether the bits stand for no number. -/
def isNaN (x : Binary64) : Bool := x.toFloat.isNaN

/-! ## Exact values -/

/-- A positive finite value `mantissa * 2 ^ exponent`. -/
structure Magnitude where
  mantissa : Nat
  exponent : Int
  deriving DecidableEq

/-- What a double stands for. -/
inductive Shape where
  | nan
  | infinite (negative : Bool)
  | zero (negative : Bool)
  | finite (negative : Bool) (magnitude : Magnitude)

/-- The weight of the lowest exponent bit, and of the leading one bit of most mantissas. -/
def leadingBit : Nat := 0x10000000000000

/-- The weight of the sign bit. -/
def signBit : Nat := 0x8000000000000000

/-- The largest exponent field, with all eleven bits set. -/
def maxField : Nat := 0x7ff

/-- Whether the sign bit is set. -/
def isNegative (x : Binary64) : Bool := signBit ≤ x.bits.toNat

/-- The eleven exponent bits. -/
def exponentField (x : Binary64) : Nat := x.bits.toNat / leadingBit % (maxField + 1)

/-- The 52 fraction bits. -/
def fractionField (x : Binary64) : Nat := x.bits.toNat % leadingBit

/-- Reads the fields: an exponent field of all ones marks infinities and NaNs, and one of zero the
numbers without a leading one bit. -/
def shape (x : Binary64) : Shape :=
  if x.exponentField = maxField then
    if x.fractionField = 0 then .infinite x.isNegative else .nan
  else if x.exponentField = 0 then
    if x.fractionField = 0 then .zero x.isNegative
    else .finite x.isNegative ⟨x.fractionField, -1074⟩
  else .finite x.isNegative ⟨leadingBit + x.fractionField, (x.exponentField : Int) - 1075⟩

end Binary64

end FlowLang
