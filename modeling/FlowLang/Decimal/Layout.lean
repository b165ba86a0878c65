import FlowLang.Decimal.Shortest

/-!
# Writing numbers as text

* `Style` collects what one output decides about its numbers. `Style.plain` writes `1`, `0.1` and
  `1000000000000000000000`; `Style.marked` writes `1.0`, `0.1` and `1e21`.
* `Binary64.text` writes the shortest decimal that reads back as the number.
* `Binary64.fixed` writes the exact value rounded to a number of places, a half to the even
  neighbour.

A sign is written also for zero, and never for a NaN.

These are the number formats of the program: `Style.plain` is the one in which `emj_print_float`
prints, `Style.marked` the one of listings and of tokens in messages, and `Binary64.fixed` with six
places the one of labels. The formats are a library's, and are given here by what they print.
-/

namespace FlowLang

/-- What an output decides about the text of a finite number. -/
structure Decimal.Style where
  /-- The leading digit's powers of ten, from the first up to before the second, that are written
  without an exponent; `none` if all are. -/
  positional : Option (Int × Int)
  /-- Whether a whole number ends in `.0`. -/
  wholePoint : Bool

/-- Never an exponent, and nothing after a whole number. -/
def Decimal.Style.plain : Decimal.Style := ⟨none, false⟩

/-- An exponent below `1e-4` and from `1e16` on; a whole number ends in `.0`. -/
def Decimal.Style.marked : Decimal.Style := ⟨some (-4, 16), true⟩

namespace Decimal

/-- The digits, most significant first. -/
def digitText (d : Decimal) : List Char := Nat.toDigits 10 d.digits

/-- How many digits stand before the point; negative if zeros stand between point and digits. -/
def pointAfter (d : Decimal) : Int := d.digitText.length + d.exponent

/-- The decimal without an exponent. -/
def positional (wholePoint : Bool) (d : Decimal) : List Char :=
  if 0 ≤ d.exponent then
    d.digitText ++ List.replicate d.exponent.toNat '0' ++ (if wholePoint then ['.', '0'] else [])
  else if 0 < d.pointAfter then
    d.digitText.take d.pointAfter.toNat ++ '.' :: d.digitText.drop d.pointAfter.toNat
  else '0' :: '.' :: List.replicate (-d.pointAfter).toNat '0' ++ d.digitText

/-- The decimal as a leading digit, the further ones after a point, and a power of ten. -/
def scientific (d : Decimal) : List Char :=
  let further := d.digitText.drop 1
  d.digitText.take 1 ++ (if further.isEmpty then [] else '.' :: further) ++
    'e' :: (toString (d.pointAfter - 1)).toList

/-- The decimal in a style. -/
def render (style : Style) (d : Decimal) : List Char :=
  match style.positional with
  | none => d.positional style.wholePoint
  | some (first, stop) =>
    if first ≤ d.pointAfter - 1 ∧ d.pointAfter - 1 < stop then d.positional style.wholePoint
    else d.scientific

end Decimal

namespace Binary64

/-- A minus sign in front of negative numbers. -/
def signed (negative : Bool) (text : List Char) : String :=
  String.ofList (if negative then '-' :: text else text)

/-- The shortest text that reads back as the number. -/
def text (style : Decimal.Style) (x : Binary64) : String :=
  match x.shape with
  | .nan => "NaN"
  | .infinite negative => signed negative ['i', 'n', 'f']
  | .zero negative => signed negative (Decimal.render style ⟨0, 0⟩)
  | .finite negative m => signed negative (m.shortest.render style)

/-- The integer nearest to `n / d`, the even one of two equally near. -/
def roundEven (n d : Nat) : Nat :=
  if 2 * (n % d) < d then n / d
  else if d < 2 * (n % d) then n / d + 1
  else n / d + n / d % 2

/-- The number of `10 ^ places`-ths nearest to a magnitude. -/
def Magnitude.scaled (places : Nat) (x : Magnitude) : Nat :=
  roundEven (x.mantissa * Nat.pow 2 x.exponent.toNat * Nat.pow 10 places)
    (Nat.pow 2 (-x.exponent).toNat)

/-- `n / 10 ^ places` with all its places. -/
def withPlaces (places n : Nat) : List Char :=
  let digits := Nat.toDigits 10 n
  let padded := List.replicate (places + 1 - digits.length) '0' ++ digits
  padded.take (padded.length - places) ++ '.' :: padded.drop (padded.length - places)

/-- The number rounded to `places` decimal places. -/
def fixed (places : Nat) (x : Binary64) : String :=
  match x.shape with
  | .nan => "NaN"
  | .infinite negative => signed negative ['i', 'n', 'f']
  | .zero negative => signed negative (withPlaces places 0)
  | .finite negative m => signed negative (withPlaces places (m.scaled places))

end Binary64

end FlowLang
