import UriTemplate.Decimal.Shortest
import UriTemplate.Text.Basic

/-! # Decimal layouts — from digits to the text of a number

    A `Layout` says which exponents are written out in positional notation and how
    wide the exponent of the others is.  A whole number in positional notation
    keeps a `.0`. -/

namespace UriTemplate.Decimal

/-- How decimals are written: positionally when the exponent of the leading digit is at
    least `positionalFrom` and below `positionalBelow`, else with an exponent of at least
    `exponentWidth` digits and always a sign. -/
structure Layout where
  positionalFrom : Int
  positionalBelow : Int
  exponentWidth : Nat

/-- `d` in positional notation. -/
def positional (d : Decimal) : Text :=
  let digits := Text.ofNat d.digits
  let whole := (digits.length + d.exponent).toNat
  if 0 ≤ d.exponent then digits ++ Text.zeros d.exponent.toNat ++ ".0".toText
  else if whole = 0 then
    "0.".toText ++ Text.zeros (-(digits.length + d.exponent)).toNat ++ digits
  else digits.take whole ++ .char '.' :: digits.drop whole

/-- `d` with one digit before the point and an exponent of `width` digits or more. -/
def scientific (width : Nat) (d : Decimal) : Text :=
  let digits := Text.ofNat d.digits
  let exponent := d.exponent + digits.length - 1
  let written := Text.ofNat exponent.natAbs
  let mantissa := if digits.length = 1 then digits else digits.take 1 ++ .char '.' :: digits.drop 1
  mantissa ++ .char 'e' :: (if exponent < 0 then .char '-' else .char '+') ::
    Text.zeros (width - written.length) ++ written

/-- `d` as the layout has it. -/
def Layout.write (layout : Layout) (d : Decimal) : Text :=
  let exponent := d.exponent + (Text.ofNat d.digits).length - 1
  if layout.positionalFrom ≤ exponent ∧ exponent < layout.positionalBelow then d.positional
  else d.scientific layout.exponentWidth

/-- Any number: the sign, then the shortest decimal that reads back, or the name of what
    has none. -/
def Layout.writeBinary64 (layout : Layout) (x : Binary64) : Text :=
  if x.isNaN then ['n', 'a', 'n']
  else (if x.isNegative then "-".toText else []) ++
    if x.isFinite then layout.write (shortest x) else ['i', 'n', 'f']

end UriTemplate.Decimal
