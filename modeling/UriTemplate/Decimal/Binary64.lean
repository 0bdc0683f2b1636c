/-! # Binary64 — floating-point numbers by their bits

    A number is kept as its sixty-four bits: one of sign, eleven of exponent,
    fifty-two of fraction.  A finite number is its significand, an integer, times
    two to the power of its scale. -/

namespace UriTemplate

/-- A floating-point number of double precision. -/
structure Binary64 where
  bits : UInt64
deriving DecidableEq, Repr

namespace Binary64

/-- Two to the power of fifty-two, the weight of a leading bit that is not stored. -/
def leadingWeight : Nat := 0x10000000000000

/-- The sign bit, which zeros have too. -/
def isNegative (x : Binary64) : Bool := 0x8000000000000000 ≤ x.bits.toNat

/-- The bits of the exponent. -/
def exponentField (x : Binary64) : Nat := x.bits.toNat / leadingWeight % 0x800

/-- The bits of the fraction. -/
def fraction (x : Binary64) : Nat := x.bits.toNat % leadingWeight

/-- Neither an infinity nor a NaN. -/
def isFinite (x : Binary64) : Bool := x.exponentField ≠ 0x7FF

/-- Not a number. -/
def isNaN (x : Binary64) : Bool := !x.isFinite && x.fraction ≠ 0

/-- The integer part of the product that a finite number is; the leading bit is absent from the
    numbers nearest to zero. -/
def significand (x : Binary64) : Nat :=
  if x.exponentField = 0 then x.fraction else leadingWeight + x.fraction

/-- The power of two in that product. -/
def scale (x : Binary64) : Int := (max x.exponentField 1 : Nat) - 1075

/-- Is the next number towards zero closer than the next one away from it?  It is at the powers
    of two. -/
def isNarrowBelow (x : Binary64) : Bool := x.fraction = 0 && 1 < x.exponentField

end Binary64

end UriTemplate
