import UriTemplate.Decimal.Binary64

/-! # Shortest decimals — the fewest digits that read back

    A finite positive number owns the reals that round to it: an interval around
    it, whose ends belong to it iff its significand is even.  The decimal chosen
    for it lies on the coarsest grid `10 ^ k` that meets the interval; of two grid
    points inside, the nearer is chosen, and the even one if they are equally near.

    The interval is measured in quarters of the number's last binary place, so that
    its ends are integers, and a comparison with a grid point is one between
    natural numbers. -/

namespace UriTemplate

/-- The number `digits * 10 ^ exponent`. -/
structure Decimal where
  digits : Nat
  exponent : Int
deriving DecidableEq, Repr

namespace Decimal

/-- The reals from `low` to `high` around `centre`, in units of `2 ^ scale`; the ends
    are included iff `closed`. -/
structure Interval where
  low : Nat
  centre : Nat
  high : Nat
  scale : Int
  closed : Bool
deriving Repr

/-- The reals that round to the magnitude of `x`. -/
def Interval.of (x : Binary64) : Interval where
  low := 4 * x.significand - (if x.isNarrowBelow then 1 else 2)
  centre := 4 * x.significand
  high := 4 * x.significand + 2
  scale := x.scale - 2
  closed := x.significand % 2 = 0

/-- The multiple of `10 ^ k` inside the interval that is nearest to its centre. -/
def Interval.pointOnGrid? (iv : Interval) (k : Int) : Option Nat :=
  let measure (n : Nat) : Nat := n * Nat.pow 2 iv.scale.toNat * Nat.pow 10 (-k).toNat
  let grid : Nat := Nat.pow 10 k.toNat * Nat.pow 2 (-iv.scale).toNat
  let isInside (d : Nat) : Bool :=
    if iv.closed then measure iv.low ≤ d * grid && d * grid ≤ measure iv.high
    else measure iv.low < d * grid && d * grid < measure iv.high
  let d := measure iv.centre / grid
  let below := measure iv.centre - d * grid
  let above := (d + 1) * grid - measure iv.centre
  if isInside d && isInside (d + 1) then
    some (if below < above ∨ below = above ∧ d % 2 = 0 then d else d + 1)
  else if isInside d then some d
  else if isInside (d + 1) then some (d + 1)
  else none

/-- The powers of ten that can be the grid of a double-precision number, coarsest first. -/
def gridExponents : List Int := (List.range 634).map fun (i : Nat) => 309 - (i : Int)

/-- The shortest decimal that reads back as the magnitude of the finite number `x`. -/
def shortest (x : Binary64) : Decimal :=
  if x.significand = 0 then ⟨0, 0⟩
  else
    let point? (k : Int) : Option Decimal := ((Interval.of x).pointOnGrid? k).map (⟨·, k⟩)
    (gridExponents.findSome? point?).getD ⟨0, 0⟩

end Decimal

end UriTemplate
