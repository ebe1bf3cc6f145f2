import JointMax.Decimal.Reading

/-
  The shortest decimal that reads back as a given double.
  Decimal grids are tried from coarse to fine. If a grid has
  a point that reads back, one of the value's two neighbours
  on that grid does, so only these are looked at; of two hits
  the nearer counts, and the upper one on a tie.

  Key definitions include:
    * `Decimal.Interval`, the numbers that read back
    * `Decimal.Interval.shortest`
    * `Decimal.shortest`, the text
-/

------------------------------------------------------------
-- Rounding Intervals
------------------------------------------------------------

namespace JointMax

namespace Decimal

/-
  Numbers between `low / unit` and `high / unit`, around
  `value / unit`; the ends belong to it if it is `closed`.
-/
structure Interval where
  low : Nat
  value : Nat
  high : Nat
  unit : Nat
  closed : Bool

namespace Interval

/-
  Numbers that are rounded to `mantissa * 2 ^ exponent`, in
  quarters of its last place. An even mantissa attracts the
  midpoints.
-/
def ofBinary
    (mantissa : Nat)
    (exponent : Int)
    (narrow : Bool) : Interval :=
  let scale := Nat.pow 2 (exponent - 2).toNat
  { low :=
      (4 * mantissa - (if narrow then 1 else 2)) * scale
    value := 4 * mantissa * scale
    high := (4 * mantissa + 2) * scale
    unit := Nat.pow 2 (2 - exponent).toNat
    closed := mantissa % 2 == 0 }

/- Whether `n / unit` lies in the interval, scaled by `up`. -/
def holds (interval : Interval) (up n : Nat) : Bool :=
  if interval.closed then
    interval.low * up ≤ n && n ≤ interval.high * up
  else
    interval.low * up < n && n < interval.high * up

/-
  The nearest multiple of `10 ^ place` in the interval, as a
  count of that unit.
-/
def hit? (interval : Interval) (place : Int) : Option Nat :=
  let up := Nat.pow 10 (-place).toNat
  let unit := interval.unit * Nat.pow 10 place.toNat
  let below := interval.value * up / unit
  let above := below + 1
  match
    interval.holds up (below * unit),
    interval.holds up (above * unit)
  with
  | true, true =>
      if 2 * (interval.value * up) < (below + above) * unit
      then some below
      else some above
  | true, false => some below
  | false, true => some above
  | false, false => none

/-
  The place of the least power of ten above the value, which
  must be positive.
-/
def magnitude (interval : Interval) : Int :=
  let whole := interval.value / interval.unit
  if whole = 0 then
    1 - ((Nat.toDigits 10
      ((interval.unit - 1) / interval.value)).length : Int)
  else
    ((Nat.toDigits 10 whole).length : Int)

/- The first hit on at most so many grids. -/
def search (interval : Interval) : Nat → Int → Nat × Int
  | 0, place => (0, place)
  | grids + 1, place =>
      match interval.hit? place with
      | some n => (n, place)
      | none => search interval grids (place - 1)

/-
  Digits and place of the shortest decimal. Seventeen digits
  always suffice for a double.
-/
def shortest (interval : Interval) : Nat × Int :=
  interval.search 18 interval.magnitude

end Interval

end Decimal

end JointMax

------------------------------------------------------------
-- Text
------------------------------------------------------------

namespace JointMax

namespace Decimal

/- The shortest text of a double, never with an exponent. -/
def shortest (x : Float) : String :=
  match Reading.ofFloat x with
  | .nan => "NaN"
  | .infinite negative => sign negative ++ "inf"
  | .finite negative mantissa exponent narrow =>
      if mantissa = 0 then
        sign negative ++ "0"
      else
        let (n, place) :=
          (Interval.ofBinary mantissa exponent narrow).shortest
        sign negative ++ positional n place

end Decimal

end JointMax
