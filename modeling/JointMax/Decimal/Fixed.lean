import JointMax.Decimal.Reading

/-
  Doubles in a fixed number of decimals. The exact value is
  rounded, and a tie goes to the even neighbour. The sign of
  the double is kept even where all digits are zero.

  Key definitions include:
    * `Decimal.roundHalfEven`
    * `Decimal.fixed`
    * `Decimal.rightAligned`
-/

------------------------------------------------------------
-- Rounding
------------------------------------------------------------

namespace JointMax

namespace Decimal

/- The integer nearest to a fraction, even on a tie. -/
def roundHalfEven (numerator denominator : Nat) : Nat :=
  let quotient := numerator / denominator
  let twice := 2 * (numerator % denominator)
  if twice < denominator then quotient
  else if denominator < twice then quotient + 1
  else quotient + quotient % 2

end Decimal

end JointMax

------------------------------------------------------------
-- Text
------------------------------------------------------------

namespace JointMax

namespace Decimal

def fixed (places : Nat) (x : Float) : String :=
  match Reading.ofFloat x with
  | .nan => "NaN"
  | .infinite negative => sign negative ++ "inf"
  | .finite negative mantissa exponent _ =>
      sign negative ++
        withPlaces places
          (roundHalfEven
            (mantissa * Nat.pow 10 places *
              Nat.pow 2 exponent.toNat)
            (Nat.pow 2 (-exponent).toNat))

/- A text with blanks before it, in at least such a width. -/
def rightAligned (width : Nat) (text : String) : String :=
  String.ofList
      (List.replicate (width - text.length) ' ') ++
    text

end Decimal

end JointMax
