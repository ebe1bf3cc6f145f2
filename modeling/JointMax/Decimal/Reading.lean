/-
  Doubles read as exact numbers, and exact decimal numbers
  written without an exponent.

  Key definitions include:
    * `Decimal.Reading`, with `Decimal.Reading.ofFloat`
    * `Decimal.positional`
-/

------------------------------------------------------------
-- Doubles as Exact Numbers
------------------------------------------------------------

namespace JointMax

namespace Decimal

/-
  What the bits of a double stand for. A finite double is
  `mantissa * 2 ^ exponent` up to its sign; it is `narrow`
  when the gap below it is half of the gap above it.
-/
inductive Reading where
  | nan
  | infinite (negative : Bool)
  | finite (negative : Bool)
      (mantissa : Nat) (exponent : Int) (narrow : Bool)
deriving DecidableEq, Repr

namespace Reading

def ofBits (bits : Nat) : Reading :=
  let negative := bits / Nat.pow 2 63 == 1
  let biased : Nat := bits / Nat.pow 2 52 % Nat.pow 2 11
  let fraction : Nat := bits % Nat.pow 2 52
  if biased = 2047 then
    if fraction = 0 then .infinite negative else .nan
  else if biased = 0 then
    .finite negative fraction (-1074) false
  else
    .finite negative (Nat.pow 2 52 + fraction)
      ((biased : Int) - 1075) (fraction == 0 && biased != 1)

def ofFloat (x : Float) : Reading :=
  ofBits x.toBits.toNat

end Reading

def sign (negative : Bool) : String :=
  if negative then "-" else ""

end Decimal

end JointMax

------------------------------------------------------------
-- Positional Notation
------------------------------------------------------------

namespace JointMax

namespace Decimal

/- A number in at least so many digits. -/
def padded (width n : Nat) : String :=
  let digits := Nat.toDigits 10 n
  String.ofList
    (List.replicate (width - digits.length) '0' ++ digits)

/- The number `n / 10 ^ places`, with so many decimals. -/
def withPlaces (places n : Nat) : String :=
  padded 1 (n / Nat.pow 10 places) ++ "." ++
    padded places (n % Nat.pow 10 places)

/- The number `n * 10 ^ place`, never with an exponent. -/
def positional (n : Nat) (place : Int) : String :=
  if 0 ≤ place then
    padded 1 (n * Nat.pow 10 place.toNat)
  else
    withPlaces (-place).toNat n

end Decimal

end JointMax
