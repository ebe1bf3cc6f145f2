import JointMax.Fault

/-
  Mixed-radix numbers over a list of radices, the first
  digit varying fastest: the number of digits `d₀ d₁ d₂ …` is
  `d₀ + r₀ * (d₁ + r₁ * (d₂ + …))`. The numbers are exact.
  `JointMax.Words` has the loops that compute them in machine
  words.

  Key definitions include:
    * `MixedRadix.count`, how many numbers there are
    * `MixedRadix.encode` and `MixedRadix.decode`
    * `MixedRadix.encode?` and `MixedRadix.decode?`, which
      check their input first
-/

------------------------------------------------------------
-- Numbers and Digits
------------------------------------------------------------

namespace JointMax

namespace MixedRadix

/- How many digit lists there are: the product of the radices. -/
def count : List Nat → Nat
  | [] => 1
  | radix :: radices => radix * count radices

/- The number of a digit list. -/
def encode : List Nat → List Nat → Nat
  | radix :: radices, digit :: digits =>
      digit + radix * encode radices digits
  | _, _ => 0

/- The digits of a number, one for each radix. -/
def decode : List Nat → Nat → List Nat
  | [], _ => []
  | radix :: radices, index =>
      index % radix :: decode radices (index / radix)

/- One digit for each radix, each below its radix. -/
inductive Within : List Nat → List Nat → Prop where
  | nil : Within [] []
  | cons {radix digit : Nat} {radices digits : List Nat}
      (head : digit < radix)
      (tail : Within radices digits) :
      Within (radix :: radices) (digit :: digits)

end MixedRadix

end JointMax

------------------------------------------------------------
-- Checked Forms
------------------------------------------------------------

namespace JointMax

namespace MixedRadix

/-
  Number of a digit list, refusing the first digit that is
  not below its radix. `dimension` is the place of the head.
-/
def encodeFrom (dimension : Nat) :
    List Nat → List Nat → Except Fault Nat
  | radix :: radices, digit :: digits =>
      if digit < radix then do
        let high ← encodeFrom (dimension + 1) radices digits
        return digit + radix * high
      else
        .error (.dimensionOutOfRange dimension digit radix)
  | _, _ => .ok 0

/-
  Number of a digit list that has one digit for each radix.
-/
def encode? (radices digits : List Nat) :
    Except Fault Nat :=
  if digits.length = radices.length then
    encodeFrom 0 radices digits
  else
    .error (.badScope
      (.dimensionCount digits.length radices.length))

/- Digits of a number below the count. -/
def decode? (radices : List Nat) (index : Nat) :
    Except Fault (List Nat) :=
  if index < count radices then
    .ok (decode radices index)
  else
    .error (.indexOutOfRange index (count radices))

end MixedRadix

end JointMax

------------------------------------------------------------
-- Bounds
------------------------------------------------------------

namespace JointMax

namespace MixedRadix

theorem count_pos {radices : List Nat}
    (hPos : ∀ radix ∈ radices, 0 < radix) :
    0 < count radices := by
  induction radices with
  | nil => exact Nat.one_pos
  | cons radix radices ih =>
      exact Nat.mul_pos (hPos radix (by simp))
        (ih fun r hMem => hPos r (by simp [hMem]))

theorem length_decode (radices : List Nat) (index : Nat) :
    (decode radices index).length = radices.length := by
  induction radices generalizing index with
  | nil => rfl
  | cons radix radices ih => simp [decode, ih]

theorem encode_lt {radices digits : List Nat}
    (hWithin : Within radices digits) :
    encode radices digits < count radices := by
  induction hWithin with
  | nil => exact Nat.one_pos
  | @cons radix digit radices digits head _ ih =>
      calc digit + radix * encode radices digits
          < radix + radix * encode radices digits := by omega
        _ = radix * (encode radices digits + 1) := by
            rw [Nat.mul_add, Nat.mul_one, Nat.add_comm]
        _ ≤ radix * count radices :=
            Nat.mul_le_mul_left radix ih

end MixedRadix

end JointMax
