import JointMax.MixedRadix

/-
  Index arithmetic in machine words. Loops over radices take
  one product, sum, quotient or remainder at a time, and each
  result has to fit into a word. One that does not wraps
  around, unless the arithmetic is checked and breaks off.

  Key definitions include:
    * `wordLimit` and `word?`
    * `Build`, with `Build.fit`, `Build.minus` and
      `Build.holds`
    * `MixedRadix.carry?`, `MixedRadix.multiplyUp?` and
      `MixedRadix.weights?`
    * `MixedRadix.numberOf?` and `MixedRadix.digitsOf?`
-/

------------------------------------------------------------
-- Words
------------------------------------------------------------

namespace JointMax

/- Machine words are the numbers below this one. -/
def wordLimit : Nat := Nat.pow 2 64

/- A number as a word, breaking off where it is too large. -/
def word? (n : Nat) : Option Nat :=
  if n < wordLimit then some n else none

theorem word?_eq {n : Nat} (hBound : n < wordLimit) :
    word? n = some n :=
  if_pos hBound

/-
  The two ways to build a program. Results wrap around, or
  else overflows and assertions are checked.
-/
inductive Build where
  | wrapping
  | checked
deriving DecidableEq, Repr

namespace Build

/- What becomes of a result. -/
def fit : Build → Nat → Option Nat
  | wrapping, n => some (n % wordLimit)
  | checked, n => word? n

/- What becomes of a difference of two words. -/
def minus : Build → Nat → Nat → Option Nat
  | wrapping, n, m => some ((n + wordLimit - m) % wordLimit)
  | checked, n, m => if m ≤ n then some (n - m) else none

/- An assertion, of which only checked builds take notice. -/
def holds : Build → Bool → Option Unit
  | wrapping, _ => some ()
  | checked, asserted => if asserted then some () else none

variable {build : Build} {n m : Nat}

theorem fit_eq (hWord : n < wordLimit) :
    build.fit n = some n := by
  cases build with
  | wrapping => rw [fit, Nat.mod_eq_of_lt hWord]
  | checked => exact word?_eq hWord

/- Whatever is left of a number is that number in words. -/
theorem eq_mod_of_fit (hFit : build.fit n = some m) :
    m = n % wordLimit := by
  cases build with
  | wrapping => exact (Option.some.inj hFit).symm
  | checked =>
      simp only [fit, word?] at hFit
      split at hFit
      · rename_i hWord
        cases hFit
        exact (Nat.mod_eq_of_lt hWord).symm
      · cases hFit

theorem minus_eq (hLe : m ≤ n) (hWord : n < wordLimit) :
    build.minus n m = some (n - m) := by
  cases build with
  | wrapping =>
      have hSplit :
          n + wordLimit - m = n - m + wordLimit := by
        omega
      rw [minus, hSplit, Nat.add_mod_right,
        Nat.mod_eq_of_lt (Nat.lt_of_le_of_lt
          (Nat.sub_le n m) hWord)]
  | checked => exact if_pos hLe

theorem holds_true : build.holds true = some () := by
  cases build <;> rfl

end Build

end JointMax

------------------------------------------------------------
-- Loops over Radices
------------------------------------------------------------

namespace JointMax

namespace MixedRadix

/-
  The number of a digit list, added up digit by digit with
  growing weights, up to the first digit out of range. Each
  result becomes what `fit` makes of it.
-/
def addUp?
    (fit : Nat → Option Nat) :
    Nat → Nat → Nat → List Nat → List Nat →
      Option (Except Fault Nat)
  | dimension, index, weight, radix :: radices,
      digit :: digits =>
      if digit < radix then do
        let share ← fit (digit * weight)
        let next ← fit (index + share)
        let heavier ← fit (weight * radix)
        addUp? fit (dimension + 1) next heavier radices
          digits
      else
        some
          (.error (.dimensionOutOfRange dimension digit radix))
  | _, index, _, _, _ => some (.ok index)

def numberOf?
    (fit : Nat → Option Nat)
    (radices digits : List Nat) :
    Option (Except Fault Nat) :=
  if digits.length = radices.length then
    addUp? fit 0 0 1 radices digits
  else
    some (.error (.badScope
      (.dimensionCount digits.length radices.length)))

/- The product of the radices, times what is there already. -/
def multiplyUp?
    (fit : Nat → Option Nat) :
    Nat → List Nat → Option Nat
  | done, [] => some done
  | done, radix :: radices => do
      let next ← fit (done * radix)
      multiplyUp? fit next radices

/-
  The digits of a number, split off one by one. A division by
  zero breaks off.
-/
def splitOff? : List Nat → Nat → Option (List Nat)
  | [], _ => some []
  | radix :: radices, rest =>
      if radix = 0 then
        none
      else do
        let digits ← splitOff? radices (rest / radix)
        return rest % radix :: digits

def digitsOf?
    (fit : Nat → Option Nat)
    (radices : List Nat)
    (index : Nat) :
    Option (Except Fault (List Nat)) := do
  let total ← multiplyUp? fit 1 radices
  if index < total then
    (splitOff? radices index).map .ok
  else
    return .error (.indexOutOfRange index total)

/- Breaking off at a result above the limit. -/
def within? (limit n : Nat) : Option Nat :=
  if n ≤ limit then some n else none

/- Results wrap around, and nothing breaks off. -/
def wrapped (n : Nat) : Option Nat :=
  some (n % wordLimit)

end MixedRadix

end JointMax

------------------------------------------------------------
-- Weights
------------------------------------------------------------

namespace JointMax

namespace MixedRadix

/-
  One more digit, of the given weight, in an index. The index
  and the next digit's weight come out.
-/
def carry?
    (fit : Nat → Option Nat)
    (index weight digit radix : Nat) :
    Option (Nat × Nat) := do
  let share ← fit (digit * weight)
  let next ← fit (index + share)
  let heavier ← fit (weight * radix)
  return (next, heavier)

/- The weights of all digits, from the first one's on. -/
def weights?
    (fit : Nat → Option Nat) :
    Nat → List Nat → Option (List Nat)
  | _, [] => some []
  | weight, radix :: radices => do
      let heavier ← fit (weight * radix)
      let later ← weights? fit heavier radices
      return weight :: later

/- Digits times their weights, added to what is there. -/
def weigh?
    (fit : Nat → Option Nat) :
    Nat → List Nat → List Nat → Option Nat
  | index, digit :: digits, weight :: weights => do
      let share ← fit (digit * weight)
      let next ← fit (index + share)
      weigh? fit next digits weights
  | index, _, _ => some index

/- Whatever is left of a product is that product in words. -/
theorem eq_mod_of_multiplyUp?
    {build : Build}
    {done total : Nat}
    {radices : List Nat}
    (hDone : done < wordLimit)
    (hTotal : multiplyUp? build.fit done radices = some total) :
    total = done * count radices % wordLimit := by
  induction radices generalizing done with
  | nil =>
      cases hTotal
      rw [count, Nat.mul_one, Nat.mod_eq_of_lt hDone]
  | cons radix radices ih =>
      simp only [multiplyUp?] at hTotal
      cases hNext : build.fit (done * radix) with
      | none =>
          rw [hNext] at hTotal
          cases hTotal
      | some next =>
          rw [hNext] at hTotal
          have hMod := Build.eq_mod_of_fit hNext
          have hWord : next < wordLimit := by
            rw [hMod]
            exact Nat.mod_lt _ (Nat.two_pow_pos 64)
          rw [ih hWord hTotal, hMod, Nat.mod_mul_mod, count,
            Nat.mul_assoc]

end MixedRadix

end JointMax
