import Mathlib
import JointMax.Proofs.Precedence
import JointMax.Proofs.Words

/-
  Numbers and digit lists over any radices, zeros among them.
  The two conversions undo each other, each refuses all that
  is out of range, and the order of numbers is that of their
  digits from the last place on.

  The loops that compute them take one product, sum, quotient
  or remainder at a time. As long as no radix is zero, none of
  these exceeds the product of the radices. A radix of zero
  may come after products that are too large for words. They
  may wrap, since every digit list is refused then and so is
  every number; loops that check for overflow break off.

  Main declarations:
    * `MixedRadix.Offends` and `MixedRadix.encode?_cases`
    * `MixedRadix.numberOf?_eq` and
      `MixedRadix.digitsOf?_eq`
    * `MixedRadix.Numbered` and `MixedRadix.numbered`
-/

------------------------------------------------------------
-- Accepted and Refused Digits
------------------------------------------------------------

namespace JointMax

namespace MixedRadix

/- The first digit that is not below its radix. -/
structure Offends
    (radices digits : List Nat)
    (dimension digit radix : Nat) : Prop where
  radix_at : radices[dimension]? = some radix
  digit_at : digits[dimension]? = some digit
  excess : radix ≤ digit
  first :
    Within (radices.take dimension) (digits.take dimension)

variable {radices digits : List Nat} {index : Nat}

theorem Within.pos
    (hWithin : Within radices digits) :
    ∀ radix ∈ radices, 0 < radix := by
  induction hWithin with
  | nil => simp
  | cons head _ ih =>
      rw [List.forall_mem_cons]
      exact ⟨Nat.zero_lt_of_lt head, ih⟩

theorem pos_of_lt_count (hIndex : index < count radices) :
    ∀ radix ∈ radices, 0 < radix :=
  (within_decode hIndex).pos

theorem encodeFrom_cases
    (dimension : Nat)
    (hLength : digits.length = radices.length) :
    (Within radices digits ∧
        encodeFrom dimension radices digits =
          .ok (encode radices digits)) ∨
      ∃ place digit radix,
        Offends radices digits place digit radix ∧
          encodeFrom dimension radices digits =
            .error (.dimensionOutOfRange (dimension + place)
              digit radix) := by
  induction radices generalizing dimension digits with
  | nil =>
      rw [List.eq_nil_of_length_eq_zero hLength]
      exact .inl ⟨.nil, rfl⟩
  | cons radix radices ih =>
      rcases List.exists_cons_of_length_eq_add_one hLength
        with ⟨digit, digits, rfl⟩
      simp only [encodeFrom]
      split
      · rename_i hDigit
        rcases ih (dimension + 1) (by simpa using hLength) with
          ⟨hWithin, hHigh⟩ |
            ⟨place, found, bound, hOffends, hFault⟩
        · rw [hHigh]
          exact .inl ⟨.cons hDigit hWithin, rfl⟩
        · rw [hFault]
          refine .inr ⟨place + 1, found, bound,
            ⟨hOffends.radix_at, hOffends.digit_at,
              hOffends.excess,
              .cons hDigit hOffends.first⟩, ?_⟩
          rw [Nat.add_comm place 1, ← Nat.add_assoc]
          rfl
      · rename_i hDigit
        exact .inr ⟨0, digit, radix,
          ⟨rfl, rfl, Nat.le_of_not_lt hDigit, .nil⟩, rfl⟩

theorem encode?_cases (radices digits : List Nat) :
    (Within radices digits ∧
        encode? radices digits =
          .ok (encode radices digits)) ∨
      (digits.length ≠ radices.length ∧
        encode? radices digits =
          .error (.badScope (.dimensionCount digits.length
            radices.length))) ∨
      ∃ dimension digit radix,
        Offends radices digits dimension digit radix ∧
          encode? radices digits =
            .error (.dimensionOutOfRange dimension digit
              radix) := by
  unfold encode?
  split
  · rename_i hLength
    have hCases := encodeFrom_cases 0 hLength
    simp only [Nat.zero_add] at hCases
    exact hCases.imp_right .inr
  · rename_i hLength
    exact .inr (.inl ⟨hLength, rfl⟩)

theorem Within.lt_of_getElem?
    {place digit radix : Nat}
    (hWithin : Within radices digits)
    (hRadix : radices[place]? = some radix)
    (hDigit : digits[place]? = some digit) :
    digit < radix := by
  induction hWithin generalizing place with
  | nil => cases hRadix
  | cons head _ ih =>
      cases place with
      | zero =>
          cases hRadix
          cases hDigit
          exact head
      | succ place => exact ih hRadix hDigit

theorem Offends.not_within
    {dimension digit radix : Nat}
    (hOffends :
      Offends radices digits dimension digit radix) :
    ¬ Within radices digits := by
  intro hWithin
  exact absurd
    (hWithin.lt_of_getElem? hOffends.radix_at
      hOffends.digit_at)
    (Nat.not_lt.mpr hOffends.excess)

theorem encode?_eq_ok_iff :
    encode? radices digits = .ok index ↔
      Within radices digits ∧
        encode radices digits = index := by
  rcases encode?_cases radices digits with
    ⟨hWithin, hEncode⟩ | ⟨hLength, hEncode⟩ |
      ⟨_, _, _, hOffends, hEncode⟩
  · simp [hEncode, hWithin]
  · rw [hEncode]
    exact iff_of_false nofun fun hBoth =>
      hLength hBoth.1.length_eq
  · rw [hEncode]
    exact iff_of_false nofun fun hBoth =>
      hOffends.not_within hBoth.1

theorem decode?_of_lt (hIndex : index < count radices) :
    decode? radices index = .ok (decode radices index) :=
  if_pos hIndex

end MixedRadix

end JointMax

------------------------------------------------------------
-- Loops
------------------------------------------------------------

namespace JointMax

namespace MixedRadix

variable {fit : Nat → Option Nat} {limit : Nat}
variable {radices digits : List Nat}

/-
  Where results up to the limit are exact, and the weight of
  all digits together is one of them, the loop is the number.
-/
theorem addUp?_eq
    (hExact : ∀ n ≤ limit, fit n = some n)
    (hPos : ∀ radix ∈ radices, 0 < radix)
    {index weight : Nat}
    (hIndex : index < weight)
    (hLimit : weight * count radices ≤ limit)
    (dimension : Nat) :
    addUp? fit dimension index weight radices digits =
      some ((encodeFrom dimension radices digits).map
        fun high => index + weight * high) := by
  induction radices generalizing
      dimension index weight digits with
  | nil => cases digits <;> simp [addUp?, encodeFrom, Except.map]
  | cons radix radices ih =>
      cases digits with
      | nil => simp [addUp?, encodeFrom, Except.map]
      | cons digit digits =>
          rw [List.forall_mem_cons] at hPos
          simp only [addUp?, encodeFrom]
          split
          · rename_i hDigit
            have hBelow := add_mul_lt hDigit hIndex
            rw [count, ← Nat.mul_assoc] at hLimit
            have hHeavier : weight * radix ≤ limit :=
              (Nat.le_mul_of_pos_right _
                (count_pos hPos.2)).trans hLimit
            simp only [hExact (digit * weight) (by omega),
              hExact (index + digit * weight) (by omega),
              hExact (weight * radix) hHeavier,
              Option.bind_eq_bind, Option.bind_some]
            rw [ih hPos.2 hBelow hLimit]
            cases encodeFrom (dimension + 1) radices digits
              with
            | error fault => rfl
            | ok high =>
                have hSum :
                    index + digit * weight +
                        weight * radix * high =
                      index +
                        weight * (digit + radix * high) := by
                  ring
                rw [Except.map, hSum]
                rfl
          · rfl

theorem numberOf?_eq
    (hExact : ∀ n ≤ count radices, fit n = some n)
    (hPos : ∀ radix ∈ radices, 0 < radix)
    (digits : List Nat) :
    numberOf? fit radices digits =
      some (encode? radices digits) := by
  unfold numberOf? encode?
  split
  · rw [addUp?_eq hExact hPos Nat.one_pos (by rw [Nat.one_mul])]
    cases encodeFrom 0 radices digits with
    | error fault => rfl
    | ok index => simp [Except.map]
  · rfl

theorem multiplyUp?_eq
    (hExact : ∀ n ≤ limit, fit n = some n)
    (hPos : ∀ radix ∈ radices, 0 < radix)
    {done : Nat}
    (hLimit : done * count radices ≤ limit) :
    multiplyUp? fit done radices =
      some (done * count radices) := by
  induction radices generalizing done with
  | nil => rw [multiplyUp?, count, Nat.mul_one]
  | cons radix radices ih =>
      rw [List.forall_mem_cons] at hPos
      rw [count, ← Nat.mul_assoc] at hLimit ⊢
      have hNext : done * radix ≤ limit :=
        (Nat.le_mul_of_pos_right _
          (count_pos hPos.2)).trans hLimit
      simp only [multiplyUp?, hExact _ hNext,
        Option.bind_eq_bind, Option.bind_some]
      exact ih hPos.2 hLimit

theorem splitOff?_eq
    (hPos : ∀ radix ∈ radices, 0 < radix)
    (rest : Nat) :
    splitOff? radices rest = some (decode radices rest) := by
  induction radices generalizing rest with
  | nil => rfl
  | cons radix radices ih =>
      rw [List.forall_mem_cons] at hPos
      rw [splitOff?, if_neg hPos.1.ne', ih hPos.2]
      rfl

/- Once the product is known, no division can be by zero. -/
theorem digitsOf?_of_multiplyUp?
    (hTotal : multiplyUp? fit 1 radices = some (count radices))
    (index : Nat) :
    digitsOf? fit radices index =
      some (decode? radices index) := by
  simp only [digitsOf?, hTotal, Option.bind_eq_bind,
    Option.bind_some, decode?]
  split
  · rename_i hIndex
    rw [splitOff?_eq (pos_of_lt_count hIndex)]
    rfl
  · rfl

theorem digitsOf?_eq
    (hExact : ∀ n ≤ count radices, fit n = some n)
    (hPos : ∀ radix ∈ radices, 0 < radix)
    (index : Nat) :
    digitsOf? fit radices index =
      some (decode? radices index) := by
  apply digitsOf?_of_multiplyUp?
  rw [multiplyUp?_eq hExact hPos (by rw [Nat.one_mul]),
    Nat.one_mul]

theorem within?_eq
    {n : Nat}
    (hLimit : n ≤ limit) :
    within? limit n = some n :=
  if_pos hLimit

end MixedRadix

end JointMax

------------------------------------------------------------
-- Wrapping Words
------------------------------------------------------------

namespace JointMax

namespace MixedRadix

variable {radices digits : List Nat}

theorem wrapped_eq
    {n : Nat}
    (hWord : n < wordLimit) :
    wrapped n = some n := by
  rw [wrapped, Nat.mod_eq_of_lt hWord]

/- Whatever the results wrap to, the same digit is refused. -/
theorem addUp?_wrapped_eq_error
    {fault : Fault}
    {dimension : Nat}
    (hFault :
      encodeFrom dimension radices digits = .error fault)
    (index weight : Nat) :
    addUp? wrapped dimension index weight radices digits =
      some (.error fault) := by
  induction radices generalizing
      dimension index weight digits with
  | nil => cases digits <;> cases hFault
  | cons radix radices ih =>
      cases digits with
      | nil => cases hFault
      | cons digit digits =>
          simp only [encodeFrom] at hFault
          split at hFault
          · rename_i hDigit
            have hLater :
                encodeFrom (dimension + 1) radices digits =
                  .error fault := by
              cases hHigh :
                  encodeFrom (dimension + 1) radices digits
                with
              | error other =>
                  rw [hHigh] at hFault
                  exact hFault
              | ok high =>
                  rw [hHigh] at hFault
                  cases hFault
            rw [addUp?, if_pos hDigit]
            exact ih hLater _ _
          · rename_i hDigit
            cases hFault
            rw [addUp?, if_neg hDigit]

theorem numberOf?_wrapped
    (hWords : count radices < wordLimit)
    (digits : List Nat) :
    numberOf? wrapped radices digits =
      some (encode? radices digits) := by
  cases hEncode : encode? radices digits with
  | ok index =>
      rw [← hEncode]
      apply numberOf?_eq
      · exact fun n hLimit =>
          wrapped_eq (Nat.lt_of_le_of_lt hLimit hWords)
      · exact (encode?_eq_ok_iff.mp hEncode).1.pos
  | error fault =>
      unfold encode? at hEncode
      unfold numberOf?
      split at hEncode
      · rename_i hLength
        rw [if_pos hLength]
        exact addUp?_wrapped_eq_error hEncode 0 1
      · rename_i hLength
        cases hEncode
        rw [if_neg hLength]

/- A product wraps to what its factors' products wrap to. -/
theorem multiplyUp?_wrapped
    {done : Nat}
    (hDone : done < wordLimit) :
    multiplyUp? wrapped done radices =
      some (done * count radices % wordLimit) := by
  induction radices generalizing done with
  | nil =>
      rw [multiplyUp?, count, Nat.mul_one,
        Nat.mod_eq_of_lt hDone]
  | cons radix radices ih =>
      simp only [multiplyUp?, wrapped, Option.bind_eq_bind,
        Option.bind_some, count]
      rw [ih (Nat.mod_lt _ (Nat.two_pow_pos 64)),
        Nat.mod_mul_mod, Nat.mul_assoc]

theorem digitsOf?_wrapped
    (hWords : count radices < wordLimit)
    (index : Nat) :
    digitsOf? wrapped radices index =
      some (decode? radices index) := by
  apply digitsOf?_of_multiplyUp?
  rw [multiplyUp?_wrapped (by decide), Nat.one_mul,
    Nat.mod_eq_of_lt hWords]

end MixedRadix

end JointMax

------------------------------------------------------------
-- Both Ways
------------------------------------------------------------

namespace JointMax

namespace MixedRadix

/-
  Numbers below the product of the radices and digit lists
  within the radices, in one order. What is refused is named.
  The loops find the same, by results that do not exceed the
  product of the radices unless one of them is zero. With a
  radix of zero only the wrapping loops find it on all lists.
  Loops that check for overflow break off on a list such as
  `[2 ^ 40, 2 ^ 40, 0]`, where the product of the first two
  radices is no word, although that of all three is zero.
-/
structure Numbered (radices : List Nat) : Prop where
  decoded : ∀ index < radices.prod, ∃ digits,
    decode? radices index = .ok digits ∧
      Within radices digits ∧
      encode? radices digits = .ok index
  beyond : ∀ index, radices.prod ≤ index →
    decode? radices index =
      .error (.indexOutOfRange index radices.prod)
  encoded : ∀ digits, Within radices digits → ∃ index,
    encode? radices digits = .ok index ∧
      index < radices.prod ∧
      decode? radices index = .ok digits
  miscounted : ∀ digits : List Nat,
    digits.length ≠ radices.length →
      encode? radices digits =
        .error (.badScope (.dimensionCount digits.length
          radices.length))
  offending : ∀ digits : List Nat,
    digits.length = radices.length →
      ¬ Within radices digits →
      ∃ dimension digit radix,
        Offends radices digits dimension digit radix ∧
          encode? radices digits =
            .error (.dimensionOutOfRange dimension digit
              radix)
  ordered : ∀ first second low high,
    encode? radices first = .ok low →
      encode? radices second = .ok high →
      (low < high ↔ Precedes first second)
  bounded : (∀ radix ∈ radices, 0 < radix) →
    (∀ digits,
      numberOf? (within? radices.prod) radices digits =
        some (encode? radices digits)) ∧
    ∀ index,
      digitsOf? (within? radices.prod) radices index =
        some (decode? radices index)
  wrapping : radices.prod < wordLimit →
    (∀ digits,
      numberOf? wrapped radices digits =
        some (encode? radices digits)) ∧
    ∀ index,
      digitsOf? wrapped radices index =
        some (decode? radices index)

theorem numbered (radices : List Nat) : Numbered radices := by
  have hCount := count_eq_prod radices
  refine
    { decoded := ?_
      beyond := ?_
      encoded := ?_
      miscounted := ?_
      offending := ?_
      ordered := ?_
      bounded := ?_
      wrapping := ?_ }
  · intro index hIndex
    rw [← hCount] at hIndex
    have hWithin := within_decode hIndex
    exact ⟨decode radices index, decode?_of_lt hIndex,
      hWithin, encode?_eq_ok_iff.mpr
        ⟨hWithin, encode_decode hIndex⟩⟩
  · intro index hIndex
    rw [← hCount] at hIndex ⊢
    exact if_neg (Nat.not_lt.mpr hIndex)
  · intro digits hWithin
    have hIndex := encode_lt hWithin
    refine ⟨encode radices digits,
      encode?_eq_ok_iff.mpr ⟨hWithin, rfl⟩,
      hCount ▸ hIndex, ?_⟩
    rw [decode?_of_lt hIndex, decode_encode hWithin]
  · intro digits hLength
    exact if_neg hLength
  · intro digits hLength hOutside
    rcases encode?_cases radices digits with
      ⟨hWithin, _⟩ | ⟨hMiscounted, _⟩ | hOffends
    · exact absurd hWithin hOutside
    · exact absurd hLength hMiscounted
    · exact hOffends
  · intro first second low high hLow hHigh
    rcases encode?_eq_ok_iff.mp hLow with ⟨hFirst, rfl⟩
    rcases encode?_eq_ok_iff.mp hHigh with ⟨hSecond, rfl⟩
    exact encode_lt_encode_iff hFirst hSecond
  · intro hPos
    rw [← hCount]
    exact ⟨numberOf?_eq (fun _ => within?_eq) hPos,
      digitsOf?_eq (fun _ => within?_eq) hPos⟩
  · intro hWords
    rw [← hCount] at hWords
    exact ⟨numberOf?_wrapped hWords,
      digitsOf?_wrapped hWords⟩

/- A radix of zero leaves no digit to accept, and no number. -/
example :
    encode? [3, 0, 2] [2, 0, 5] =
        .error (.dimensionOutOfRange 1 0 0) ∧
      encode? [3, 1, 2] [2, 0, 1] = .ok 5 ∧
      decode? [3, 1, 2] 5 = .ok [2, 0, 1] ∧
      decode? [3, 0, 2] 0 = .error (.indexOutOfRange 0 0) ∧
      decode? [] 0 = .ok [] := by
  decide

end MixedRadix

end JointMax
