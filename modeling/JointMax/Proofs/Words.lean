import Mathlib
import JointMax.Proofs.Traversal
import JointMax.Words

/-
  Index arithmetic in machine words. Products and indices are
  built up from the first variable on, one multiplication and
  one addition at a time. None of them leaves the words, as
  long as the number of joint values does not.

  Main declarations:
    * `MixedRadix.product?` and `MixedRadix.product?_eq`
    * `MixedRadix.sum?` and `MixedRadix.sum?_eq`
    * `Scope.locate?`, the walk of `Scope.locate` with its
      assumptions checked
    * `Scope.locate?_decode` and `Scope.locate?_of_select?`
-/

------------------------------------------------------------
-- Products and Indices
------------------------------------------------------------

namespace JointMax

namespace MixedRadix

/- The product of the radices, times what is there already. -/
def product? : Nat → List Nat → Option Nat
  | done, [] => some done
  | done, radix :: radices => do
      let next ← word? (done * radix)
      product? next radices

/-
  The number of a digit list, added up digit by digit with
  growing weights.
-/
def sum? : Nat → Nat → List Nat → List Nat → Option Nat
  | index, weight, radix :: radices, digit :: digits => do
      let share ← word? (digit * weight)
      let next ← word? (index + share)
      let heavier ← word? (weight * radix)
      sum? next heavier radices digits
  | index, _, _, _ => some index

theorem digit_add_lt
    {radix digit high rest : Nat}
    (hDigit : digit < radix)
    (hHigh : high < rest) :
    digit + radix * high < radix * rest := by
  calc digit + radix * high
      < radix + radix * high := by omega
    _ = radix * (high + 1) := by ring
    _ ≤ radix * rest := Nat.mul_le_mul_left radix hHigh

/- Every partial product divides the whole one. -/
theorem product?_eq
    {radices : List Nat}
    {done : Nat}
    (hPos : ∀ radix ∈ radices, 0 < radix)
    (hBound : done * count radices < wordLimit) :
    product? done radices = some (done * count radices) := by
  induction radices generalizing done with
  | nil => simp [product?, count]
  | cons radix radices ih =>
      have hRest : ∀ other ∈ radices, 0 < other :=
        fun other hOther => hPos other (by simp [hOther])
      simp only [count, ← Nat.mul_assoc] at hBound ⊢
      have hFirst : done * radix < wordLimit :=
        lt_of_le_of_lt
          (Nat.le_mul_of_pos_right _ (count_pos hRest))
          hBound
      simp only [product?, word?_eq hFirst,
        Option.bind_eq_bind, Option.bind_some]
      exact ih hRest hBound

/- One digit more keeps the index below the next weight. -/
theorem add_mul_lt
    {index weight radix digit : Nat}
    (hDigit : digit < radix)
    (hIndex : index < weight) :
    index + digit * weight < weight * radix := by
  calc index + digit * weight
      < weight + digit * weight := by omega
    _ = weight * (digit + 1) := by ring
    _ ≤ weight * radix := Nat.mul_le_mul_left weight hDigit

/- The weight itself stays within the words. -/
theorem sum_step
    {index weight radix digit rest : Nat}
    (hDigit : digit < radix)
    (hIndex : index < weight)
    (hRest : 0 < rest)
    (hBound : weight * (radix * rest) < wordLimit) :
    word? (digit * weight) = some (digit * weight) ∧
      word? (index + digit * weight) =
        some (index + digit * weight) ∧
      word? (weight * radix) = some (weight * radix) ∧
      index + digit * weight < weight * radix := by
  have hNext := add_mul_lt hDigit hIndex
  have hWeight : weight * radix < wordLimit := by
    rw [← Nat.mul_assoc] at hBound
    exact lt_of_le_of_lt
      (Nat.le_mul_of_pos_right _ hRest) hBound
  exact ⟨word?_eq (by omega), word?_eq (by omega),
    word?_eq hWeight, hNext⟩

theorem sum?_eq
    {radices digits : List Nat}
    {index weight : Nat}
    (hWithin : Within radices digits)
    (hIndex : index < weight)
    (hBound : weight * count radices < wordLimit) :
    sum? index weight radices digits =
      some (index + weight * encode radices digits) := by
  induction hWithin generalizing index weight with
  | nil => rfl
  | @cons radix digit radices digits head tail ih =>
      have hRest : 0 < count radices :=
        Nat.zero_lt_of_lt (encode_lt tail)
      rcases sum_step head hIndex hRest hBound with
        ⟨hShare, hNext, hHeavier, hBelow⟩
      simp only [sum?, hShare, hNext, hHeavier,
        Option.bind_eq_bind, Option.bind_some]
      rw [ih hBelow (by rwa [Nat.mul_assoc])]
      simp only [encode]
      congr 1
      ring

end MixedRadix

end JointMax

------------------------------------------------------------
-- Indices of Selected Variables
------------------------------------------------------------

namespace JointMax

/- The digit that an assignment chooses, zero if it has none. -/
def Assignment.digit
    (assignment : Assignment)
    (var : VarId) : Nat :=
  (assignment.choice var).getD 0

namespace Axis

/-
  The walk of `locate` with words, breaking off at a digit
  out of range and at an axis that the walk does not meet.
-/
def locateFrom? :
    Nat → Nat → List Axis → List VarId → List Nat →
      Option Nat
  | index, _, [], _, _ => some index
  | index, weight, axis :: axes, var :: vars,
      digit :: digits =>
      if axis.var = var then
        if digit < axis.size then do
          let share ← word? (digit * weight)
          let next ← word? (index + share)
          let heavier ← word? (weight * axis.size)
          locateFrom? next heavier axes vars digits
        else
          none
      else
        locateFrom? index weight (axis :: axes) vars digits
  | _, _, _ :: _, _, _ => none

theorem count_sizes_pos (axes : List Axis) :
    0 < MixedRadix.count (axes.map Axis.size) :=
  MixedRadix.count_pos (by
    simpa using fun axis _ => axis.size_pos)

/- On a choice in range the walk finds the unchecked index. -/
theorem locateFrom?_map
    {axes : List Axis}
    {vars : List VarId}
    {choice : VarId → Nat}
    {index weight : Nat}
    (hSublist : (axes.map Axis.var).Sublist vars)
    (hChoice : ∀ axis ∈ axes, choice axis.var < axis.size)
    (hIndex : index < weight)
    (hBound :
      weight * MixedRadix.count (axes.map Axis.size) <
        wordLimit) :
    locateFrom? index weight axes vars (vars.map choice) =
      some (index + weight *
        locate axes vars (vars.map choice)) := by
  induction vars generalizing axes index weight with
  | nil =>
      have hNil : axes = [] := by simpa using hSublist
      subst hNil
      rfl
  | cons var vars ih =>
      cases axes with
      | nil => rfl
      | cons axis axes =>
          simp only [List.map_cons, locateFrom?, locate]
          split
          · rename_i hVar
            subst hVar
            have hTail :
                ∀ other ∈ axes,
                  choice other.var < other.size :=
              fun other hOther =>
                hChoice other (by simp [hOther])
            have hHead := hChoice axis (by simp)
            rcases MixedRadix.sum_step hHead hIndex
                (count_sizes_pos axes) hBound with
              ⟨hShare, hNext, hHeavier, hBelow⟩
            simp only [hHead, if_true, hShare, hNext,
              hHeavier, Option.bind_eq_bind,
              Option.bind_some]
            rw [ih (List.cons_sublist_cons.mp hSublist)
              hTail hBelow (by rwa [Nat.mul_assoc])]
            congr 1
            ring
          · rename_i hNe
            have hRest :
                ((axis :: axes).map Axis.var).Sublist
                  vars := by
              cases hSublist with
              | cons _ hRest => exact hRest
              | cons_cons _ _ => exact absurd rfl hNe
            exact ih hRest hChoice hIndex hBound

/- A selection that is accepted does not break off. -/
theorem locateFrom?_of_select?
    {axes : List Axis}
    {vars : List VarId}
    {digits : List Nat}
    {found index weight : Nat}
    (hSelect : select? axes vars digits = .ok found)
    (hIndex : index < weight)
    (hBound :
      weight * MixedRadix.count (axes.map Axis.size) <
        wordLimit) :
    found < MixedRadix.count (axes.map Axis.size) ∧
      locateFrom? index weight axes vars digits =
        some (index + weight * found) := by
  induction vars generalizing
      axes digits found index weight with
  | nil =>
      cases axes with
      | nil =>
          cases hSelect
          exact ⟨Nat.one_pos, rfl⟩
      | cons axis axes => cases hSelect
  | cons var vars ih =>
      cases axes with
      | nil =>
          cases hSelect
          exact ⟨Nat.one_pos, rfl⟩
      | cons axis axes =>
          cases digits with
          | nil => cases hSelect
          | cons digit digits =>
              simp only [select?] at hSelect
              split at hSelect
              · cases hSelect
              · split at hSelect
                · rename_i hVar
                  split at hSelect
                  · rename_i hDigit
                    cases hHigh :
                        select? axes vars digits with
                    | error fault =>
                        rw [hHigh] at hSelect
                        cases hSelect
                    | ok high =>
                        rw [hHigh] at hSelect
                        cases hSelect
                        rcases MixedRadix.sum_step hDigit
                            hIndex (count_sizes_pos axes)
                            hBound with
                          ⟨hShare, hNext, hHeavier, hBelow⟩
                        rcases ih hHigh hBelow
                            (by rwa [Nat.mul_assoc]) with
                          ⟨hInside, hWalk⟩
                        refine ⟨MixedRadix.digit_add_lt
                          hDigit hInside, ?_⟩
                        simp only [locateFrom?, hVar,
                          hDigit, if_true, hShare, hNext,
                          hHeavier, Option.bind_eq_bind,
                          Option.bind_some, hWalk]
                        congr 1
                        ring
                  · cases hSelect
                · rename_i hVar
                  simp only [locateFrom?, hVar, if_false]
                  exact ih hSelect hIndex hBound

theorem within_of_encode?
    {axes : List Axis}
    {digits : List Nat}
    {index : Nat}
    (hLength : digits.length = axes.length)
    (hEncode : encode? axes digits = .ok index) :
    MixedRadix.Within (axes.map Axis.size) digits ∧
      index =
        MixedRadix.encode (axes.map Axis.size) digits := by
  induction axes generalizing digits index with
  | nil =>
      rw [List.eq_nil_of_length_eq_zero hLength] at hEncode ⊢
      cases hEncode
      exact ⟨MixedRadix.Within.nil, rfl⟩
  | cons axis axes ih =>
      rcases List.exists_cons_of_length_eq_add_one hLength
        with ⟨digit, digits, rfl⟩
      simp only [encode?] at hEncode
      split at hEncode
      · rename_i hDigit
        cases hHigh : encode? axes digits with
        | error fault =>
            rw [hHigh] at hEncode
            cases hEncode
        | ok high =>
            rw [hHigh] at hEncode
            cases hEncode
            rcases ih (by simpa using hLength) hHigh with
              ⟨hWithin, rfl⟩
            exact ⟨MixedRadix.Within.cons hDigit hWithin,
              rfl⟩
      · cases hEncode

theorem within_of_indexOf?
    {assignment : Assignment}
    {axes : List Axis}
    {index : Nat}
    (hIndex :
      indexOf? assignment.choice axes = .ok index) :
    MixedRadix.Within (axes.map Axis.size)
        (axes.map fun axis => assignment.digit axis.var) ∧
      index =
        MixedRadix.encode (axes.map Axis.size)
          (axes.map fun axis =>
            assignment.digit axis.var) := by
  induction axes generalizing index with
  | nil =>
      cases hIndex
      exact ⟨MixedRadix.Within.nil, rfl⟩
  | cons axis axes ih =>
      simp only [indexOf?] at hIndex
      split at hIndex
      · rename_i digit hChoice
        have hSame : assignment.digit axis.var = digit := by
          simp [Assignment.digit, hChoice]
        split at hIndex
        · rename_i hDigit
          cases hHigh : indexOf? assignment.choice axes with
          | error fault =>
              rw [hHigh] at hIndex
              cases hIndex
          | ok high =>
              rw [hHigh] at hIndex
              cases hIndex
              rcases ih hHigh with ⟨hWithin, rfl⟩
              rw [← hSame] at hDigit ⊢
              exact ⟨MixedRadix.Within.cons hDigit hWithin,
                rfl⟩
        · cases hIndex
      · cases hIndex

end Axis

end JointMax

------------------------------------------------------------
-- Indices of Scopes
------------------------------------------------------------

namespace JointMax

namespace Scope

/- The number of joint values, multiplied up in words. -/
def product? (scope : Scope) : Option Nat :=
  MixedRadix.product? 1 scope.sizes

/- Number of aligned digits, added up in words. -/
def sum? (scope : Scope) (digits : List Nat) : Option Nat :=
  MixedRadix.sum? 0 1 scope.sizes digits

/-
  The walk of `locate` in words, breaking off unless there is
  a digit for each variable, the walk meets every axis, and
  their digits are in range.
-/
def locate?
    (scope : Scope)
    (vars : List VarId)
    (digits : List Nat) : Option Nat :=
  if vars.length = digits.length then
    Axis.locateFrom? 0 1 scope.axes vars digits
  else
    none

variable {scope larger : Scope}

theorem product?_eq (hWords : scope.count < wordLimit) :
    scope.product? = some scope.count := by
  have hProduct :=
    @MixedRadix.product?_eq scope.sizes 1
      (by simpa [sizes] using fun axis _ => axis.size_pos)
      (by rwa [Nat.one_mul])
  rwa [Nat.one_mul] at hProduct

theorem sum?_eq
    {digits : List Nat}
    (hWords : scope.count < wordLimit)
    (hWithin : MixedRadix.Within scope.sizes digits) :
    scope.sum? digits =
      some (MixedRadix.encode scope.sizes digits) := by
  have hSum :=
    MixedRadix.sum?_eq hWithin Nat.one_pos
      (by rwa [Nat.one_mul])
  rwa [Nat.one_mul, Nat.zero_add] at hSum

/- Joint values of a larger scope have a place in a part. -/
theorem locate_decode_lt
    {index : Nat}
    (hIncludes : larger.includes scope = true)
    (hIndex : index < larger.count) :
    scope.locate larger.vars (larger.decode index) <
      scope.count := by
  rw [← map_revise larger index fun _ => 0,
    locate_map hIncludes]
  exact number_lt
    ((admits_revise hIndex).of_includes hIncludes)

/- The walk in words locates them there. -/
theorem locate?_decode
    {index : Nat}
    (hIncludes : larger.includes scope = true)
    (hWords : scope.count < wordLimit)
    (hIndex : index < larger.count) :
    scope.locate? larger.vars (larger.decode index) =
        some (scope.locate larger.vars
          (larger.decode index)) ∧
      scope.locate larger.vars (larger.decode index) <
        scope.count := by
  refine ⟨?_, locate_decode_lt hIncludes hIndex⟩
  have hChoice :
      scope.Admits (larger.revise index fun _ => 0) :=
    (admits_revise hIndex).of_includes hIncludes
  have hWalk :=
    Axis.locateFrom?_map
      ((includes_iff_sublist.mp hIncludes).map Axis.var)
      hChoice Nat.one_pos (by rwa [Nat.one_mul])
  rw [Nat.one_mul, Nat.zero_add] at hWalk
  rw [← map_revise larger index fun _ => 0, locate?,
    if_pos (by simp)]
  exact hWalk

/- An accepted selection is located without breaking off. -/
theorem locate?_of_select?
    {vars : List VarId}
    {digits : List Nat}
    {index : Nat}
    (hWords : scope.count < wordLimit)
    (hSelect : scope.select? vars digits = .ok index) :
    scope.locate? vars digits = some index ∧
      index < scope.count := by
  unfold select? at hSelect
  split at hSelect
  · rename_i hLength
    rcases Axis.locateFrom?_of_select? hSelect Nat.one_pos
        (by rwa [Nat.one_mul]) with
      ⟨hInside, hWalk⟩
    rw [Nat.one_mul, Nat.zero_add] at hWalk
    refine ⟨?_, hInside⟩
    rw [locate?, if_pos hLength]
    exact hWalk
  · cases hSelect

/- Accepted digits are in range, and the index is theirs. -/
theorem within_of_encode?
    {digits : List Nat}
    {index : Nat}
    (hEncode : scope.encode? digits = .ok index) :
    MixedRadix.Within scope.sizes digits ∧
      index = MixedRadix.encode scope.sizes digits := by
  unfold encode? at hEncode
  split at hEncode
  · rename_i hLength
    exact Axis.within_of_encode? hLength hEncode
  · cases hEncode

/- So are the digits of an accepted assignment. -/
theorem within_of_indexOf?
    {assignment : Assignment}
    {index : Nat}
    (hIndex : scope.indexOf? assignment = .ok index) :
    MixedRadix.Within scope.sizes
        (scope.vars.map assignment.digit) ∧
      index =
        MixedRadix.encode scope.sizes
          (scope.vars.map assignment.digit) := by
  unfold vars
  rw [List.map_map]
  exact Axis.within_of_indexOf? hIndex

end Scope

end JointMax
