import Mathlib
import JointMax.Proofs.Joins
import JointMax.Proofs.MarginalAlgebra

/-
  Conditioning and combination change places. The operands of
  a combination can be conditioned before they are combined,
  even where one of them has fewer of the fixed variables, or
  none, and where their scopes become equal or nested only
  because variables are fixed.

  Main declarations:
    * `Table.Combined.sliced_of_sliced`
    * `Table.fix?_combined_iff`
    * `Table.conditioning_interchanges`
-/

------------------------------------------------------------
-- Slices of Both Operands
------------------------------------------------------------

namespace JointMax

namespace Table

variable {α : Type} [Scalar α]
variable {op : α → α → α}
variable {left right joined first second result : Table α}
variable {choice : VarId → Option Nat}

theorem Combined.admits_iff
    (hCombined : Combined op left right joined)
    {joint : VarId → Nat} :
    joined.scope.Admits joint ↔
      left.scope.Admits joint ∧ right.scope.Admits joint := by
  simp only [Scope.Admits, hCombined.axes, or_imp, forall_and]

/- Digits are in range of a union if they are in both scopes. -/
theorem Combined.accepts_iff
    (hCombined : Combined op left right joined) :
    joined.scope.Accepts choice ↔
      left.scope.Accepts choice ∧
        right.scope.Accepts choice := by
  simp only [Scope.Accepts, hCombined.axes, or_imp,
    forall_and]

theorem Sliced.le
    (hSliced : left.Sliced choice first) :
    first.scope ≤ left.scope :=
  Scope.le_iff.mpr fun axis hAxis =>
    ((hSliced.axes axis).mp hAxis).1

/- The combination of two slices is a slice. -/
theorem Combined.sliced_of_sliced
    (hJoined : Combined op left right joined)
    (hFirst : left.Sliced choice first)
    (hSecond : right.Sliced choice second)
    (hResult : Combined op first second result) :
    joined.Sliced choice result := by
  have hInside : ∀ rest, result.scope.Admits rest →
      joined.scope.Admits (completed choice rest) := by
    intro rest hRest
    rcases hResult.admits_iff.mp hRest with
      ⟨hLeft, hRight⟩
    exact hJoined.admits_iff.mpr
      ⟨hFirst.inside rest hLeft, hSecond.inside rest hRight⟩
  constructor
  · intro axis
    rw [hResult.axes, hFirst.axes, hSecond.axes,
      hJoined.axes, or_and_right]
  · exact hInside
  · intro rest hRest
    rcases hResult.admits_iff.mp hRest with
      ⟨hLeft, hRight⟩
    rw [hResult.eval hRest, hJoined.eval (hInside rest hRest),
      hFirst.values rest hLeft, hSecond.values rest hRight]

/- Slices have no sizes that their tables do not have. -/
theorem exists_combined_of_sliced
    (hJoined : Combined op left right joined)
    (hFirst : left.Sliced choice first)
    (hSecond : right.Sliced choice second) :
    ∃ result,
      zipWith? op first second = .ok result ∧
        Combined op first second result := by
  rcases Scope.includes_of_union? hJoined.union with
    ⟨hLeft, hRight⟩
  exact zipWith?_of_compatible op
    (Scope.compatible_of_le (hFirst.le.trans hLeft)
      (hSecond.le.trans hRight))

end Table

end JointMax

------------------------------------------------------------
-- Conditioning before Combination
------------------------------------------------------------

namespace JointMax

namespace Table

variable {α : Type} [Scalar α]
variable {op : α → α → α}
variable {left right joined first second result : Table α}
variable {fixing : Fixing}

/- Where the union is conditioned, both operands can be. -/
theorem exists_fix?_combined
    (hJoined : Combined op left right joined)
    (hAccepts : joined.scope.Accepts fixing.choice) :
    ∃ first second result,
      left.fix? fixing = .ok first ∧
      right.fix? fixing = .ok second ∧
      zipWith? op first second = .ok result ∧
      joined.fix? fixing = .ok result := by
  rcases hJoined.accepts_iff.mp hAccepts with
    ⟨hLeft, hRight⟩
  rcases exists_fix?_iff.mpr hLeft with ⟨first, hFirst⟩
  rcases exists_fix?_iff.mpr hRight with ⟨second, hSecond⟩
  have hFirstSliced := sliced_of_fix? hFirst
  have hSecondSliced := sliced_of_fix? hSecond
  rcases exists_combined_of_sliced hJoined hFirstSliced
      hSecondSliced with
    ⟨result, hResult, hCombined⟩
  exact ⟨first, second, result, hFirst, hSecond, hResult,
    fix?_eq_ok_iff.mpr
      (hJoined.sliced_of_sliced hFirstSliced hSecondSliced
        hCombined)⟩

/- Both orders succeed together, with one result. -/
theorem fix?_combined_iff
    (hJoined : Combined op left right joined) :
    joined.fix? fixing = .ok result ↔
      (do
        let first ← left.fix? fixing
        let second ← right.fix? fixing
        zipWith? op first second) = .ok result := by
  constructor
  · intro hResult
    rcases exists_fix?_combined hJoined
        (exists_fix?_iff.mp ⟨result, hResult⟩) with
      ⟨first, second, other, hFirst, hSecond, hOther, hSame⟩
    rw [hFirst, ← hResult, hSame, ← hOther]
    change (right.fix? fixing >>= zipWith? op first) = _
    rw [hSecond]
    rfl
  · intro hParts
    rcases exists_of_bind_eq_ok hParts with
      ⟨first, hFirst, hRest⟩
    rcases exists_of_bind_eq_ok hRest with
      ⟨second, hSecond, hResult⟩
    have hAccepts : joined.scope.Accepts fixing.choice :=
      hJoined.accepts_iff.mpr
        ⟨exists_fix?_iff.mp ⟨first, hFirst⟩,
          exists_fix?_iff.mp ⟨second, hSecond⟩⟩
    rcases exists_fix?_combined hJoined hAccepts with
      ⟨_, _, other, hLeft, hRight, hOther, hSame⟩
    cases hFirst.symm.trans hLeft
    cases hSecond.symm.trans hRight
    cases hResult.symm.trans hOther
    exact hSame

end Table

end JointMax

------------------------------------------------------------
-- The Interchange
------------------------------------------------------------

namespace JointMax

namespace Guarded

variable {α : Type} [Scalar α]
variable {left right result : Table α}

theorem condition_of_fix?
    {fixing : Fixing}
    (hWords : left.scope.count < wordLimit)
    (hResult : left.fix? fixing = .ok result) :
    condition left fixing.condition = some (.ok result) := by
  rw [condition_eq hWords, ← Table.fix?_eq_meet?, hResult]

theorem zipWith_of_zipWith?
    {op : α → α → α}
    (hWords : result.scope.count < wordLimit)
    (hResult : Table.zipWith? op left right = .ok result) :
    zipWith op left right = some (.ok result) := by
  rw [zipWith_eq op ?_, hResult]
  intro union hUnion
  rw [Table.scope_of_zipWith? hResult] at hUnion
  cases hUnion
  exact hWords

end Guarded

namespace Table

variable {α : Type} [Scalar α]

/-
  Combining two tables whose scopes fit each other and then
  fixing variables, or fixing them in both tables and then
  combining, gives one and the same table. The digits have to
  be in range of the union. If they are not, both orders are
  refused. The loops over the cells do the same.
-/
theorem conditioning_interchanges
    (op : α → α → α)
    {left right : Table α}
    (hCompatible : left.scope.Compatible right.scope) :
    ∃ joined,
      zipWith? op left right = .ok joined ∧
      Combined op left right joined ∧
      ∀ fixing : Fixing,
        (joined.scope.Accepts fixing.choice →
          ∃ first second result,
            left.fix? fixing = .ok first ∧
            right.fix? fixing = .ok second ∧
            zipWith? op first second = .ok result ∧
            joined.fix? fixing = .ok result ∧
            (joined.scope.count < wordLimit →
              Guarded.zipWith op left right =
                some (.ok joined) ∧
              Guarded.condition joined fixing.condition =
                some (.ok result) ∧
              Guarded.condition left fixing.condition =
                some (.ok first) ∧
              Guarded.condition right fixing.condition =
                some (.ok second) ∧
              Guarded.zipWith op first second =
                some (.ok result))) ∧
        ∀ result,
          joined.fix? fixing = .ok result ↔
            (do
              let first ← left.fix? fixing
              let second ← right.fix? fixing
              zipWith? op first second) = .ok result := by
  rcases zipWith?_of_compatible op hCompatible with
    ⟨joined, hJoined, hCombined⟩
  refine ⟨joined, hJoined, hCombined, fun fixing =>
    ⟨?_, fun result => fix?_combined_iff hCombined⟩⟩
  intro hAccepts
  rcases exists_fix?_combined hCombined hAccepts with
    ⟨first, second, result, hFirst, hSecond, hResult, hFixed⟩
  refine ⟨first, second, result, hFirst, hSecond, hResult,
    hFixed, fun hWords => ?_⟩
  have hBelow : ∀ scope ≤ joined.scope,
      scope.count < wordLimit :=
    fun _ hScope =>
      (Scope.count_le_of_includes hScope).trans_lt hWords
  have hPart := hBelow _ (sliced_of_fix? hFixed).le
  rcases Scope.includes_of_union? hCombined.union with
    ⟨hLeft, hRight⟩
  exact ⟨Guarded.zipWith_of_zipWith? hWords hJoined,
    Guarded.condition_of_fix? hWords hFixed,
    Guarded.condition_of_fix? (hBelow _ hLeft) hFirst,
    Guarded.condition_of_fix? (hBelow _ hRight) hSecond,
    Guarded.zipWith_of_zipWith? hPart hResult⟩

/-
  With one variable of each table fixed, the scope of charges
  is a part of the scope of heights. The last digit is for a
  variable that neither of them has.
-/
theorem conditioning_interchanges_charges :
    heights.scope.Compatible charges.scope ∧
    ∃ joined first second result,
      zipWith? (· + ·) heights charges = .ok joined ∧
      heights.condition? [1, 2, 4] [1, 0, 7] = .ok first ∧
      charges.condition? [1, 2, 4] [1, 0, 7] = .ok second ∧
      zipWith? (· + ·) first second = .ok result ∧
      joined.condition? [1, 2, 4] [1, 0, 7] = .ok result ∧
      result.values = #[1, 6, 9, 11] := by
  have hCompatible :
      heights.scope.Compatible charges.scope := by
    unfold Scope.Compatible
    decide
  let fixing : Fixing :=
    .listed [1, 2, 4] [1, 0, 7] (by decide) rfl
  rcases conditioning_interchanges (· + ·) hCompatible with
    ⟨joined, hJoined, hCombined, hFixing⟩
  have hAccepts : joined.scope.Accepts fixing.choice :=
    hCombined.accepts_iff.mpr
      ⟨exists_fix?_iff.mp ⟨_, rfl⟩,
        exists_fix?_iff.mp ⟨_, rfl⟩⟩
  rcases (hFixing fixing).1 hAccepts with
    ⟨first, second, result, hFirst, hSecond, hResult,
      hFixed, _⟩
  have hValues :
      (do
        let first ← heights.fix? fixing
        let second ← charges.fix? fixing
        zipWith? (· + ·) first second).map Table.values =
        .ok #[1, 6, 9, 11] := by
    decide +kernel
  rw [((hFixing fixing).2 result).mp hFixed] at hValues
  exact ⟨hCompatible, joined, first, second, result, hJoined,
    hFirst, hSecond, hResult, hFixed, Except.ok.inj hValues⟩

/-
  Where a shared variable has two sizes, only the second order
  may succeed, as the variable can be fixed in both tables.
-/
example :
    let left : Table Rat :=
      ⟨⟨[⟨2, 2, by decide⟩, ⟨5, 2, by decide⟩], by decide⟩,
        #[1, 2, 3, 4], rfl⟩
    let right : Table Rat :=
      ⟨⟨[⟨5, 3, by decide⟩], by decide⟩, #[1, 2, 3], rfl⟩
    zipWith? (· + ·) left right =
        .error (.badScope (.unionConflict 5 2 3)) ∧
      (do
        let first ← left.condition? [5] [1]
        let second ← right.condition? [5] [1]
        zipWith? (· + ·) first second).map Table.values =
        .ok #[5, 6] := by
  decide +kernel

end Table

end JointMax
