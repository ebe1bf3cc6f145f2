import Mathlib
import JointMax.Proofs.Pointwise
import JointMax.Proofs.TablesInPlace
import JointMax.Proofs.Unions
import JointMax.Table.Storage

/-
  Combinations of two tables. A combination over the union of
  two scopes is, at each joint value of the union, the
  combination of the two values there, and it does not matter
  which of the ways to it is taken: cell by cell, over a new
  scope, in place, or by an operator.

  Main declarations:
    * `Table.Combined` and `Table.Combined.unique`
    * `Table.zipInto?_eq_zipWith?`
    * `Storage.combined_of_admits`
    * `Table.inPlace`
    * `Table.combined_by_every_form`
-/

------------------------------------------------------------
-- Pointwise Combinations
------------------------------------------------------------

namespace JointMax

namespace Table

variable {α : Type} [Scalar α]

/-
  The combination of two tables. Its scope is the union of
  both scopes. At a joint value it combines the values of the
  two tables, each at any choice that agrees with the joint
  value on its own variables.
-/
structure Combined
    (op : α → α → α)
    (left right result : Table α) : Prop where
  union : left.scope.union? right.scope = .ok result.scope
  axes :
    ∀ axis,
      axis ∈ result.scope.axes ↔
        axis ∈ left.scope.axes ∨ axis ∈ right.scope.axes
  values :
    ∀ joint first second,
      result.scope.Admits joint →
        left.scope.Agree joint first →
          right.scope.Agree joint second →
            result.eval joint =
              op (left.eval first) (right.eval second)

theorem Combined.eval
    {op : α → α → α}
    {left right result : Table α}
    (hCombined : Combined op left right result)
    {joint : VarId → Nat}
    (hAdmits : result.scope.Admits joint) :
    result.eval joint =
      op (left.eval joint) (right.eval joint) :=
  hCombined.values joint joint joint hAdmits
    (fun _ _ => rfl) (fun _ _ => rfl)

/- There is one combination at most. -/
theorem Combined.unique
    {op : α → α → α}
    {left right first second : Table α}
    (hFirst : Combined op left right first)
    (hSecond : Combined op left right second) :
    first = second := by
  have hScope : first.scope = second.scope :=
    Except.ok.inj (hFirst.union.symm.trans hSecond.union)
  apply ext_eval hScope
  intro joint hAdmits
  have hSelf : ∀ scope : Scope, scope.Agree joint joint :=
    fun _ _ _ => rfl
  rw [hFirst.values joint joint joint hAdmits
      (hSelf _) (hSelf _),
    hSecond.values joint joint joint (hScope ▸ hAdmits)
      (hSelf _) (hSelf _)]

/-
  It is enough to compare values at the joint value itself,
  as a table reads its own variables only.
-/
theorem Combined.of_eval
    {op : α → α → α}
    {left right result : Table α}
    (hAxes :
      ∀ axis,
        axis ∈ result.scope.axes ↔
          axis ∈ left.scope.axes ∨
            axis ∈ right.scope.axes)
    (hUnion :
      left.scope.union? right.scope = .ok result.scope)
    (hEval :
      ∀ joint, result.scope.Admits joint →
        result.eval joint =
          op (left.eval joint) (right.eval joint)) :
    Combined op left right result where
  union := hUnion
  axes := hAxes
  values := by
    intro joint first second hAdmits hLeft hRight
    rw [hEval joint hAdmits, eval_congr hLeft,
      eval_congr hRight]

/- Over an included scope, the union is the scope itself. -/
theorem Combined.of_includes
    {op : α → α → α}
    {left right result : Table α}
    (hIncludes : left.scope.includes right.scope = true)
    (hScope : result.scope = left.scope)
    (hEval :
      ∀ joint, left.scope.Admits joint →
        result.eval joint =
          op (left.eval joint) (right.eval joint)) :
    Combined op left right result := by
  apply Combined.of_eval
  · intro axis
    rw [hScope]
    exact (or_iff_left_of_imp
      (Scope.includes_iff.mp hIncludes axis)).symm
  · rw [hScope]
    exact Scope.union?_of_includes hIncludes
  · rw [hScope]
    exact hEval

end Table

end JointMax

------------------------------------------------------------
-- The Two Ways of Combination
------------------------------------------------------------

namespace JointMax

namespace Table

variable {α : Type} [Scalar α]
variable (op : α → α → α)
variable {left right : Table α}

/- Tables over compatible scopes have a combination. -/
theorem zipWith?_of_compatible
    (hCompatible : left.scope.Compatible right.scope) :
    ∃ result,
      zipWith? op left right = .ok result ∧
        Combined op left right result := by
  by_cases hScope : left.scope = right.scope
  · refine ⟨zipCells op left right hScope, ?_, ?_⟩
    · simp [zipWith?, hScope]
    · exact Combined.of_includes
        (Scope.includes_of_eq hScope) rfl
        fun joint hAdmits => eval_zipCells hScope hAdmits
  · rcases Scope.union?_of_compatible hCompatible with
      ⟨union, hUnion, hAxes⟩
    have hLeft : union.includes left.scope = true :=
      Scope.includes_iff.mpr fun axis hAxis =>
        (hAxes axis).mpr (.inl hAxis)
    have hRight : union.includes right.scope = true :=
      Scope.includes_iff.mpr fun axis hAxis =>
        (hAxes axis).mpr (.inr hAxis)
    refine ⟨tabulate union fun digits =>
      op (left.along union.vars digits)
        (right.along union.vars digits), ?_, ?_⟩
    · simp only [zipWith?, hScope, hUnion, dif_neg,
        not_false_eq_true]
      rfl
    · apply Combined.of_eval hAxes hUnion
      intro joint hAdmits
      change union.Admits joint at hAdmits
      rw [eval_tabulate hAdmits, along_map hLeft,
        along_map hRight]

/- Tables over other scopes have none. -/
theorem zipWith?_of_not_compatible
    (hClash : ¬ left.scope.Compatible right.scope) :
    ∃ mine ∈ left.scope.axes,
      ∃ other ∈ right.scope.axes,
        mine.var = other.var ∧ mine.size ≠ other.size ∧
          zipWith? op left right =
            .error (.badScope
              (.unionConflict other.var mine.size
                other.size)) := by
  rcases Scope.union?_of_not_compatible hClash with
    ⟨mine, hMine, other, hOther, hVar, hSize, hRefused⟩
  refine ⟨mine, hMine, other, hOther, hVar, hSize, ?_⟩
  have hScope : left.scope ≠ right.scope := fun hScope =>
    hClash (Scope.compatible_of_includes
      (Scope.includes_of_eq hScope))
  simp only [zipWith?, hScope, hRefused, dif_neg,
    not_false_eq_true]
  rfl

/- The way in place is a shorter way to the same table. -/
theorem zipInto?_eq_zipWith? (left right : Table α) :
    zipInto? op left right = zipWith? op left right := by
  by_cases hIncludes :
      left.scope.includes right.scope = true
  · rcases zipWith?_of_compatible op
        (Scope.compatible_of_includes hIncludes) with
      ⟨result, hResult, hCombined⟩
    rcases zipInto?_of_includes op hIncludes with
      ⟨other, hOther, hScope, hEval⟩
    rw [hResult, hOther,
      hCombined.unique
        (Combined.of_includes hIncludes hScope hEval)]
  · have hScope : left.scope ≠ right.scope := fun hScope =>
      hIncludes (Scope.includes_of_eq hScope)
    simp [zipInto?, hScope, hIncludes]

end Table

end JointMax

------------------------------------------------------------
-- Combinations within Storage
------------------------------------------------------------

namespace JointMax

namespace Storage

/- A scope that can be stored is no reason to refuse. -/
theorem within_of_admits
    {ε β : Type}
    {scope : Except Fault Scope}
    (hFits : ∀ found, scope = .ok found →
      admits found = true)
    (make : Unit → Except ε β) :
    within scope make = (make ()).mapError .refused := by
  cases scope with
  | error fault => rfl
  | ok found =>
      simp only [within, hFits found rfl, if_pos]

variable {α : Type} [Scalar α]

/-
  Where the union can be stored, or there is none, the stored
  forms are the forms on tables.
-/
theorem combined_of_admits
    (op : α → α → α)
    {left right : Table α}
    (hFits : ∀ union,
      left.scope.union? right.scope = .ok union →
        admits union = true) :
    zipWith? op left right =
        (Table.zipWith? op left right).mapError .refused ∧
      zipInto? op left right =
        (Table.zipInto? op left right).mapError .refused ∧
      ∀ sign : Op,
        combine? sign left right =
            (Table.combine? sign left right).mapError
              .refused ∧
          combineInto? sign left right =
            (Table.combineInto? sign left right).mapError
              .refused :=
  ⟨within_of_admits hFits _, within_of_admits hFits _,
    fun _ => ⟨within_of_admits hFits _,
      within_of_admits hFits _⟩⟩

end Storage

end JointMax

------------------------------------------------------------
-- Every Form of Combination
------------------------------------------------------------

namespace JointMax

namespace Table

variable {α : Type}

/-
  What stands in the place of a table after an operation on
  it, and why the operation was refused, if it was. The
  programs that write cell by cell come to the same end.
-/
def inPlace {ε : Type} (table : Table α) :
    Except ε (Table α) → Table α × Option ε
  | .ok result => (result, none)
  | .error cause => (table, some cause)

variable [Scalar α]

/-
  All forms of a combination agree. Where no shared variable
  has two sizes, they give the combination of the two tables.
  Where one has, they are refused by its name and sizes, and
  the form in place changes nothing. Written cell by cell,
  that form does the same. Within the bounds of storage, so do
  the stored forms.
-/
theorem combined_by_every_form
    (op : α → α → α)
    (left right : Table α) :
    (left.scope.Compatible right.scope →
      ∃ result,
        Combined op left right result ∧
        zipWith? op left right = .ok result ∧
        left.inPlace (zipInto? op left right) =
          (result, none) ∧
        ∀ sign : Op, op = sign.apply →
          combine? sign left right = .ok result ∧
          combineInto? sign left right = .ok result) ∧
    (¬ left.scope.Compatible right.scope →
      ∃ mine ∈ left.scope.axes,
        ∃ other ∈ right.scope.axes, ∃ clash,
          mine.var = other.var ∧ mine.size ≠ other.size ∧
          clash =
            .badScope
              (.unionConflict other.var mine.size
                other.size) ∧
          zipWith? op left right = .error clash ∧
          left.inPlace (zipInto? op left right) =
            (left, some clash) ∧
          ∀ sign : Op, op = sign.apply →
            combine? sign left right = .error ⟨clash⟩ ∧
            combineInto? sign left right =
              .error ⟨clash⟩) ∧
    InPlace.outcome (zipInPlace op right) left =
      InPlace.concluded left (zipInto? op left right) ∧
    ((∀ union, left.scope.union? right.scope = .ok union →
        Storage.admits union = true) →
      Storage.zipWith? op left right =
          (zipWith? op left right).mapError .refused ∧
        Storage.zipInto? op left right =
          (zipInto? op left right).mapError .refused ∧
        ∀ sign : Op,
          Storage.combine? sign left right =
              (combine? sign left right).mapError .refused ∧
            Storage.combineInto? sign left right =
              (combineInto? sign left right).mapError
                .refused) := by
  have hSame := zipInto?_eq_zipWith? op left right
  refine ⟨?_, ?_, outcome_zipInPlace op right left,
    Storage.combined_of_admits op⟩
  · intro hCompatible
    rcases zipWith?_of_compatible op hCompatible with
      ⟨result, hResult, hCombined⟩
    refine ⟨result, hCombined, hResult, ?_, ?_⟩
    · rw [hSame, hResult]
      rfl
    · intro sign hSign
      subst hSign
      simp only [combine?, combineInto?, hSame, hResult]
      exact ⟨rfl, rfl⟩
  · intro hClash
    rcases zipWith?_of_not_compatible op hClash with
      ⟨mine, hMine, other, hOther, hVar, hSize, hRefused⟩
    refine ⟨mine, hMine, other, hOther, _, hVar, hSize,
      rfl, hRefused, ?_, ?_⟩
    · rw [hSame, hRefused]
      rfl
    · intro sign hSign
      subst hSign
      simp only [combine?, combineInto?, hSame, hRefused]
      exact ⟨rfl, rfl⟩

end Table

end JointMax
