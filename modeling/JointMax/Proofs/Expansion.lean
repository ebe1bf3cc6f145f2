import Mathlib
import JointMax.Proofs.Folds
import JointMax.Proofs.Joins

/-
  Expansion of tables. An expanded table has further
  variables, but its values do not depend on them. So it does
  not matter in how many steps or in which order variables
  are added, and the table is got back when they are fixed
  at any digits.

  Main declarations:
    * `Table.Extended`, with `Table.Extended.unique` and
      `Table.Extended.trans`
    * `Table.expand?_eq_ok_iff` and `Table.expand?_twice`
    * `Scope.Supplies` and `Table.Extended.sliced`
    * `Table.Expandable` and `Table.expandable`
-/

------------------------------------------------------------
-- Tables over More Variables
------------------------------------------------------------

namespace JointMax

namespace Table

variable {α : Type} [Scalar α]
variable {table next result other : Table α}

/-
  A table over more variables. At a joint value it has the
  value of the first table at any choice that agrees with the
  joint value on the variables of that table.
-/
structure Extended (table result : Table α) : Prop where
  includes : result.scope.includes table.scope = true
  values :
    ∀ joint own,
      result.scope.Admits joint →
        table.scope.Agree joint own →
          result.eval joint = table.eval own

theorem Extended.eval
    (hExtended : table.Extended result)
    {joint : VarId → Nat}
    (hAdmits : result.scope.Admits joint) :
    result.eval joint = table.eval joint :=
  hExtended.values joint joint hAdmits fun _ _ => rfl

theorem Extended.of_eval
    (hIncludes : result.scope.includes table.scope = true)
    (hEval : ∀ joint, result.scope.Admits joint →
      result.eval joint = table.eval joint) :
    table.Extended result where
  includes := hIncludes
  values := by
    intro joint own hAdmits hAgree
    rw [hEval joint hAdmits, eval_congr hAgree]

theorem Extended.refl (table : Table α) :
    table.Extended table :=
  .of_eval (Scope.includes_self _) fun _ _ => rfl

theorem Extended.trans
    (hFirst : table.Extended next)
    (hSecond : next.Extended result) :
    table.Extended result := by
  apply Extended.of_eval
  · exact Scope.includes_trans hFirst.includes
      hSecond.includes
  · intro joint hAdmits
    rw [hSecond.eval hAdmits,
      hFirst.eval (hAdmits.of_includes hSecond.includes)]

/- The smaller of two expansions expands to the larger. -/
theorem Extended.between
    (hNext : table.Extended next)
    (hResult : table.Extended result)
    (hIncludes : result.scope.includes next.scope = true) :
    next.Extended result := by
  apply Extended.of_eval hIncludes
  intro joint hAdmits
  rw [hResult.eval hAdmits,
    hNext.eval (hAdmits.of_includes hIncludes)]

/- A table has one expansion to a scope at most. -/
theorem Extended.unique
    (hFirst : table.Extended result)
    (hSecond : table.Extended other)
    (hScope : result.scope = other.scope) :
    result = other := by
  apply ext_eval hScope
  intro joint hAdmits
  rw [hFirst.eval hAdmits, hSecond.eval (hScope ▸ hAdmits)]

theorem extended_broadcast
    {target : Scope}
    (hIncludes : target.includes table.scope = true) :
    table.Extended (table.broadcast target) := by
  apply Extended.of_eval hIncludes
  intro joint hAdmits
  change target.Admits joint at hAdmits
  rw [broadcast, eval_tabulate hAdmits, along_map hIncludes]

end Table

end JointMax

------------------------------------------------------------
-- Expansion in One and in Two Steps
------------------------------------------------------------

namespace JointMax

namespace Table

variable {α : Type} [Scalar α]
variable {table result : Table α}
variable {scope first second : Scope}

theorem extended_of_expand?
    (hResult : table.expand? scope = .ok result) :
    table.Extended result := by
  rcases exists_of_map_eq_ok hResult with
    ⟨union, hUnion, hMade⟩
  split at hMade
  · rw [← hMade]
    exact Extended.refl table
  · rw [← hMade]
    exact extended_broadcast
      (Scope.includes_of_union? hUnion).1

/- Expansion gives the one table over the union. -/
theorem expand?_eq_ok_iff :
    table.expand? scope = .ok result ↔
      table.scope.union? scope = .ok result.scope ∧
        table.Extended result := by
  constructor
  · intro hResult
    exact ⟨scope_of_expand? hResult,
      extended_of_expand? hResult⟩
  · rintro ⟨hUnion, hExtended⟩
    have hMade : ∃ made, table.expand? scope = .ok made := by
      rw [expand?, hUnion]
      exact ⟨_, rfl⟩
    rcases hMade with ⟨made, hMade⟩
    have hScope : made.scope = result.scope :=
      Except.ok.inj ((scope_of_expand? hMade).symm.trans hUnion)
    rw [hMade, (extended_of_expand? hMade).unique hExtended
      hScope]

theorem exists_expand?_iff :
    (∃ result, table.expand? scope = .ok result) ↔
      table.scope.Compatible scope := by
  rw [← Scope.exists_union?_iff]
  constructor
  · rintro ⟨result, hResult⟩
    exact ⟨result.scope, scope_of_expand? hResult⟩
  · rintro ⟨union, hUnion⟩
    rw [expand?, hUnion]
    exact ⟨_, rfl⟩

theorem expand?_of_includes
    (hIncludes : table.scope.includes scope = true) :
    table.expand? scope = .ok table :=
  expand?_eq_ok_iff.mpr
    ⟨Scope.union?_of_includes hIncludes,
      Extended.refl table⟩

/- Two steps lead to the least scope that includes all. -/
theorem expand?_twice :
    (do
      let next ← table.expand? first
      next.expand? second) = .ok result ↔
      IsLUB {table.scope, first, second} result.scope ∧
        table.Extended result := by
  rw [← Scope.union?_left_eq_ok_iff]
  constructor
  · intro hTwice
    rcases exists_of_bind_eq_ok hTwice with
      ⟨next, hNext, hResult⟩
    rcases expand?_eq_ok_iff.mp hNext with
      ⟨hEarly, hFirst⟩
    rcases expand?_eq_ok_iff.mp hResult with
      ⟨hLate, hSecond⟩
    refine ⟨?_, hFirst.trans hSecond⟩
    rw [hEarly]
    exact hLate
  · rintro ⟨hUnions, hExtended⟩
    rcases exists_of_bind_eq_ok hUnions with
      ⟨early, hEarly, hLate⟩
    rcases exists_expand?_iff.mpr
        (Scope.exists_union?_iff.mp ⟨early, hEarly⟩) with
      ⟨next, hNext⟩
    have hScope : early = next.scope :=
      Except.ok.inj
        (hEarly.symm.trans (scope_of_expand? hNext))
    rw [hScope] at hLate
    rw [hNext]
    exact expand?_eq_ok_iff.mpr
      ⟨hLate, (extended_of_expand? hNext).between hExtended
        (Scope.includes_of_union? hLate).1⟩

/- So does one step, if the union is formed before. -/
theorem expand?_union :
    (do
      let both ← first.union? second
      table.expand? both) = .ok result ↔
      IsLUB {table.scope, first, second} result.scope ∧
        table.Extended result := by
  rw [← Scope.union?_right_eq_ok_iff]
  cases first.union? second with
  | error fault =>
      refine iff_of_false ?_ ?_
      · rintro ⟨⟩
      · rintro ⟨⟨⟩, _⟩
  | ok both => exact expand?_eq_ok_iff

/- Scopes that fit each other can be added in any way. -/
theorem exists_expand?_both
    (hFirst : table.scope.Compatible first)
    (hSecond : table.scope.Compatible second)
    (hBoth : first.Compatible second) :
    ∃ result,
      IsLUB {table.scope, first, second} result.scope ∧
        table.Extended result := by
  rcases Scope.exists_union?_iff.mpr hFirst with
    ⟨early, hEarly⟩
  rcases Scope.exists_union?_iff.mpr
      (hSecond.of_union? hEarly hBoth) with
    ⟨union, hUnion⟩
  have hLeast :
      IsLUB {table.scope, first, second} union := by
    rw [← Scope.union?_left_eq_ok_iff, hEarly]
    exact hUnion
  exact ⟨table.broadcast union, hLeast,
    extended_broadcast (hLeast.1 (by simp))⟩

end Table

end JointMax

------------------------------------------------------------
-- The Way Back
------------------------------------------------------------

namespace JointMax

namespace Scope

/- The axes of the variables that another scope lacks. -/
def beyond (wide narrow : Scope) : Scope :=
  wide.filter fun var => !narrow.contains var

/-
  Digits in range for the variables that a scope lacks of a
  wider one, and none for its own variables.
-/
structure Supplies
    (narrow wide : Scope)
    (choice : VarId → Option Nat) : Prop where
  own : ∀ var ∈ narrow.vars, choice var = none
  added :
    ∀ axis ∈ wide.axes, axis.var ∉ narrow.vars →
      ∃ digit,
        choice axis.var = some digit ∧ digit < axis.size

variable {narrow wide : Scope}

theorem mem_axes_beyond {axis : Axis} :
    axis ∈ (wide.beyond narrow).axes ↔
      axis ∈ wide.axes ∧ axis.var ∉ narrow.vars := by
  simp [beyond, filter, contains]

/- A list of digits for all the added variables will do. -/
theorem supplies_beyond
    {digits : List Nat}
    (hWithin :
      MixedRadix.Within (wide.beyond narrow).sizes digits) :
    narrow.Supplies wide
      (aligned (wide.beyond narrow).vars digits) := by
  rcases exists_choice_of_within hWithin with
    ⟨choice, hAdmits, rfl⟩
  constructor
  · intro var hVar
    apply aligned_of_not_mem
    intro hAdded
    rcases mem_vars_iff.mp hAdded with ⟨axis, hAxis, rfl⟩
    exact (mem_axes_beyond.mp hAxis).2 hVar
  · intro axis hAxis hOutside
    have hAdded := mem_axes_beyond.mpr ⟨hAxis, hOutside⟩
    exact ⟨choice axis.var,
      aligned_vars choice (mem_vars hAdded),
      hAdmits axis hAdded⟩

end Scope

namespace Table

variable {α : Type} [Scalar α]
variable {table result : Table α}

/- A table is a slice of its expansion at any such digits. -/
theorem Extended.sliced
    (hExtended : table.Extended result)
    {choice : VarId → Option Nat}
    (hSupplies :
      table.scope.Supplies result.scope choice) :
    result.Sliced choice table := by
  have hOwn : ∀ axis ∈ result.scope.axes,
      axis.var ∈ table.vars → axis ∈ table.scope.axes :=
    fun _ => Scope.mem_axes_of_includes hExtended.includes
  have hAxes : ∀ axis,
      axis ∈ table.scope.axes ↔
        axis ∈ result.scope.axes ∧
          choice axis.var = none := by
    intro axis
    constructor
    · intro hAxis
      exact
        ⟨Scope.includes_iff.mp hExtended.includes axis hAxis,
          hSupplies.own axis.var (Scope.mem_vars hAxis)⟩
    · rintro ⟨hAxis, hNone⟩
      by_contra hAdded
      rcases hSupplies.added axis hAxis
          (mt (hOwn axis hAxis) hAdded) with
        ⟨digit, hDigit, _⟩
      rw [hNone] at hDigit
      cases hDigit
  have hInside : ∀ rest, table.scope.Admits rest →
      result.scope.Admits (completed choice rest) := by
    intro rest hAdmits axis hAxis
    by_cases hVar : axis.var ∈ table.vars
    · rw [completed_of_eq_none (hSupplies.own axis.var hVar)]
      exact hAdmits axis (hOwn axis hAxis hVar)
    · rcases hSupplies.added axis hAxis hVar with
        ⟨digit, hDigit, hBelow⟩
      rwa [completed_of_eq_some hDigit]
  refine ⟨hAxes, hInside, ?_⟩
  intro rest hAdmits
  symm
  apply hExtended.values _ _ (hInside rest hAdmits)
  intro var hVar
  exact completed_of_eq_none (hSupplies.own var hVar) rest

/- Fixing what was added undoes an expansion. -/
theorem fix?_of_expand?
    {scope : Scope}
    {fixing : Fixing}
    (hResult : table.expand? scope = .ok result)
    (hSupplies :
      table.scope.Supplies result.scope fixing.choice) :
    result.fix? fixing = .ok table :=
  fix?_eq_ok_iff.mpr
    ((extended_of_expand? hResult).sliced hSupplies)

end Table

end JointMax

------------------------------------------------------------
-- All of Expansion
------------------------------------------------------------

namespace JointMax

namespace Table

variable {α : Type} [Scalar α]

/-
  What expansion does to a table. It succeeds just if no
  shared variable has two sizes, and puts the table over the
  union into the place of the table. Otherwise the clash is
  named, and the table stays as it is. Scopes can be added
  one by one, in either order, or together. What is included
  adds nothing. Fixing all that was added gives the table
  back. The program that changes the table in its place and
  the loop that copies the values cell by cell do the same.
-/
structure Expandable (table : Table α) : Prop where
  accepted : ∀ scope,
    table.scope.Compatible scope →
      ∃ result,
        table.inPlace (table.expand? scope) =
            (result, none) ∧
          table.scope.union? scope = .ok result.scope ∧
          table.Extended result
  refused : ∀ scope,
    ¬ table.scope.Compatible scope →
      ∃ mine ∈ table.scope.axes, ∃ yours ∈ scope.axes,
        mine.var = yours.var ∧ mine.size ≠ yours.size ∧
          table.inPlace (table.expand? scope) =
            (table, some (.badScope
              (.unionConflict yours.var mine.size
                yours.size)))
  unique : ∀ result other : Table α,
    table.Extended result → table.Extended other →
      result.scope = other.scope → result = other
  ordered : ∀ first second,
    table.scope.Compatible first →
      table.scope.Compatible second →
        first.Compatible second →
          ∃ both result,
            first.union? second = .ok both ∧
            table.expand? both = .ok result ∧
            (do
              let next ← table.expand? first
              next.expand? second) = .ok result ∧
            (do
              let next ← table.expand? second
              next.expand? first) = .ok result
  settled : ∀ scope result,
    table.expand? scope = .ok result →
      ∀ other, result.scope.includes other = true →
        result.inPlace (result.expand? other) = (result, none)
  undone : ∀ scope result fixing,
    table.expand? scope = .ok result →
      table.scope.Supplies result.scope fixing.choice →
        result.inPlace (result.fix? fixing) = (table, none)
  listed : ∀ scope result digits,
    table.expand? scope = .ok result →
      MixedRadix.Within
          (result.scope.beyond table.scope).sizes digits →
        result.condition?
            (result.scope.beyond table.scope).vars digits =
          .ok table
  walked : ∀ scope,
    (∀ union, table.scope.union? scope = .ok union →
      union.count < wordLimit) →
      Guarded.expand table scope =
        some (table.expand? scope)
  written : ∀ scope,
    InPlace.outcome (expandInPlace scope) table =
      InPlace.concluded table (table.expand? scope)

/- The new variable comes between the old ones. -/
example :
    let table : Table Rat :=
      ⟨⟨[⟨2, 2, by decide⟩, ⟨5, 2, by decide⟩], by decide⟩,
        #[1, 2, 3, 4], rfl⟩
    let scope : Scope := ⟨[⟨3, 2, by decide⟩], by decide⟩
    (table.expand? scope).map Table.values =
        .ok #[1, 2, 1, 2, 3, 4, 3, 4] ∧
      (do
        let next ← table.expand? scope
        next.condition? [3] [1]) = .ok table := by
  decide

end Table

end JointMax
