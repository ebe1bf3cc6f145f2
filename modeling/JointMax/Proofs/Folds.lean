import Mathlib
import JointMax.Proofs.Conditioning
import JointMax.Proofs.GuardedSlices
import JointMax.Proofs.Precedence
import JointMax.Proofs.Slices

/-
  Marginals and conditioning see the same slices. The values
  of the table that is left when the variables of a scope are
  fixed are, in their order, the values that one pass of a
  marginal folds into the cell of those digits. A slice has
  its share of the values, so that the mean of a slice is its
  sum in order, divided by how many values it has.

  Main declarations:
    * `Scope.only`, a choice on the scope's own variables
    * `Table.Sliced.map_number` and `Table.Sliced.toList_values`
    * `Table.Sliced.size_mul`
    * `Table.FoldsSlices` and `Table.marginal_folds_slices`
-/

------------------------------------------------------------
-- Choices on One Scope
------------------------------------------------------------

namespace JointMax

namespace Scope

/- The digits of a choice, for the variables of the scope. -/
def only
    (scope : Scope)
    (choice : VarId → Nat) : VarId → Option Nat :=
  aligned scope.vars (scope.vars.map choice)

variable {scope : Scope}

theorem only_of_mem
    {var : VarId}
    (hVar : var ∈ scope.vars)
    (choice : VarId → Nat) :
    scope.only choice var = some (choice var) :=
  aligned_vars choice hVar

theorem only_eq_none_iff
    {choice : VarId → Nat}
    {var : VarId} :
    scope.only choice var = none ↔ var ∉ scope.vars := by
  constructor
  · intro hNone hVar
    rw [only_of_mem hVar] at hNone
    cases hNone
  · exact aligned_of_not_mem

theorem completed_only_of_mem
    {var : VarId}
    (hVar : var ∈ scope.vars)
    (choice rest : VarId → Nat) :
    completed (scope.only choice) rest var = choice var :=
  completed_of_eq_some (only_of_mem hVar choice) rest

theorem completed_only_of_not_mem
    {var : VarId}
    (hVar : var ∉ scope.vars)
    (choice rest : VarId → Nat) :
    completed (scope.only choice) rest var = rest var :=
  completed_of_eq_none (only_eq_none_iff.mpr hVar) rest

/- Digits in range are the digits of some choice. -/
theorem exists_choice_of_within
    {digits : List Nat}
    (hWithin : MixedRadix.Within scope.sizes digits) :
    ∃ choice,
      scope.Admits choice ∧ scope.vars.map choice = digits := by
  refine ⟨scope.revise (MixedRadix.encode scope.sizes digits)
    fun _ => 0, admits_revise (MixedRadix.encode_lt hWithin),
    ?_⟩
  rw [map_revise]
  exact MixedRadix.decode_encode hWithin

theorem nodup_axes (scope : Scope) : scope.axes.Nodup :=
  scope.nodup_vars.of_map Axis.var

end Scope

end JointMax

------------------------------------------------------------
-- Slices in Order
------------------------------------------------------------

namespace JointMax

namespace Table

variable {α : Type} [Scalar α]
variable {table slice : Table α}
variable {scope : Scope}
variable {choice : VarId → Nat}

namespace Sliced

/- A slice has the variables outside the scope. -/
theorem mem_axes
    (hSliced : table.Sliced (scope.only choice) slice)
    {axis : Axis} :
    axis ∈ slice.scope.axes ↔
      axis ∈ table.scope.axes ∧ axis.var ∉ scope.vars := by
  rw [hSliced.axes, Scope.only_eq_none_iff]

theorem mem_vars
    (hSliced : table.Sliced (scope.only choice) slice)
    {var : VarId} :
    var ∈ slice.vars ↔
      var ∈ table.vars ∧ var ∉ scope.vars := by
  constructor
  · intro hVar
    rcases Scope.mem_vars_iff.mp hVar with ⟨axis, hAxis, rfl⟩
    rcases hSliced.mem_axes.mp hAxis with
      ⟨hMember, hOutside⟩
    exact ⟨Scope.mem_vars hMember, hOutside⟩
  · rintro ⟨hVar, hOutside⟩
    rcases Scope.mem_vars_iff.mp hVar with ⟨axis, hAxis, rfl⟩
    exact Scope.mem_vars
      (hSliced.mem_axes.mpr ⟨hAxis, hOutside⟩)

theorem includes
    (hSliced : table.Sliced (scope.only choice) slice) :
    table.scope.includes slice.scope = true :=
  Scope.includes_iff.mpr fun _ hAxis =>
    (hSliced.mem_axes.mp hAxis).1

/- Numbers grow when the same digits are filled in. -/
theorem number_lt_number
    (hSliced : table.Sliced (scope.only choice) slice)
    {first second : VarId → Nat}
    (hFirst : slice.scope.Admits first)
    (hSecond : slice.scope.Admits second)
    (hLess :
      slice.scope.number first < slice.scope.number second) :
    table.scope.number
        (completed (scope.only choice) first) <
      table.scope.number
        (completed (scope.only choice) second) := by
  have hRest : ∀ rest : VarId → Nat,
      slice.scope.number
          (completed (scope.only choice) rest) =
        slice.scope.number rest := by
    intro rest
    apply Scope.number_congr
    intro var hVar
    exact Scope.completed_only_of_not_mem
      (hSliced.mem_vars.mp hVar).2 choice rest
  apply Scope.number_lt_number hSliced.includes
    (hSliced.inside first hFirst)
    (hSliced.inside second hSecond)
  · intro var hVar hOutside
    have hFixed : var ∈ scope.vars := by
      by_contra hFree
      exact hOutside (hSliced.mem_vars.mpr ⟨hVar, hFree⟩)
    rw [Scope.completed_only_of_mem hFixed,
      Scope.completed_only_of_mem hFixed]
  · rwa [hRest, hRest]

theorem pairwise_number
    (hSliced : table.Sliced (scope.only choice) slice) :
    (slice.scope.choices.map fun rest =>
      table.scope.number
        (completed (scope.only choice) rest)).Pairwise
      (· < ·) := by
  have hChoices :
      (slice.scope.choices.map slice.scope.number).Pairwise
        (· < ·) := by
    rw [Scope.map_number_choices]
    exact List.pairwise_lt_range
  rw [List.pairwise_map] at hChoices ⊢
  apply hChoices.imp_of_mem
  intro first second hFirst hSecond hLess
  exact hSliced.number_lt_number
    (Scope.admits_of_mem_choices hFirst)
    (Scope.admits_of_mem_choices hSecond) hLess

/-
  The joint values of a slice, completed, are in their order
  the places of the slice in the table.
-/
theorem map_number
    (hSliced : table.Sliced (scope.only choice) slice)
    (hIncludes : table.scope.includes scope = true) :
    slice.scope.choices.map (fun rest =>
        table.scope.number
          (completed (scope.only choice) rest)) =
      table.places scope choice := by
  have hPlaces :
      (table.places scope choice).Pairwise (· < ·) :=
    List.pairwise_lt_range.filter _
  apply hSliced.pairwise_number.eq_of_mem_iff hPlaces
  intro index
  constructor
  · intro hIndex
    rcases List.mem_map.mp hIndex with ⟨rest, hRest, rfl⟩
    apply number_mem_places hIncludes
      (hSliced.inside rest (Scope.admits_of_mem_choices hRest))
    intro var hVar
    exact Scope.completed_only_of_mem hVar choice rest
  · intro hIndex
    rcases mem_places.mp hIndex with ⟨hBelow, hAgree⟩
    let point := table.scope.revise index choice
    have hPoint : slice.scope.Admits point :=
      (Scope.admits_revise hBelow).of_includes
        hSliced.includes
    rcases Scope.exists_mem_choices hPoint with
      ⟨rest, hRest, hSame⟩
    refine List.mem_map.mpr ⟨rest, hRest, ?_⟩
    rw [← @Scope.number_revise table.scope index choice
      hBelow]
    apply Scope.number_congr
    intro var hVar
    by_cases hFixed : var ∈ scope.vars
    · rw [Scope.completed_only_of_mem hFixed]
      exact (hAgree var hFixed).symm
    · rw [Scope.completed_only_of_not_mem hFixed]
      exact hSame var (hSliced.mem_vars.mpr ⟨hVar, hFixed⟩)

/- The values of a slice, as they are passed in the table. -/
theorem toList_values
    (hSliced : table.Sliced (scope.only choice) slice)
    (hIncludes : table.scope.includes scope = true) :
    slice.values.toList =
      (table.places scope choice).map table.cell := by
  rw [Table.toList_values, ← Scope.map_number_choices,
    ← hSliced.map_number hIncludes, List.map_map,
    List.map_map]
  apply List.map_congr_left
  intro rest hRest
  exact hSliced.values rest
    (Scope.admits_of_mem_choices hRest)

/- The axes of a table are those fixed and those left. -/
theorem perm_axes
    (hSliced : table.Sliced (scope.only choice) slice)
    (hIncludes : table.scope.includes scope = true) :
    (slice.scope.axes ++ scope.axes).Perm
      table.scope.axes := by
  have hApart :
      List.Disjoint slice.scope.axes scope.axes := by
    intro axis hSlice hScope
    exact (hSliced.mem_axes.mp hSlice).2
      (Scope.mem_vars hScope)
  apply (List.perm_ext_iff_of_nodup
    (slice.scope.nodup_axes.append scope.nodup_axes hApart)
    table.scope.nodup_axes).mpr
  intro axis
  rw [List.mem_append, hSliced.mem_axes]
  constructor
  · rintro (⟨hAxis, _⟩ | hAxis)
    · exact hAxis
    · exact Scope.includes_iff.mp hIncludes axis hAxis
  · intro hAxis
    by_cases hFixed : axis.var ∈ scope.vars
    · exact .inr (Scope.mem_axes_of_includes hIncludes
        hAxis hFixed)
    · exact .inl ⟨hAxis, hFixed⟩

/- Each joint value of the scope has an equal share. -/
theorem size_mul
    (hSliced : table.Sliced (scope.only choice) slice)
    (hIncludes : table.scope.includes scope = true) :
    slice.values.size * scope.count =
      table.values.size := by
  have hSizes :
      (slice.scope.sizes ++ scope.sizes).Perm
        table.scope.sizes := by
    unfold Scope.sizes
    rw [← List.map_append]
    exact (hSliced.perm_axes hIncludes).map Axis.size
  calc slice.values.size * scope.count
      = slice.scope.sizes.prod * scope.sizes.prod := by
        rw [slice.size_eq, Scope.count, Scope.count,
          MixedRadix.count_eq_prod, MixedRadix.count_eq_prod]
    _ = table.scope.sizes.prod := by
        rw [← List.prod_append, hSizes.prod_eq]
    _ = table.values.size := by
        rw [table.size_eq, Scope.count,
          MixedRadix.count_eq_prod]

end Sliced

end Table

end JointMax

------------------------------------------------------------
-- Folds of Slices
------------------------------------------------------------

namespace JointMax

/- The sum of a list in its order, divided by its length. -/
def average {α : Type} [Scalar α] (values : List α) :
    Option α :=
  (foldFirst (· + ·) values).map
    (· / Scalar.ofNat values.length)

namespace Table

variable {α : Type} [Scalar α]

/-
  Each value of a result folds the values of a slice of the
  table, the one at the digits of that value, in the order of
  their numbers. Each slice has the same number of values.
-/
def FoldsSlices
    (fold : List α → Option α)
    (table result : Table α) : Prop :=
  ∀ digits, MixedRadix.Within result.sizes digits →
    ∃ slice value,
      table.condition? result.vars digits = .ok slice ∧
      slice.values.size * result.values.size =
        table.values.size ∧
      slice.values.size =
        table.values.size / result.values.size ∧
      0 < slice.values.size ∧
      fold slice.values.toList = some value ∧
      result.at? digits = .ok value

variable {input output : Table α}

/- The slice at a joint value of an included scope. -/
theorem exists_sliced
    {scope : Scope}
    {choice : VarId → Nat}
    (hIncludes : input.scope.includes scope = true)
    (hAdmits : scope.Admits choice) :
    ∃ slice,
      input.condition? scope.vars (scope.vars.map choice) =
          .ok slice ∧
        input.Sliced (scope.only choice) slice := by
  let fixing := Fixing.listed scope.vars
    (scope.vars.map choice) scope.increasing_vars (by simp)
  have hAccepts : input.scope.Accepts fixing.choice := by
    intro axis hAxis digit hDigit
    change scope.only choice axis.var = some digit at hDigit
    have hVar : axis.var ∈ scope.vars := by
      by_contra hOutside
      rw [Scope.only_eq_none_iff.mpr hOutside] at hDigit
      cases hDigit
    rw [Scope.only_of_mem hVar, Option.some_inj] at hDigit
    rw [← hDigit]
    exact hAdmits axis
      (Scope.mem_axes_of_includes hIncludes hAxis hVar)
  rcases exists_fix?_iff.mpr hAccepts with ⟨slice, hSlice⟩
  exact ⟨slice, hSlice, sliced_of_fix? hSlice⟩

/- A result that folds each slice does so for all digits. -/
theorem foldsSlices_of_eval
    {fold : List α → Option α}
    {result : Table α}
    (hIncludes : input.scope.includes result.scope = true)
    (hEval : ∀ choice, result.scope.Admits choice →
      ∀ slice,
        input.Sliced (result.scope.only choice) slice →
          fold slice.values.toList =
            some (result.eval choice)) :
    FoldsSlices fold input result := by
  intro digits hWithin
  rcases Scope.exists_choice_of_within hWithin with
    ⟨choice, hAdmits, rfl⟩
  rcases exists_sliced hIncludes hAdmits with
    ⟨slice, hSlice, hSliced⟩
  have hShare := hSliced.size_mul hIncludes
  rw [← result.size_eq] at hShare
  have hPos : 0 < result.values.size := by
    rw [result.size_eq]
    exact result.scope.count_pos
  refine ⟨slice, result.eval choice, hSlice, hShare, ?_, ?_,
    hEval choice hAdmits slice hSliced, ?_⟩
  · rw [← hShare, Nat.mul_div_cancel _ hPos]
  · rw [slice.size_eq]
    exact slice.scope.count_pos
  · rw [at?, Scope.encode?_of_within hWithin]
    rfl

/- A marginal folds the values of the slices. -/
theorem marginal?_folds
    (aggregate : α → α → α)
    (hIncludes : input.scope.includes output.scope = true) :
    ∃ result,
      marginal? aggregate input output = .ok result ∧
        result.scope = output.scope ∧
        ∀ choice, output.scope.Admits choice →
          ∀ slice,
            input.Sliced (output.scope.only choice) slice →
              foldFirst aggregate slice.values.toList =
                some (result.eval choice) := by
  rcases marginal?_of_includes aggregate hIncludes with
    ⟨result, hResult, hScope, hEval⟩
  refine ⟨result, hResult, hScope, ?_⟩
  intro choice hAdmits slice hSliced
  rw [hSliced.toList_values hIncludes]
  exact hEval choice hAdmits

/- A marginal is not affected by what was there before. -/
theorem marginal?_congr
    (aggregate : α → α → α)
    {other : Table α}
    (hScope : other.scope = output.scope) :
    marginal? aggregate input other =
      marginal? aggregate input output := by
  by_cases hIncludes :
      input.scope.includes output.scope = true
  · rcases marginal?_of_includes aggregate hIncludes with
      ⟨result, hResult, hSame, hEval⟩
    rcases marginal?_of_includes aggregate
        (hScope ▸ hIncludes) with
      ⟨again, hAgain, hOther, hOtherEval⟩
    have hEq : again = result := by
      apply ext_eval (hOther.trans (hScope.trans hSame.symm))
      intro choice hAdmits
      rw [hOther] at hAdmits
      have hFold := hOtherEval choice hAdmits
      rw [hScope] at hAdmits hFold
      rw [hEval choice hAdmits] at hFold
      exact (Option.some_inj.mp hFold).symm
    rw [hResult, hAgain, hEq]
  · have hOther :
        ¬ input.scope.includes other.scope = true := by
      rwa [hScope]
    rw [marginal?, marginal?, if_neg hIncludes,
      if_neg hOther, vars, hScope]
    rfl

/- The mean divides each sum by the share of a slice. -/
theorem meanMarginal?_folds
    (hIncludes : input.scope.includes output.scope = true) :
    ∃ result,
      meanMarginal? input output = .ok result ∧
        result.scope = output.scope ∧
        ∀ choice, output.scope.Admits choice →
          ∀ slice,
            input.Sliced (output.scope.only choice) slice →
              average slice.values.toList =
                some (result.eval choice) := by
  rcases marginal?_folds (· + ·) hIncludes with
    ⟨total, hTotal, hScope, hEval⟩
  have hPos : 0 < output.values.size := by
    rw [output.size_eq]
    exact output.scope.count_pos
  let share : α :=
    Scalar.ofNat (input.values.size / output.values.size)
  refine ⟨total.withScalar .div share,
    by rw [meanMarginal?, hTotal]; rfl, hScope, ?_⟩
  intro choice hAdmits slice hSliced
  have hShare := hSliced.size_mul hIncludes
  rw [← output.size_eq] at hShare
  have hValue :
      (total.withScalar .div share).eval choice =
        total.eval choice / share :=
    eval_map (hScope ▸ hAdmits)
  rw [hValue, average, hEval choice hAdmits slice hSliced,
    Array.length_toList]
  simp only [share, ← hShare, Nat.mul_div_cancel _ hPos]
  rfl

end Table

end JointMax

------------------------------------------------------------
-- Marginalisation
------------------------------------------------------------

namespace JointMax

namespace Table

variable {α : Type} [Scalar α]

/-
  Marginals over an included scope fold the slices that
  conditioning yields, whatever was in their place, and are
  plain copies over the same scope. Means divide by the size
  of the slices. Over any other scope both are refused and
  leave what is there. The programs that change the table in
  its place, cell by cell, do the same, and so does the pass
  that folds value by value into seeded cells. It never
  divides by zero.
-/
theorem marginal_folds_slices
    (aggregate : α → α → α)
    (input output : Table α) :
    ((∀ axis ∈ output.scope.axes,
        axis ∈ input.scope.axes) →
      ∃ total mean,
        output.inPlace (marginal? aggregate input output) =
          (total, none) ∧
        total.scope = output.scope ∧
        FoldsSlices (foldFirst aggregate) input total ∧
        (input.scope = output.scope → total = input) ∧
        output.inPlace (meanMarginal? input output) =
          (mean, none) ∧
        mean.scope = output.scope ∧
        FoldsSlices average input mean ∧
        ∀ other, other.scope = output.scope →
          marginal? aggregate input other = .ok total ∧
            meanMarginal? input other = .ok mean) ∧
    ((¬ ∀ axis ∈ output.scope.axes,
        axis ∈ input.scope.axes) →
      output.inPlace (marginal? aggregate input output) =
          (output, some
            (.badScope
              (.notSubset output.vars input.vars))) ∧
        output.inPlace (meanMarginal? input output) =
          (output, some
            (.badScope
              (.notSubset output.vars input.vars)))) ∧
    (input.scope.count < wordLimit →
      Guarded.marginal aggregate input output =
          some (marginal? aggregate input output) ∧
        Guarded.meanMarginal input output =
          some (meanMarginal? input output)) ∧
    InPlace.outcome (marginalInPlace aggregate input) output =
      InPlace.concluded output
        (marginal? aggregate input output) ∧
    InPlace.outcome (meanInPlace input) output =
      InPlace.concluded output
        (meanMarginal? input output) := by
  rw [← Scope.includes_iff]
  refine ⟨?_, ?_, ?_,
    outcome_marginalInPlace aggregate input output,
    outcome_meanInPlace input output⟩
  · intro hIncludes
    rcases marginal?_folds aggregate hIncludes with
      ⟨total, hTotal, hScope, hEval⟩
    rcases meanMarginal?_folds hIncludes with
      ⟨mean, hMean, hMeanScope, hMeanEval⟩
    refine ⟨total, mean, by rw [hTotal]; rfl, hScope, ?_, ?_,
      by rw [hMean]; rfl, hMeanScope, ?_, ?_⟩
    · apply foldsSlices_of_eval (hScope ▸ hIncludes)
      rw [hScope]
      exact hEval
    · intro hSame
      rw [marginal?, if_pos hIncludes, if_pos hSame] at hTotal
      exact (Except.ok.inj hTotal).symm
    · apply foldsSlices_of_eval (hMeanScope ▸ hIncludes)
      rw [hMeanScope]
      exact hMeanEval
    · intro other hOther
      have hSize : other.values.size = output.values.size := by
        rw [other.size_eq, output.size_eq, hOther]
      rw [meanMarginal?, marginal?_congr _ hOther,
        marginal?_congr _ hOther, hSize]
      exact ⟨hTotal, hMean⟩
  · intro hIncludes
    rw [meanMarginal?, marginal?, marginal?,
      if_neg hIncludes, if_neg hIncludes]
    exact ⟨rfl, rfl⟩
  · intro hWords
    exact ⟨Guarded.marginal_eq aggregate hWords,
      Guarded.meanMarginal_eq hWords⟩

end Table

end JointMax
