import Mathlib
import JointMax.Proofs.Pointwise
import JointMax.Table.Marginal

/-
  Marginals as folds over slices: each value of a marginal
  folds, in the order of their numbers, the input's values at
  the joint values that agree with it. For the maximum of
  rationals, this is the greatest value of the slice.

  Main declarations:
    * `Table.places`, the joint values of a slice
    * `Table.marginal?_of_includes`
    * `Table.isGreatest_of_foldFirst`
-/

------------------------------------------------------------
-- Folding into Cells
------------------------------------------------------------

namespace JointMax

/- Fold a list from its first item on. -/
def foldFirst {α : Type} (aggregate : α → α → α) :
    List α → Option α
  | [] => none
  | first :: rest => some (rest.foldl aggregate first)

/- One cell sees only the steps that are taken at its place. -/
theorem getElem?_foldl_modify
    {β : Type}
    {place : Nat → Nat}
    {step : Nat → β → β}
    {indices : List Nat}
    {cells : Array β}
    {target : Nat} :
    (indices.foldl
      (fun cells index =>
        cells.modify (place index) (step index))
      cells)[target]? =
      cells[target]?.map fun cell =>
        (indices.filter (place · = target)).foldl
          (fun cell index => step index cell) cell := by
  induction indices generalizing cells with
  | nil => simp
  | cons index indices ih =>
      rw [List.foldl_cons, ih, Array.getElem?_modify]
      by_cases hPlace : place index = target
      · simp [hPlace, Function.comp_def]
      · simp [hPlace]

namespace Table

variable {α : Type} [Scalar α]

omit [Scalar α] in
theorem foldl_absorb_some
    {aggregate : α → α → α}
    {values : List α}
    (first : α) :
    values.foldl
      (fun found value => absorb aggregate value found)
      (some first) =
        some (values.foldl aggregate first) := by
  induction values generalizing first with
  | nil => rfl
  | cons value values ih => exact ih (aggregate first value)

omit [Scalar α] in
theorem foldl_absorb
    {aggregate : α → α → α}
    {values : List α} :
    values.foldl
      (fun found value => absorb aggregate value found)
      none = foldFirst aggregate values := by
  cases values with
  | nil => rfl
  | cons first rest => exact foldl_absorb_some first

end Table

end JointMax

------------------------------------------------------------
-- Slices
------------------------------------------------------------

namespace JointMax

namespace Table

variable {α : Type} [Scalar α]

/-
  Numbers of the joint values of a table that agree with a
  choice on some scope.
-/
def places
    (table : Table α)
    (scope : Scope)
    (choice : VarId → Nat) : List Nat :=
  (List.range table.scope.count).filter fun index =>
    decide (∀ var ∈ scope.vars,
      table.scope.revise index choice var = choice var)

omit [Scalar α] in
theorem mem_places
    {table : Table α}
    {scope : Scope}
    {choice : VarId → Nat}
    {index : Nat} :
    index ∈ table.places scope choice ↔
      index < table.scope.count ∧
        scope.Agree (table.scope.revise index choice)
          choice := by
  simp [places, Scope.Agree]

omit [Scalar α] in
theorem nodup_places
    (table : Table α)
    (scope : Scope)
    (choice : VarId → Nat) :
    (table.places scope choice).Nodup :=
  List.nodup_range.filter _

/- Numbers of a slice belong to the choices that agree. -/
omit [Scalar α] in
theorem number_mem_places
    {table : Table α}
    {scope : Scope}
    {choice point : VarId → Nat}
    (hIncludes : table.scope.includes scope = true)
    (hAdmits : table.scope.Admits point)
    (hAgree : scope.Agree point choice) :
    table.scope.number point ∈
      table.places scope choice := by
  have hNumber := Scope.number_lt hAdmits
  refine mem_places.mpr ⟨hNumber, ?_⟩
  intro var hVar
  have hSame :
      table.scope.Agree
        (table.scope.revise (table.scope.number point)
          choice) point :=
    Scope.agree_of_number_eq (Scope.admits_revise hNumber)
      hAdmits (Scope.number_revise hNumber)
  rw [hSame.of_includes hIncludes var hVar, hAgree var hVar]

/- No slice is empty. -/
omit [Scalar α] in
theorem places_ne_nil
    {table : Table α}
    {scope : Scope}
    {choice : VarId → Nat}
    (hIncludes : table.scope.includes scope = true)
    (hAdmits : scope.Admits choice) :
    table.places scope choice ≠ [] := by
  let point : VarId → Nat := fun var =>
    if var ∈ scope.vars then choice var else 0
  have hPoint : table.scope.Admits point := by
    intro axis hAxis
    by_cases hVar : axis.var ∈ scope.vars
    · simp only [point, if_pos hVar]
      exact hAdmits axis
        (Scope.mem_axes_of_includes hIncludes hAxis hVar)
    · simp only [point, if_neg hVar]
      exact axis.size_pos
  have hAgree : scope.Agree point choice := by
    intro var hVar
    simp only [point, if_pos hVar]
  exact List.ne_nil_of_mem
    (number_mem_places hIncludes hPoint hAgree)

/- The slice over the table's own scope is one joint value. -/
omit [Scalar α] in
theorem places_self
    {table : Table α}
    {choice : VarId → Nat}
    (hAdmits : table.scope.Admits choice) :
    table.places table.scope choice =
      [table.scope.number choice] := by
  have hMember :
      table.scope.number choice ∈
        table.places table.scope choice :=
    number_mem_places (Scope.includes_self _) hAdmits
      fun _ _ => rfl
  apply List.perm_singleton.mp
  rw [List.perm_ext_iff_of_nodup
    (nodup_places table table.scope choice) (by simp)]
  intro index
  rw [List.mem_singleton]
  constructor
  · intro hIndex
    rcases mem_places.mp hIndex with ⟨hBelow, hAgree⟩
    rw [← Scope.number_congr hAgree,
      Scope.number_revise hBelow]
  · intro hEq
    exact hEq ▸ hMember

/- A place of the slice is written to the cell of its choice. -/
omit [Scalar α] in
theorem locate_eq_iff
    {input : Table α}
    {output : Scope}
    {choice : VarId → Nat}
    {index : Nat}
    (hIncludes : input.scope.includes output = true)
    (hAdmits : output.Admits choice)
    (hIndex : index < input.scope.count) :
    output.locate input.vars (input.scope.decode index) =
        output.number choice ↔
      output.Agree (input.scope.revise index choice)
        choice := by
  have hLocate :
      output.locate input.vars
          (input.scope.decode index) =
        output.number (input.scope.revise index choice) := by
    rw [← Scope.map_revise input.scope index choice]
    exact Scope.locate_map hIncludes
  rw [hLocate]
  exact
    ⟨Scope.agree_of_number_eq
        ((Scope.admits_revise hIndex).of_includes hIncludes)
        hAdmits,
      Scope.number_congr⟩

theorem scatter_cell
    {aggregate : α → α → α}
    {input : Table α}
    {output : Scope}
    {choice : VarId → Nat}
    (hIncludes : input.scope.includes output = true)
    (hAdmits : output.Admits choice) :
    (scatter aggregate input output).getD
        (output.number choice) none =
      foldFirst aggregate
        ((input.places output choice).map input.cell) := by
  have hPlaces :
      (List.range input.scope.count).filter (fun index =>
        decide (output.locate input.vars
          (input.scope.decode index) =
            output.number choice)) =
        input.places output choice := by
    apply List.filter_congr
    intro index hIndex
    rw [decide_eq_decide]
    exact locate_eq_iff hIncludes hAdmits
      (List.mem_range.mp hIndex)
  rw [Array.getD_eq_getD_getElem?, scatter,
    getElem?_foldl_modify, hPlaces, ← foldl_absorb,
    List.foldl_map]
  simp [Scope.number_lt hAdmits]

/-
  A marginal over an included scope exists, and folds the
  slices of the input from their first values on.
-/
theorem marginal?_of_includes
    (aggregate : α → α → α)
    {input output : Table α}
    (hIncludes : input.scope.includes output.scope = true) :
    ∃ result,
      marginal? aggregate input output = .ok result ∧
        result.scope = output.scope ∧
        ∀ choice, output.scope.Admits choice →
          foldFirst aggregate
            ((input.places output.scope choice).map
              input.cell) =
            some (result.eval choice) := by
  by_cases hScope : input.scope = output.scope
  · refine ⟨input, ?_, hScope, ?_⟩
    · unfold marginal?
      rw [if_pos hIncludes, if_pos hScope]
    · intro choice hAdmits
      rw [← hScope] at hAdmits ⊢
      rw [places_self hAdmits]
      rfl
  · let cells := scatter aggregate input output.scope
    let result : Table α :=
      { scope := output.scope
        values :=
          output.values.mapIdx fun index old =>
            (cells.getD index none).getD old
        size_eq := by simp [output.size_eq] }
    refine ⟨result, ?_, rfl, ?_⟩
    · unfold marginal?
      rw [if_pos hIncludes, if_neg hScope]
    · intro choice hAdmits
      have hIndex :
          output.scope.number choice <
            result.values.size := by
        rw [result.size_eq]
        exact Scope.number_lt hAdmits
      rw [eval_eq_cell]
      change _ = some (result.cell (output.scope.number choice))
      rw [cell_eq_getElem hIndex]
      simp only [result, cells, Array.getElem_mapIdx,
        scatter_cell hIncludes hAdmits]
      cases hList : input.places output.scope choice with
      | nil =>
          exact absurd hList
            (places_ne_nil hIncludes hAdmits)
      | cons first rest => rfl

end Table

end JointMax

------------------------------------------------------------
-- Greatest Values of Slices
------------------------------------------------------------

namespace JointMax

theorem Scalar.larger_rat (a b : Rat) :
    Scalar.larger a b = max a b := by
  change (if a < b then b else a) = max a b
  rcases lt_or_ge a b with hLess | hNotLess
  · rw [if_pos hLess, max_eq_right hLess.le]
  · rw [if_neg (not_lt.mpr hNotLess), max_eq_left hNotLess]

theorem foldFirst_larger (values : List Rat) :
    foldFirst Scalar.larger values = values.max? := by
  cases values with
  | nil => rfl
  | cons first rest =>
      rw [List.max?_cons', foldFirst,
        funext₂ Scalar.larger_rat]

namespace Table

/- The maximum of a slice is the greatest value in it. -/
theorem isGreatest_of_foldFirst
    {input : Table Rat}
    {output : Scope}
    {choice : VarId → Nat}
    {best : Rat}
    (hIncludes : input.scope.includes output = true)
    (hFold :
      foldFirst Scalar.larger
        ((input.places output choice).map input.cell) =
          some best) :
    IsGreatest
      (input.eval '' {point |
        input.scope.Admits point ∧
          output.Agree point choice})
      best := by
  rw [foldFirst_larger, List.max?_eq_some_iff] at hFold
  constructor
  · rcases List.mem_map.mp hFold.1 with
      ⟨index, hIndex, hCell⟩
    rcases mem_places.mp hIndex with ⟨hBelow, hAgree⟩
    refine ⟨input.scope.revise index choice,
      ⟨Scope.admits_revise hBelow, hAgree⟩, ?_⟩
    rw [← cell_eq_eval_revise choice hBelow, hCell]
  · rintro _ ⟨point, ⟨hPoint, hAgree⟩, rfl⟩
    exact hFold.2 _ (List.mem_map_of_mem
      (number_mem_places hIncludes hPoint hAgree))

end Table

end JointMax
