import Mathlib
import JointMax.Proofs.Numbering
import JointMax.Table.Combine

/-
  Tables as functions of choices. A table is determined by
  its scope and its values at the choices that the scope
  admits, and each pointwise operation is read off there.

  Main declarations:
    * `Table.ext_eval`
    * `Table.eval_tabulate`, `Table.eval_filled`,
      `Table.eval_map`
    * `Table.zipInto?_of_includes`
    * `Table.addEach?_of_includes`
-/

------------------------------------------------------------
-- Values at Choices
------------------------------------------------------------

namespace JointMax

namespace Table

variable {α : Type} [Scalar α]

theorem eval_eq_cell
    (table : Table α)
    (choice : VarId → Nat) :
    table.eval choice =
      table.cell (table.scope.number choice) := rfl

theorem eval_congr
    {table : Table α}
    {first second : VarId → Nat}
    (hAgree : table.scope.Agree first second) :
    table.eval first = table.eval second := by
  rw [eval_eq_cell, eval_eq_cell,
    Scope.number_congr hAgree]

theorem cell_eq_getElem
    {table : Table α}
    {index : Nat}
    (hIndex : index < table.values.size) :
    table.cell index = table.values[index] := by
  simp [cell, hIndex]

/- A table holds no more than its scope and its cells. -/
theorem ext_cell
    {left right : Table α}
    (hScope : left.scope = right.scope)
    (hCells :
      ∀ index < left.scope.count,
        left.cell index = right.cell index) :
    left = right := by
  apply Table.ext hScope
  apply Array.ext
  · rw [left.size_eq, right.size_eq, hScope]
  · intro index hLeft hRight
    have hCell := hCells index (left.size_eq ▸ hLeft)
    rwa [cell_eq_getElem hLeft,
      cell_eq_getElem hRight] at hCell

theorem toList_values {table : Table α} :
    table.values.toList =
      (List.range table.scope.count).map table.cell := by
  apply List.ext_getElem
  · simp [table.size_eq]
  · intro index hIndex _
    rw [List.getElem_map, List.getElem_range,
      cell_eq_getElem (by simpa using hIndex)]
    rfl

theorem cell_eq_eval_revise
    {table : Table α}
    {index : Nat}
    (base : VarId → Nat)
    (hIndex : index < table.scope.count) :
    table.cell index =
      table.eval (table.scope.revise index base) := by
  rw [eval_eq_cell, Scope.number_revise hIndex]

/- A table is a function of the choices that it admits. -/
theorem ext_eval
    {left right : Table α}
    (hScope : left.scope = right.scope)
    (hEval :
      ∀ choice, left.scope.Admits choice →
        left.eval choice = right.eval choice) :
    left = right := by
  apply ext_cell hScope
  intro index hIndex
  rw [cell_eq_eval_revise (fun _ => 0) hIndex,
    cell_eq_eval_revise (fun _ => 0) (hScope ▸ hIndex),
    hEval _ (Scope.admits_revise hIndex), hScope]

/- A table read at a choice made for a larger scope. -/
theorem along_map
    {table : Table α}
    {larger : Scope}
    {choice : VarId → Nat}
    (hIncludes : larger.includes table.scope = true) :
    table.along larger.vars (larger.vars.map choice) =
      table.eval choice := by
  unfold along
  rw [Scope.locate_map hIncludes, eval_eq_cell]

end Table

end JointMax

------------------------------------------------------------
-- Constructions
------------------------------------------------------------

namespace JointMax

namespace Table

variable {α : Type} [Scalar α]

theorem eval_tabulate
    {scope : Scope}
    {f : List Nat → α}
    {choice : VarId → Nat}
    (hAdmits : scope.Admits choice) :
    (tabulate scope f).eval choice =
      f (scope.vars.map choice) := by
  have hIndex :
      scope.number choice <
        (tabulate scope f).values.size := by
    rw [(tabulate scope f).size_eq]
    exact Scope.number_lt hAdmits
  rw [eval_eq_cell]
  change (tabulate scope f).cell (scope.number choice) = _
  rw [cell_eq_getElem hIndex]
  simp [tabulate, Scope.decode_number hAdmits]

theorem eval_filled
    {scope : Scope}
    {value : α}
    {choice : VarId → Nat}
    (hAdmits : scope.Admits choice) :
    (filled scope value).eval choice = value := by
  have hIndex :
      scope.number choice <
        (filled scope value).values.size := by
    rw [(filled scope value).size_eq]
    exact Scope.number_lt hAdmits
  rw [eval_eq_cell]
  change (filled scope value).cell (scope.number choice) = _
  rw [cell_eq_getElem hIndex]
  simp [filled]

theorem cell_map
    {table : Table α}
    {f : α → α}
    {index : Nat}
    (hIndex : index < table.scope.count) :
    (table.map f).cell index = f (table.cell index) := by
  have hSize : index < table.values.size := by
    rw [table.size_eq]
    exact hIndex
  rw [cell_eq_getElem hSize,
    cell_eq_getElem (by simpa [map] using hSize)]
  simp [map]

theorem eval_map
    {table : Table α}
    {f : α → α}
    {choice : VarId → Nat}
    (hAdmits : table.scope.Admits choice) :
    (table.map f).eval choice = f (table.eval choice) :=
  cell_map (Scope.number_lt hAdmits)

end Table

end JointMax

------------------------------------------------------------
-- Combination into an Included Scope
------------------------------------------------------------

namespace JointMax

namespace Table

variable {α : Type} [Scalar α]

theorem cell_zipCells
    {op : α → α → α}
    {left right : Table α}
    {index : Nat}
    (hScope : left.scope = right.scope)
    (hIndex : index < left.scope.count) :
    (zipCells op left right hScope).cell index =
      op (left.cell index) (right.cell index) := by
  have hLeft : index < left.values.size := by
    rwa [left.size_eq]
  have hRight : index < right.values.size := by
    rwa [right.size_eq, ← hScope]
  rw [cell_eq_getElem hLeft, cell_eq_getElem hRight,
    cell_eq_getElem (by
      simpa [zipCells] using And.intro hLeft hRight)]
  simp [zipCells]

theorem eval_zipCells
    {op : α → α → α}
    {left right : Table α}
    {choice : VarId → Nat}
    (hScope : left.scope = right.scope)
    (hAdmits : left.scope.Admits choice) :
    (zipCells op left right hScope).eval choice =
      op (left.eval choice) (right.eval choice) := by
  rw [eval_eq_cell, eval_eq_cell left, eval_eq_cell right,
    ← hScope]
  exact cell_zipCells hScope (Scope.number_lt hAdmits)

theorem eval_zipIncluded
    {op : α → α → α}
    {left right : Table α}
    {choice : VarId → Nat}
    (hIncludes : left.scope.includes right.scope = true)
    (hAdmits : left.scope.Admits choice) :
    (zipIncluded op left right).eval choice =
      op (left.eval choice) (right.eval choice) := by
  have hIndex :
      left.scope.number choice < left.values.size := by
    rw [left.size_eq]
    exact Scope.number_lt hAdmits
  rw [eval_eq_cell, eval_eq_cell left,
    cell_eq_getElem hIndex]
  change
    (zipIncluded op left right).cell
      (left.scope.number choice) = _
  rw [cell_eq_getElem (by simpa [zipIncluded] using hIndex)]
  simp only [zipIncluded, Array.getElem_mapIdx,
    Scope.decode_number hAdmits]
  exact congrArg (op _) (along_map hIncludes)

/- An operand within the scope keeps the scope. -/
theorem zipInto?_of_includes
    (op : α → α → α)
    {left right : Table α}
    (hIncludes : left.scope.includes right.scope = true) :
    ∃ result,
      zipInto? op left right = .ok result ∧
        result.scope = left.scope ∧
        ∀ choice, left.scope.Admits choice →
          result.eval choice =
            op (left.eval choice) (right.eval choice) := by
  by_cases hScope : left.scope = right.scope
  · refine ⟨zipCells op left right hScope, ?_, rfl, ?_⟩
    · simp [zipInto?, hScope]
    · intro choice hAdmits
      exact eval_zipCells hScope hAdmits
  · refine ⟨zipIncluded op left right, ?_, rfl, ?_⟩
    · simp [zipInto?, hScope, hIncludes]
    · intro choice hAdmits
      exact eval_zipIncluded hIncludes hAdmits

/- Adding tables within the scope adds their values in order. -/
theorem addEach?_of_includes
    {total : Table α}
    {tables : List (Table α)}
    (hIncludes :
      ∀ table ∈ tables,
        total.scope.includes table.scope = true) :
    ∃ result,
      total.addEach? tables = .ok result ∧
        result.scope = total.scope ∧
        ∀ choice, total.scope.Admits choice →
          result.eval choice =
            (tables.map fun table =>
              table.eval choice).foldl (· + ·)
                (total.eval choice) := by
  induction tables generalizing total with
  | nil => exact ⟨total, rfl, rfl, fun _ _ => rfl⟩
  | cons table tables ih =>
      rcases zipInto?_of_includes (· + ·)
          (hIncludes table (by simp)) with
        ⟨next, hNext, hScope, hEval⟩
      have hRest :
          ∀ other ∈ tables,
            next.scope.includes other.scope = true := by
        intro other hOther
        rw [hScope]
        exact hIncludes other (by simp [hOther])
      rcases ih hRest with
        ⟨result, hResult, hResultScope, hResultEval⟩
      refine ⟨result, ?_, hResultScope.trans hScope, ?_⟩
      · simp only [addEach?, hNext]
        exact hResult
      · intro choice hAdmits
        rw [hResultEval choice (hScope ▸ hAdmits),
          hEval choice hAdmits]
        rfl

end Table

end JointMax
