import Mathlib
import JointMax.Proofs.Expansion
import JointMax.Proofs.GuardedTables
import JointMax.Proofs.Ranks

/-
  Equality of tables up to a tolerance. Tables are close if
  no shared variable has two sizes and their values are close
  at every joint value of the union of their scopes, which is
  in general the scope of neither. The comparison walks over
  the union and stops at the first values that are not close.
  On numbers, equality is an equivalence among tables without
  a clash of sizes, and a table equals its expansions.

  Main declarations:
    * `Odometer.every?` and `Guarded.equalWithin`
    * `Table.CloseOverUnion`
    * `Table.Comparable`
    * `Table.comparison`
-/

------------------------------------------------------------
-- Walks that Stop at a Failed Check
------------------------------------------------------------

namespace JointMax

namespace Odometer

/-
  Check one position after another until a check fails. What
  a check or a step takes for granted may fail as well.
-/
def everyOf?
    (check : Odometer → Option Bool) :
    List Odometer → Option Bool
  | [] => some true
  | position :: rest => do
      if ← check position then
        let _ ← position.stepWord?
        everyOf? check rest
      else
        return false

/- Check the joint values of a scope until a check fails. -/
def every?
    (scope : Scope)
    (check : Odometer → Option Bool) : Option Bool := do
  let fresh ← start? scope
  everyOf? check fresh.trail

theorem everyOf?_eq
    {check : Odometer → Option Bool}
    {f : Nat → Bool}
    {positions : List Odometer}
    (hStep : ∀ position ∈ positions,
      ∃ next, position.stepWord? = some next)
    (hCheck : ∀ position ∈ positions,
      check position = some (f position.index)) :
    everyOf? check positions =
      some ((positions.map index).all f) := by
  induction positions with
  | nil => rfl
  | cons position rest ih =>
      have hRest := ih
        (fun other hOther => hStep other (by simp [hOther]))
        (fun other hOther => hCheck other (by simp [hOther]))
      rcases hStep position (by simp) with ⟨next, hNext⟩
      have hFirst := hCheck position (by simp)
      cases hHolds : f position.index with
      | false => simp [everyOf?, hFirst, hHolds]
      | true => simp [everyOf?, hFirst, hHolds, hNext, hRest]

theorem every?_eq
    {scope : Scope}
    {check : Odometer → Option Bool}
    {f : Nat → Bool}
    (hWords : scope.count < wordLimit)
    (hCheck : ∀ position : Odometer,
      position.scope = scope →
      position.index < scope.count →
      position.digits = scope.decode position.index →
        check position = some (f position.index)) :
    every? scope check =
      some ((List.range scope.count).all f) := by
  rcases exists_route_start scope with
    ⟨positions, hRoute, hHere⟩
  have hTrail : (start scope).trail = positions :=
    hRoute.walks.walk_eq hRoute.length_le
  have hNumbers :
      positions.map index = List.range scope.count := by
    have hFree : positions.map index =
        positions.map freeNumber := by
      apply List.map_congr_left
      intro position hPosition
      exact (hHere position hPosition).2.2.2.symm
    rw [hFree, hRoute.numbers, freeNumber_start,
      count_freeScope_start, Nat.sub_zero,
      List.range_eq_range']
  rw [every?, start?, Scope.product?_eq hWords, ← hNumbers]
  change everyOf? check (start scope).trail = _
  rw [hTrail]
  apply everyOf?_eq
  · intro position hPosition
    refine ⟨_, (hRoute.placed position
      hPosition).stepWord?_eq ?_⟩
    rwa [(hHere position hPosition).1]
  · intro position hPosition
    rcases hHere position hPosition with
      ⟨hScope, hIndex, hDigits, _⟩
    exact hCheck position hScope hIndex hDigits

end Odometer

theorem all_eq_all_range (count : Nat) (f : Nat → Bool) :
    (Nat.all count fun index _ => f index) =
      (List.range count).all f := by
  induction count with
  | zero => rfl
  | succ count ih =>
      rw [Nat.all_succ, ih, List.range_succ,
        List.all_append]
      simp

namespace Guarded

variable {α : Type} [Scalar α]

/-
  The comparison cell by cell, along both arrays for one
  scope and over the union for two.
-/
def equalWithin
    (tolerance : α)
    (left right : Table α) : Option Bool := do
  if left.scope = right.scope then
    return (left.values.zip right.values).all fun pair =>
      close tolerance pair.1 pair.2
  else
    match ← union left.scope right.scope with
    | .ok whole =>
        Odometer.every? whole fun position => do
          let one ← valueAt left position
          let other ← valueAt right position
          return close tolerance one other
    | .error _ => return false

theorem equalWithin_eq
    {tolerance : α}
    {left right : Table α}
    (hWords : ∀ whole,
      left.scope.union? right.scope = .ok whole →
        whole.count < wordLimit) :
    equalWithin tolerance left right =
      some (Table.equalWithin tolerance left right) := by
  unfold equalWithin Table.equalWithin
  split
  · rfl
  · rw [union_eq]
    cases hUnion : left.scope.union? right.scope with
    | error fault => rfl
    | ok whole =>
        have hWhole := hWords whole hUnion
        rcases Scope.includes_of_union? hUnion with
          ⟨hLeft, hRight⟩
        have hWalk :
            (Odometer.every? whole fun position => do
                let one ← valueAt left position
                let other ← valueAt right position
                return close tolerance one other) =
              some ((List.range whole.count).all fun index =>
                close tolerance
                  (left.along whole.vars (whole.decode index))
                  (right.along whole.vars
                    (whole.decode index))) := by
          apply Odometer.every?_eq hWhole
          rintro position rfl hIndex hDigits
          rw [valueAt_eq hLeft hWhole hIndex hDigits,
            valueAt_eq hRight hWhole hIndex hDigits, hDigits]
          rfl
        rw [← all_eq_all_range] at hWalk
        exact hWalk

end Guarded

end JointMax

------------------------------------------------------------
-- Closeness at Every Joint Value
------------------------------------------------------------

namespace JointMax

namespace Scope

variable {left right union : Scope} {joint : VarId → Nat}

theorem Compatible.symm
    (hCompatible : left.Compatible right) :
    right.Compatible left := by
  intro mine hMine other hOther hVar
  exact (hCompatible other hOther mine hMine hVar.symm).symm

theorem admits_of_union?
    (hUnion : left.union? right = .ok union) :
    union.Admits joint ↔
      left.Admits joint ∧ right.Admits joint := by
  simp only [Admits, mem_axes_of_union? hUnion, or_imp,
    forall_and]

/-
  A joint value of two scopes has a continuation to a third
  one. Variables of the third alone are set to zero, which is
  below every size.
-/
theorem exists_continuation
    {between : Scope}
    (hLeft : left.Compatible between)
    (hRight : right.Compatible between)
    (hJointLeft : left.Admits joint)
    (hJointRight : right.Admits joint) :
    ∃ wider,
      between.Admits wider ∧
        left.Agree joint wider ∧
        right.Agree joint wider := by
  refine ⟨fun var =>
    if var ∈ left.vars ∨ var ∈ right.vars
    then joint var else 0, ?_, ?_, ?_⟩
  · intro axis hAxis
    dsimp only
    split
    · rename_i hVar
      rcases hVar with hVar | hVar
      · rcases mem_vars_iff.mp hVar with
          ⟨mine, hMine, hSame⟩
        rw [← hLeft mine hMine axis hAxis hSame, ← hSame]
        exact hJointLeft mine hMine
      · rcases mem_vars_iff.mp hVar with
          ⟨mine, hMine, hSame⟩
        rw [← hRight mine hMine axis hAxis hSame, ← hSame]
        exact hJointRight mine hMine
    · exact axis.size_pos
  · intro var hVar
    simp [hVar]
  · intro var hVar
    simp [hVar]

end Scope

namespace Table

variable {α : Type} [Scalar α]
variable {tolerance : α} {left right : Table α}

/-
  No shared variable has two sizes, and at every joint value
  of the union both values are equal or have a quotient
  within the tolerance of one.
-/
structure CloseOverUnion
    (tolerance : α)
    (left right : Table α) : Prop where
  compatible : left.scope.Compatible right.scope
  close :
    ∀ union joint,
      left.scope.union? right.scope = .ok union →
        union.Admits joint →
          Scalar.same (left.eval joint) (right.eval joint) =
              true ∨
            Scalar.lt
              (Scalar.abs (Scalar.one -
                left.eval joint / right.eval joint))
              tolerance = true

theorem close_iff {a b : α} :
    JointMax.close tolerance a b = true ↔
      Scalar.same a b = true ∨
        Scalar.lt (Scalar.abs (Scalar.one - a / b))
          tolerance = true := by
  rw [JointMax.close, Bool.or_eq_true]

theorem closeOverUnion_iff :
    CloseOverUnion tolerance left right ↔
      left.scope.Compatible right.scope ∧
        ∀ joint, left.scope.Admits joint →
          right.scope.Admits joint →
            JointMax.close tolerance
              (left.eval joint) (right.eval joint) = true := by
  constructor
  · rintro ⟨hCompatible, hClose⟩
    refine ⟨hCompatible, ?_⟩
    intro joint hLeft hRight
    rcases Scope.exists_union?_iff.mpr hCompatible with
      ⟨union, hUnion⟩
    exact close_iff.mpr (hClose union joint hUnion
      ((Scope.admits_of_union? hUnion).mpr ⟨hLeft, hRight⟩))
  · rintro ⟨hCompatible, hClose⟩
    refine ⟨hCompatible, ?_⟩
    intro union joint hUnion hJoint
    rcases (Scope.admits_of_union? hUnion).mp hJoint with
      ⟨hLeft, hRight⟩
    exact close_iff.mp (hClose joint hLeft hRight)

/- Checking all cells is checking all joint values. -/
theorem forall_cells_iff
    {scope : Scope}
    {P : Nat → Prop} :
    (∀ index < scope.count, P index) ↔
      ∀ joint, scope.Admits joint →
        P (scope.number joint) := by
  constructor
  · intro hCells joint hJoint
    exact hCells _ (Scope.number_lt hJoint)
  · intro hJoints index hIndex
    have hNumber :
        scope.number (scope.revise index fun _ => 0) =
          index :=
      Scope.number_revise hIndex
    rw [← hNumber]
    exact hJoints _ (Scope.admits_revise hIndex)

/- The path for one scope compares cells of one place. -/
theorem all_zip_iff
    (hScope : left.scope = right.scope) :
    ((left.values.zip right.values).all fun pair =>
        JointMax.close tolerance pair.1 pair.2) = true ↔
      ∀ index < left.scope.count,
        JointMax.close tolerance
          (left.cell index) (right.cell index) = true := by
  rw [Array.all_eq_true]
  have hSize :
      (left.values.zip right.values).size =
        left.scope.count := by
    rw [Array.size_zip, left.size_eq, right.size_eq, hScope,
      Nat.min_self]
  constructor
  · intro hAll index hIndex
    have hPair := hAll index (hSize ▸ hIndex)
    rw [Array.getElem_zip] at hPair
    rwa [cell_eq_getElem (left.size_eq ▸ hIndex),
      cell_eq_getElem (by rwa [right.size_eq, ← hScope])]
  · intro hCells index hIndex
    have hPair := hCells index (hSize ▸ hIndex)
    rw [Array.getElem_zip]
    rwa [cell_eq_getElem, cell_eq_getElem] at hPair

theorem equalWithin_iff_of_eq
    (hScope : left.scope = right.scope) :
    equalWithin tolerance left right = true ↔
      CloseOverUnion tolerance left right := by
  rw [closeOverUnion_iff, equalWithin, if_pos hScope,
    all_zip_iff hScope,
    forall_cells_iff (P := fun index =>
      JointMax.close tolerance (left.cell index)
        (right.cell index) = true)]
  constructor
  · intro hCells
    refine ⟨Scope.compatible_of_includes
      (Scope.includes_of_eq hScope), ?_⟩
    intro joint hJoint _
    rw [eval_eq_cell, eval_eq_cell, ← hScope]
    exact hCells joint hJoint
  · rintro ⟨_, hClose⟩ joint hJoint
    have hHere := hClose joint hJoint (hScope ▸ hJoint)
    rwa [eval_eq_cell, eval_eq_cell, ← hScope] at hHere

theorem equalWithin_iff_of_ne
    (hScope : left.scope ≠ right.scope) :
    equalWithin tolerance left right = true ↔
      CloseOverUnion tolerance left right := by
  rw [closeOverUnion_iff, equalWithin, if_neg hScope]
  cases hUnion : left.scope.union? right.scope with
  | error fault =>
      have hClash :
          ¬ left.scope.Compatible right.scope := by
        rw [← Scope.exists_union?_iff, hUnion]
        simp
      simp [hClash]
  | ok union =>
      have hCompatible : left.scope.Compatible right.scope :=
        Scope.exists_union?_iff.mp ⟨union, hUnion⟩
      rcases Scope.includes_of_union? hUnion with
        ⟨hLeft, hRight⟩
      dsimp only
      rw [all_eq_all_range union.count, List.all_eq_true]
      simp only [List.mem_range, hCompatible, true_and]
      rw [forall_cells_iff]
      apply forall_congr'
      intro joint
      rw [← and_imp, ← Scope.admits_of_union? hUnion]
      apply imp_congr_right
      intro hJoint
      rw [Scope.decode_number hJoint, along_map hLeft,
        along_map hRight]

/- Both paths decide closeness over the union. -/
theorem equalWithin_iff :
    equalWithin tolerance left right = true ↔
      CloseOverUnion tolerance left right := by
  by_cases hScope : left.scope = right.scope
  · exact equalWithin_iff_of_eq hScope
  · exact equalWithin_iff_of_ne hScope

theorem strictlyEqualWithin_iff :
    strictlyEqualWithin tolerance left right = true ↔
      left.vars = right.vars ∧
        CloseOverUnion tolerance left right := by
  rw [strictlyEqualWithin, Bool.and_eq_true,
    equalWithin_iff, sameVars, beq_iff_eq]

end Table

end JointMax

------------------------------------------------------------
-- Equality of Tables of Numbers
------------------------------------------------------------

namespace JointMax

namespace Table

variable {α : Type} [Scalar α] [RankedScalar α]
variable {left middle right table result : Table α}

/- Every value is a number. -/
def Numeric (table : Table α) : Prop :=
  ∀ value ∈ table.values, Scalar.isNaN value = false

omit [RankedScalar α] in
theorem Numeric.eval
    (hNumeric : table.Numeric)
    {joint : VarId → Nat}
    (hJoint : table.scope.Admits joint) :
    Scalar.isNaN (table.eval joint) = false := by
  have hIndex :
      table.scope.number joint < table.values.size := by
    rw [table.size_eq]
    exact Scope.number_lt hJoint
  rw [eval_eq_cell, cell_eq_getElem hIndex]
  exact hNumeric _ (Array.getElem_mem hIndex)

omit [RankedScalar α] in
theorem numeric_of_eval
    (hEval : ∀ joint, table.scope.Admits joint →
      Scalar.isNaN (table.eval joint) = false) :
    table.Numeric := by
  intro value hValue
  rcases Array.getElem_of_mem hValue with
    ⟨index, hIndex, rfl⟩
  have hPlace : index < table.scope.count := by
    rwa [← table.size_eq]
  rw [← cell_eq_getElem hIndex,
    cell_eq_eval_revise (fun _ => 0) hPlace]
  exact hEval _ (Scope.admits_revise hPlace)

/- With tolerance zero a quotient is never close enough. -/
theorem close_zero (a b : α) :
    JointMax.close Scalar.zero a b = Scalar.same a b := by
  rw [JointMax.close, RankedScalar.abs_lt_zero, Bool.or_false]

theorem same_iff :
    left.same right = true ↔
      left.scope.Compatible right.scope ∧
        ∀ joint, left.scope.Admits joint →
          right.scope.Admits joint →
            Scalar.same (left.eval joint)
              (right.eval joint) = true := by
  rw [same, equalWithin_iff, closeOverUnion_iff]
  simp only [close_zero]

theorem same_self
    (hNumeric : table.Numeric) :
    table.same table = true := by
  apply same_iff.mpr
  refine ⟨Scope.compatible_of_includes
    (Scope.includes_self _), ?_⟩
  intro joint hJoint _
  exact RankedScalar.same_refl (hNumeric.eval hJoint)

theorem same_symm
    (hSame : left.same right = true) :
    right.same left = true := by
  rcases same_iff.mp hSame with ⟨hCompatible, hValues⟩
  apply same_iff.mpr
  refine ⟨hCompatible.symm, ?_⟩
  intro joint hRight hLeft
  exact RankedScalar.same_symm (hValues joint hLeft hRight)

/-
  Each joint value of the outer tables is continued to the
  table in between, where both equalities apply.
-/
theorem same_trans
    (hOuter : left.scope.Compatible right.scope)
    (hFirst : left.same middle = true)
    (hSecond : middle.same right = true) :
    left.same right = true := by
  rcases same_iff.mp hFirst with ⟨hLeft, hOne⟩
  rcases same_iff.mp hSecond with ⟨hRight, hOther⟩
  apply same_iff.mpr
  refine ⟨hOuter, ?_⟩
  intro joint hJointLeft hJointRight
  rcases Scope.exists_continuation hLeft hRight.symm
      hJointLeft hJointRight with
    ⟨wider, hMiddle, hAgreeLeft, hAgreeRight⟩
  rw [eval_congr hAgreeLeft, eval_congr hAgreeRight]
  exact RankedScalar.same_trans
    (hOne wider (hJointLeft.congr hAgreeLeft) hMiddle)
    (hOther wider hMiddle (hJointRight.congr hAgreeRight))

/- A table equals each of its expansions. -/
theorem Extended.same
    (hNumeric : table.Numeric)
    (hExtended : table.Extended result) :
    table.same result = true := by
  apply same_iff.mpr
  refine ⟨(Scope.compatible_of_includes
    hExtended.includes).symm, ?_⟩
  intro joint hOwn hJoint
  rw [hExtended.eval hJoint]
  exact RankedScalar.same_refl (hNumeric.eval hOwn)

/- What comparing two tables decides, and how. -/
structure Comparable
    (tolerance : α)
    (left right : Table α) : Prop where
  within :
    equalWithin tolerance left right = true ↔
      CloseOverUnion tolerance left right
  strictly :
    strictlyEqualWithin tolerance left right = true ↔
      left.vars = right.vars ∧
        CloseOverUnion tolerance left right
  walked :
    (∀ whole,
      left.scope.union? right.scope = .ok whole →
        whole.count < wordLimit) →
      Guarded.equalWithin tolerance left right =
        some (equalWithin tolerance left right)

/-
  Comparison within a tolerance is closeness at every joint
  value. Equality is an equivalence on every set of tables of
  numbers without a clash of sizes, also across scopes, and
  tables of numbers equal their expansions.
-/
theorem comparison :
    (∀ (tolerance : α) (left right : Table α),
      Comparable tolerance left right) ∧
    (∀ tables : Set (Table α),
      (∀ table ∈ tables, table.Numeric) →
      (tables.Pairwise fun one other =>
        one.scope.Compatible other.scope) →
        Equivalence fun one other : tables =>
          one.val.same other.val = true) ∧
    ∀ (table result : Table α) (scope : Scope),
      table.Numeric →
        table.expand? scope = .ok result →
          table.same result = true ∧
            result.same table = true := by
  refine ⟨?_, ?_, ?_⟩
  · intro tolerance left right
    exact ⟨equalWithin_iff, strictlyEqualWithin_iff,
      Guarded.equalWithin_eq⟩
  · intro tables hNumeric hPairwise
    have hCompatible : ∀ one other : tables,
        one.val.scope.Compatible other.val.scope := by
      intro one other
      by_cases hSame : one.val = other.val
      · rw [hSame]
        exact Scope.compatible_of_includes
          (Scope.includes_self _)
      · exact hPairwise one.property other.property hSame
    constructor
    · intro table
      exact same_self (hNumeric table table.property)
    · intro one other hSame
      exact same_symm hSame
    · intro one other last hFirst hSecond
      exact same_trans (hCompatible one last) hFirst hSecond
  · intro table result scope hNumeric hResult
    have hSame :=
      (extended_of_expand? hResult).same hNumeric
    exact ⟨hSame, same_symm hSame⟩

/- A column of doubles equals the square of its copies. -/
theorem comparison_column :
    let column : Table Float :=
      ⟨⟨[⟨2, 2, by decide⟩], by decide⟩,
        #[Scalar.zero, Scalar.one], rfl⟩
    let wider : Scope :=
      ⟨[⟨2, 2, by decide⟩, ⟨5, 2, by decide⟩], by decide⟩
    let both : Set (Table Float) :=
      {column, column.broadcast wider}
    (∀ table ∈ both, table.Numeric) ∧
      column.expand? wider = .ok (column.broadcast wider) ∧
      (Equivalence fun one other : both =>
        one.val.same other.val = true) ∧
      column.same (column.broadcast wider) = true := by
  intro column wider both
  have hIncludes : wider.includes column.scope = true := by
    decide
  have hExtended := extended_broadcast hIncludes
  have hColumn : column.Numeric := by
    intro value hValue
    rcases List.mem_pair.mp (Array.mem_toList_iff.mpr hValue)
      with rfl | rfl
    · rfl
    · rfl
  have hNumeric : ∀ table ∈ both, table.Numeric := by
    rintro table (rfl | rfl)
    · exact hColumn
    · apply numeric_of_eval
      intro joint hJoint
      rw [hExtended.eval hJoint]
      exact hColumn.eval (hJoint.of_includes hIncludes)
  have hPairwise : both.Pairwise fun one other =>
      one.scope.Compatible other.scope := by
    intro one hOne other hOther _
    have hBelow : ∀ table ∈ both, table.scope ≤ wider := by
      rintro table (rfl | rfl)
      · exact hIncludes
      · exact le_refl wider
    exact Scope.compatible_of_le (hBelow one hOne)
      (hBelow other hOther)
  have hExpand :
      column.expand? wider =
        .ok (column.broadcast wider) :=
    expand?_eq_ok_iff.mpr
      ⟨Scope.union?_comm.mp (Scope.union?_of_includes
        hIncludes), hExtended⟩
  exact ⟨hNumeric, hExpand,
    comparison.2.1 both hNumeric hPairwise,
    (comparison.2.2 column _ wider hColumn hExpand).1⟩

end Table

end JointMax
