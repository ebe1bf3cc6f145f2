import Mathlib
import JointMax.Proofs.Calibration
import JointMax.Proofs.SweepOutcome

/-
  Messages and beliefs as sums of exact numbers. A belief adds
  up what was heard of each value; a variable tells a factor
  its belief less what it heard from that factor, up to a
  constant; and a factor tells a variable the greatest score
  under each of its values.

  Main declarations:
    * `Messages.read`, `Solver.credence`
    * `Solver.Conforms.belief?_cell`
    * `Solver.Swept.read_toFactor`
    * `Solver.Swept.isGreatest_read_toVar`
-/

------------------------------------------------------------
-- Exact Scalars
------------------------------------------------------------

namespace JointMax

theorem Scalar.zero_rat : (Scalar.zero : Rat) = 0 :=
  Nat.cast_zero

/- Sums run over the values in order, onto the first. -/
theorem foldl_add_rat
    (start : Rat)
    (values : List Rat) :
    values.foldl (· + ·) start = start + values.sum := by
  induction values generalizing start with
  | nil => simp
  | cons value values ih =>
      rw [List.foldl_cons, ih, List.sum_cons]
      ring

/- What is not there adds nothing. -/
theorem sum_filterMap
    {β γ : Type}
    (find : β → Option γ)
    (weight : γ → Rat)
    (items : List β) :
    ((items.filterMap find).map weight).sum =
      (items.map fun item =>
        (find item).elim 0 weight).sum := by
  induction items with
  | nil => rfl
  | cons item items ih =>
      cases hFound : find item with
      | none => simp [hFound, ih]
      | some found => simp [hFound, ih]

/- One summand, taken out of a sum over distinct items. -/
theorem sum_filter_ne
    {β : Type}
    [DecidableEq β]
    {items : List β}
    (hNodup : items.Nodup)
    {item : β}
    (hItem : item ∈ items)
    (weight : β → Rat) :
    ((items.filter (· != item)).map weight).sum =
      (items.map weight).sum - weight item := by
  have hPerm := List.perm_cons_erase hItem
  have hSum := (hPerm.map weight).sum_eq
  rw [List.map_cons, List.sum_cons] at hSum
  rw [← hNodup.erase_eq_filter, hSum]
  ring

end JointMax

------------------------------------------------------------
-- What was Heard
------------------------------------------------------------

namespace JointMax

/- What a message says of a value; zero if there is none. -/
def Messages.read
    (messages : Messages Rat)
    (edge : Edge)
    (value : Nat) : Rat :=
  messages[edge]?.elim 0 fun message => message.cell value

namespace Solver

/- All that a variable was told of one of its values. -/
def credence
    (solver : Solver Rat)
    (var : VarId)
    (value : Nat) : Rat :=
  ((solver.graph.factorsOf var).map fun factor =>
    solver.toVar.read ⟨factor, var⟩ value).sum

variable {registry : Registry} {solver next : Solver Rat}

theorem Conforms.received?_cell
    (hSolver : solver.Conforms registry)
    {axis : Axis}
    (hKnows : registry.Knows axis)
    (factors : List FactorId) :
    ∃ total,
      solver.received? axis factors = .ok total ∧
        total.scope = Scope.ofAxis axis ∧
        ∀ value < axis.size,
          total.cell value =
            (factors.map fun factor =>
              solver.toVar.read ⟨factor, axis.var⟩
                value).sum := by
  rcases hSolver.received? hKnows factors with
    ⟨total, hTotal, hScope, hEval⟩
  refine ⟨total, hTotal, hScope, ?_⟩
  intro value hValue
  have hSum := hEval (fun _ => value)
    (Scope.admits_ofAxis.mpr hValue)
  rw [Table.eval_ofAxis hScope] at hSum
  rw [hSum]
  refine (foldl_add_rat _ _).trans ?_
  rw [Scalar.zero_rat, zero_add, sum_filterMap]
  apply congrArg List.sum
  apply List.map_congr_left
  intro factor _
  unfold Messages.read Solver.messageToVar?
  cases hMessage :
      solver.toVar[(⟨factor, axis.var⟩ : Edge)]? with
  | none => rfl
  | some message =>
      exact (hSolver.toVar_fits _ _ hMessage).2.eval _

/- A belief is the credence of each value. -/
theorem Conforms.belief?_cell
    (hSolver : solver.Conforms registry)
    {axis : Axis}
    (hAxis : solver.graph.axis? axis.var = some axis)
    (hKnows : registry.Knows axis) :
    ∃ belief,
      solver.belief? axis.var = .ok (some belief) ∧
        belief.scope = Scope.ofAxis axis ∧
        ∀ value < axis.size,
          belief.cell value =
            solver.credence axis.var value := by
  rcases hSolver.received?_cell hKnows
      (solver.graph.factorsOf axis.var) with
    ⟨total, hTotal, hScope, hCell⟩
  refine ⟨total, ?_, hScope, hCell⟩
  simp only [Solver.belief?, hAxis, hTotal]
  rfl

/-
  A variable tells a factor its credence less what it heard
  from there, up to a constant.
-/
theorem Conforms.varMessage?_cell
    (hSolver : solver.Conforms registry)
    {axis : Axis}
    (hAxis : solver.graph.axis? axis.var = some axis)
    (hKnows : registry.Knows axis)
    {factor : FactorId}
    (hTouches : solver.graph.Touches factor axis.var) :
    ∃ message shift,
      solver.varMessage? ⟨factor, axis.var⟩ =
          .ok message ∧
        ∀ value < axis.size,
          message.cell value =
            solver.credence axis.var value -
              solver.toVar.read ⟨factor, axis.var⟩ value -
              shift := by
  rcases hSolver.received?_cell hKnows
      ((solver.graph.factorsOf axis.var).filter
        (· != factor)) with
    ⟨total, hTotal, hScope, hCell⟩
  refine
    ⟨total.withScalar .sub total.mean, total.mean, ?_, ?_⟩
  · simp only [Solver.varMessage?, hAxis, hTotal]
    rfl
  · intro value hValue
    have hIndex : value < total.scope.count := by
      rw [hScope, Scope.count_ofAxis]
      exact hValue
    have hMap :
        (total.withScalar .sub total.mean).cell value =
          total.cell value - total.mean :=
      Table.cell_map hIndex
    rw [hMap, hCell value hValue,
      sum_filter_ne (solver.graph.nodup_factorsOf _)
        (hSolver.coherent.mem_factorsOf.mpr hTouches)]
    rfl

end Solver

end JointMax

------------------------------------------------------------
-- Joint Choices of a Graph
------------------------------------------------------------

namespace JointMax

namespace Graph

variable {α : Type} {graph : Graph α}

/- Every factor admits the choice. -/
def Admits (graph : Graph α) (choice : VarId → Nat) : Prop :=
  ∀ factor table, graph.factor? factor = some table →
    table.scope.Admits choice

/- The value is in range for the variable in every factor. -/
def Allows
    (graph : Graph α)
    (var : VarId)
    (value : Nat) : Prop :=
  ∀ factor table, graph.factor? factor = some table →
    ∀ axis ∈ table.scope.axes, axis.var = var →
      value < axis.size

theorem admits_iff {choice : VarId → Nat} :
    graph.Admits choice ↔ InRange graph.Allows choice := by
  constructor
  · rintro hAdmits _ factor table hTable axis hAxis rfl
    exact hAdmits factor table hTable axis hAxis
  · intro hRange factor table hTable axis hAxis
    exact hRange axis.var factor table hTable axis hAxis rfl

/- Zero is a value of every variable. -/
theorem admits_zero (graph : Graph α) :
    graph.Admits fun _ => 0 := by
  intro _ _ _ axis _
  exact axis.size_pos

/- The variables of a factor, none if it is not there. -/
def scopeSet
    (graph : Graph α)
    (factor : FactorId) : Finset VarId :=
  match graph.factor? factor with
  | some table => table.vars.toFinset
  | none => ∅

theorem mem_scopeSet
    {factor : FactorId}
    {var : VarId} :
    var ∈ graph.scopeSet factor ↔
      graph.Touches factor var := by
  unfold scopeSet Touches
  cases graph.factor? factor with
  | none => simp
  | some table => simp

end Graph

namespace Solver

variable {α : Type}
variable {registry : Registry} {solver : Solver α}

theorem Conforms.allows_iff
    (hSolver : solver.Conforms registry)
    {axis : Axis}
    (hKnows : registry.Knows axis)
    {factor : FactorId}
    (hTouches : solver.graph.Touches factor axis.var)
    {value : Nat} :
    solver.graph.Allows axis.var value ↔
      value < axis.size := by
  constructor
  · intro hAllows
    rcases hTouches with ⟨table, hTable, hVar⟩
    rcases Scope.mem_vars_iff.mp hVar with
      ⟨found, hFound, hSame⟩
    have hSize := hAllows factor table hTable found hFound
      hSame
    have hKnown :=
      hSolver.factor_sizes factor table hTable found hFound
    rwa [hKnown.unique hKnows hSame] at hSize
  · intro hValue other table hTable found hFound hSame
    have hKnown :=
      hSolver.factor_sizes other table hTable found hFound
    rwa [hKnown.unique hKnows hSame]

/- A choice for one factor, with zeros elsewhere. -/
theorem Conforms.admits_splice
    (hSolver : solver.Conforms registry)
    {factor : FactorId}
    {table : Table α}
    (hTable : solver.graph.factor? factor = some table)
    {point : VarId → Nat}
    (hPoint : table.scope.Admits point) :
    solver.graph.Admits
      (splice table.vars.toFinset point fun _ => 0) := by
  intro other found hFound axis hAxis
  by_cases hVar : axis.var ∈ table.vars.toFinset
  · rw [splice_of_mem hVar]
    rcases Scope.mem_vars_iff.mp
        (List.mem_toFinset.mp hVar) with
      ⟨known, hKnown, hSame⟩
    have hSize := hPoint known hKnown
    have hFirst :=
      hSolver.factor_sizes factor table hTable known hKnown
    have hSecond :=
      hSolver.factor_sizes other found hFound axis hAxis
    rwa [hFirst.unique hSecond hSame] at hSize
  · rw [splice_of_not_mem hVar]
    exact axis.size_pos

end Solver

end JointMax

------------------------------------------------------------
-- What Factors Answer
------------------------------------------------------------

namespace JointMax

/- A shifted function has a shifted greatest value. -/
theorem isGreatest_image_add
    {β : Type}
    {points : Set β}
    {weight shifted : β → Rat}
    {best shift : Rat}
    (hShift : ∀ point ∈ points,
      shifted point = weight point + shift)
    (hBest : IsGreatest (weight '' points) best) :
    IsGreatest (shifted '' points) (best + shift) := by
  constructor
  · rcases hBest.1 with ⟨point, hPoint, hValue⟩
    exact ⟨point, hPoint, by rw [hShift point hPoint, hValue]⟩
  · rintro _ ⟨point, hPoint, rfl⟩
    have hBound := hBest.2 ⟨point, hPoint, rfl⟩
    rw [hShift point hPoint]
    linarith

namespace Solver

/- A factor's value, and all that it was told of it. -/
def joint
    (solver : Solver Rat)
    (factor : FactorId)
    (choice : VarId → Nat) : Rat :=
  match solver.graph.factor? factor with
  | some table =>
      table.eval choice +
        (table.vars.map fun var =>
          solver.toFactor.read ⟨factor, var⟩
            (choice var)).sum
  | none => 0

variable {registry : Registry} {solver next : Solver Rat}

theorem Conforms.addEach?_toFactor_eval
    (hSolver : solver.Conforms registry)
    {factor : FactorId}
    {table : Table Rat}
    (hTable : solver.graph.factor? factor = some table)
    (others : List VarId)
    (hOthers : ∀ other ∈ others, other ∈ table.vars) :
    ∃ total,
      table.addEach? (others.filterMap fun other =>
        solver.messageToFactor? other factor) =
          .ok total ∧
        total.scope = table.scope ∧
        ∀ choice, table.scope.Admits choice →
          total.eval choice =
            table.eval choice +
              (others.map fun other =>
                solver.toFactor.read ⟨factor, other⟩
                  (choice other)).sum := by
  rcases hSolver.addEach?_toFactor hTable others hOthers
    with ⟨total, hTotal, hScope, hEval⟩
  refine ⟨total, hTotal, hScope, ?_⟩
  intro choice hAdmits
  rw [hEval choice hAdmits]
  refine (foldl_add_rat _ _).trans ?_
  rw [sum_filterMap]
  apply congrArg (table.eval choice + List.sum ·)
  apply List.map_congr_left
  intro other hOther
  unfold Messages.read Solver.messageToFactor?
  cases hMessage :
      solver.toFactor[(⟨factor, other⟩ : Edge)]? with
  | none => rfl
  | some message =>
      exact (hSolver.toFactor_fits _ _ hMessage).2.eval _

/-
  A factor tells a variable the greatest of its values, each
  with what its other variables say of it.
-/
theorem Conforms.factorMessage?_isGreatest
    (hSolver : solver.Conforms registry)
    {factor : FactorId}
    {table : Table Rat}
    (hTable : solver.graph.factor? factor = some table)
    {axis : Axis}
    (hAxis : axis ∈ table.scope.axes) :
    ∃ message,
      solver.factorMessage? factor table axis.var =
          .ok message ∧
        ∀ value < axis.size,
          IsGreatest
            (solver.joint factor '' {point |
              table.scope.Admits point ∧
                point axis.var = value})
            (message.cell value +
              solver.toFactor.read ⟨factor, axis.var⟩
                value) := by
  rcases hSolver.addEach?_toFactor_eval hTable
      (table.vars.filter (· != axis.var))
      (fun other hOther => (List.mem_filter.mp hOther).1) with
    ⟨total, hTotal, hScope, hEval⟩
  rcases factorMessage?_of_total hAxis hTotal hScope with
    ⟨message, hMessage, _, hFold⟩
  refine ⟨message, hMessage, ?_⟩
  intro value hValue
  have hSlice :=
    Table.isGreatest_of_foldFirst
      (hScope ▸ Scope.includes_ofAxis.mpr hAxis)
      (hFold value hValue)
  have hPoints :
      {point | total.scope.Admits point ∧
        (Scope.ofAxis axis).Agree point fun _ => value} =
      {point | table.scope.Admits point ∧
        point axis.var = value} := by
    rw [hScope]
    simp [Scope.Agree, Scope.vars, Scope.ofAxis]
  rw [hPoints] at hSlice
  apply isGreatest_image_add _ hSlice
  rintro point ⟨hPoint, hAt⟩
  have hOthers :=
    sum_filter_ne table.scope.nodup_vars
      (Scope.mem_vars hAxis)
      (fun other => solver.toFactor.read ⟨factor, other⟩
        (point other))
  rw [hEval point hPoint, Solver.joint, hTable]
  dsimp only
  change _ = table.eval point +
    ((table.scope.vars.filter (· != axis.var)).map _).sum
      + _
  rw [hOthers, hAt]
  change _ + (table.scope.vars.map _).sum = _
  ring

end Solver

end JointMax
