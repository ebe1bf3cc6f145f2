import Mathlib
import JointMax.Proofs.Convergence

/-
  A sweep as a system of equations. What a variable tells a
  factor is a sum over what its other factors had told it
  before the sweep, less the mean of that sum; what a factor
  tells a variable is the largest of its scores, which are
  sums over what its other variables tell it in the sweep.

  Main declarations:
    * `Table.map_cell_places`, the values of a slice
    * `Solver.heard` and `Solver.score`
    * `Solver.Equations`
    * `Solver.Reachable.equations_of_sweep`
-/

------------------------------------------------------------
-- Slices in Order
------------------------------------------------------------

namespace JointMax

namespace Table

variable {α : Type} [Scalar α] {table : Table α}

/- The slice at a value of one variable, in its order. -/
theorem map_cell_places
    {axis : Axis}
    (hAxis : axis ∈ table.scope.axes)
    (value : Nat) :
    (table.places (Scope.ofAxis axis)
      fun _ => value).map table.cell =
      (table.scope.choices.filter fun choice =>
        choice axis.var = value).map table.eval := by
  unfold places Scope.choices
  rw [List.filter_map, List.map_map]
  -- Both filters ask for the value of the one variable, and
  -- it is the same in the two revised choices.
  have hPlaces :
      (List.range table.scope.count).filter (fun index =>
        decide (∀ var ∈ (Scope.ofAxis axis).vars,
          table.scope.revise index (fun _ => value) var =
            value)) =
        (List.range table.scope.count).filter
          ((fun choice : VarId → Nat =>
            decide (choice axis.var = value)) ∘
              fun index =>
                table.scope.revise index fun _ => 0) := by
    apply List.filter_congr
    intro index _
    have hVar :=
      Scope.agree_revise index (fun _ => value) (fun _ => 0)
        axis.var (Scope.mem_vars hAxis)
    simp [Scope.vars, Scope.ofAxis, hVar]
  rw [hPlaces]
  apply List.map_congr_left
  intro index hIndex
  have hBelow :=
    List.mem_range.mp (List.mem_filter.mp hIndex).1
  exact cell_eq_eval_revise (fun _ => 0) hBelow

end Table

end JointMax

------------------------------------------------------------
-- The Equations
------------------------------------------------------------

namespace JointMax

variable {α : Type} [Scalar α]

/-
  What the messages along some edges say of a choice, in the
  order of the edges. Edges without a message say nothing.
-/
def Messages.told
    (messages : Messages α)
    (edges : List Edge)
    (choice : VarId → Nat) : List α :=
  edges.filterMap fun edge =>
    messages[edge]?.map fun message =>
      message.cell (choice edge.var)

namespace Solver

/-
  All that the variable of an edge has been told of a value,
  save by the factor of the edge, added from zero in the
  order of the factors.
-/
def heard
    (solver : Solver α)
    (edge : Edge)
    (value : Nat) : α :=
  let others :=
    (solver.graph.factorsOf edge.var).filter
      (· != edge.factor)
  (solver.toVar.told
    (others.map fun factor => ⟨factor, edge.var⟩)
    fun _ => value).foldl (· + ·) Scalar.zero

/- The mean of what was heard, over all values. -/
def heardMean
    (solver : Solver α)
    (edge : Edge)
    (size : Nat) : α :=
  laneSum ((List.range size).map (solver.heard edge)) /
    Scalar.ofNat size

/-
  A joint value's worth to the factor of an edge: the value of
  the table, and onto it what the variables other than the
  edge's tell of it, added in the order of the variables.
-/
def score
    (solver : Solver α)
    (edge : Edge)
    (table : Table α)
    (choice : VarId → Nat) : α :=
  let others := table.vars.filter (· != edge.var)
  (solver.toFactor.told
    (others.map fun other => ⟨edge.factor, other⟩)
    choice).foldl (· + ·) (table.eval choice)

/-
  The two equations of an edge. The message to the factor is
  computed from messages to the variable before the sweep,
  and the one to the variable from messages of the sweep.
  Factors, variables and joint values come in their order,
  and none is left out.
-/
structure Equations
    (solver next : Solver α)
    (edge : Edge)
    (table : Table α)
    (axis : Axis) : Prop where
  factor :
    solver.graph.factor? edge.factor = some table
  axis_mem : axis ∈ table.scope.axes
  axis_var : axis.var = edge.var
  factors_increasing :
    Increasing (solver.graph.factorsOf edge.var)
  mem_factors : ∀ factor,
    factor ∈ solver.graph.factorsOf edge.var ↔
      solver.graph.Touches factor edge.var
  vars_increasing : Increasing table.vars
  choices_ordered :
    table.scope.choices.map table.scope.number =
      List.range table.scope.count
  choices_all : ∀ choice, table.scope.Admits choice →
    ∃ listed ∈ table.scope.choices,
      table.scope.Agree listed choice
  toFactor :
    ∃ message,
      next.toFactor[edge]? = some message ∧
        message.scope = Scope.ofAxis axis ∧
        ∀ value < axis.size,
          message.cell value =
            solver.heard edge value -
              solver.heardMean edge axis.size
  told_all : ∀ other ∈ table.vars,
    (⟨edge.factor, other⟩ : Edge) ∈ next.toFactor
  toVar :
    ∃ message,
      next.toVar[edge]? = some message ∧
        message.scope = Scope.ofAxis axis ∧
        ∀ value < axis.size,
          foldFirst Scalar.larger
            ((table.scope.choices.filter fun choice =>
              choice axis.var = value).map
                (next.score edge table)) =
            some (message.cell value)

end Solver

end JointMax

------------------------------------------------------------
-- What is Told
------------------------------------------------------------

namespace JointMax

namespace Solver

variable {α : Type} [Scalar α]
variable {registry : Registry} {solver : Solver α}

/- Messages read as tables say what is told of a choice. -/
theorem Conforms.told_toVar
    (hSolver : solver.Conforms registry)
    (var : VarId)
    (factors : List FactorId)
    (choice : VarId → Nat) :
    (factors.filterMap fun factor =>
      solver.messageToVar? factor var).map
        (fun table => table.eval choice) =
      solver.toVar.told
        (factors.map fun factor => ⟨factor, var⟩)
        choice := by
  unfold Messages.told Solver.messageToVar?
  rw [List.map_filterMap, List.filterMap_map]
  apply List.filterMap_congr
  intro factor _
  apply Option.map_congr
  intro message hMessage
  exact (hSolver.toVar_fits _ message hMessage).2.eval choice

theorem Conforms.told_toFactor
    (hSolver : solver.Conforms registry)
    (factor : FactorId)
    (vars : List VarId)
    (choice : VarId → Nat) :
    (vars.filterMap fun var =>
      solver.messageToFactor? var factor).map
        (fun table => table.eval choice) =
      solver.toFactor.told
        (vars.map fun var => ⟨factor, var⟩)
        choice := by
  unfold Messages.told Solver.messageToFactor?
  rw [List.map_filterMap, List.filterMap_map]
  apply List.filterMap_congr
  intro var _
  apply Option.map_congr
  intro message hMessage
  exact
    (hSolver.toFactor_fits _ message hMessage).2.eval choice

end Solver

end JointMax

------------------------------------------------------------
-- Messages of Variables
------------------------------------------------------------

namespace JointMax

namespace Solver

variable {α : Type} [Scalar α]
variable {registry : Registry} {solver : Solver α}

/- A variable tells what it heard, less the mean of that. -/
theorem Conforms.varMessage?_heard
    (hSolver : solver.Conforms registry)
    (factor : FactorId)
    {axis : Axis}
    (hAxis : solver.graph.axis? axis.var = some axis)
    (hKnows : registry.Knows axis) :
    ∃ message,
      solver.varMessage? ⟨factor, axis.var⟩ =
          .ok message ∧
        message.scope = Scope.ofAxis axis ∧
        ∀ value < axis.size,
          message.cell value =
            solver.heard ⟨factor, axis.var⟩ value -
              solver.heardMean ⟨factor, axis.var⟩
                axis.size := by
  rcases hSolver.received? hKnows
      ((solver.graph.factorsOf axis.var).filter
        (· != factor)) with
    ⟨total, hTotal, hScope, hEval⟩
  have hCount : total.scope.count = axis.size := by
    rw [hScope, Scope.count_ofAxis]
  have hCell : ∀ value < axis.size,
      total.cell value =
        solver.heard ⟨factor, axis.var⟩ value := by
    intro value hValue
    have hSum := hEval (fun _ => value)
      (Scope.admits_ofAxis.mpr hValue)
    rw [Table.eval_ofAxis hScope, hSolver.told_toVar]
      at hSum
    exact hSum
  have hMean :
      total.mean =
        solver.heardMean ⟨factor, axis.var⟩ axis.size := by
    have hValues :
        total.values.toList =
          (List.range axis.size).map
            (solver.heard ⟨factor, axis.var⟩) := by
      rw [Table.toList_values, hCount]
      apply List.map_congr_left
      intro value hValue
      exact hCell value (List.mem_range.mp hValue)
    rw [Table.mean, Table.sum, heardMean, hValues,
      total.size_eq, hCount]
  refine ⟨total.withScalar .sub total.mean, ?_, hScope, ?_⟩
  · simp only [Solver.varMessage?, hAxis, hTotal]
    rfl
  · intro value hValue
    have hMap :
        (total.withScalar .sub total.mean).cell value =
          total.cell value - total.mean :=
      Table.cell_map (by rwa [hCount])
    rw [hMap, hCell value hValue, hMean]

end Solver

end JointMax

------------------------------------------------------------
-- Messages of Factors
------------------------------------------------------------

namespace JointMax

namespace Solver

variable {α : Type} [Scalar α]
variable {registry : Registry} {solver next : Solver α}

/- A factor tells the largest score under each value. -/
theorem Conforms.factorMessage?_score
    (hSolver : solver.Conforms registry)
    {factor : FactorId}
    {table : Table α}
    (hTable : solver.graph.factor? factor = some table)
    {axis : Axis}
    (hAxis : axis ∈ table.scope.axes) :
    ∃ message,
      solver.factorMessage? factor table axis.var =
          .ok message ∧
        message.scope = Scope.ofAxis axis ∧
        ∀ value < axis.size,
          foldFirst Scalar.larger
            ((table.scope.choices.filter fun choice =>
              choice axis.var = value).map
                (solver.score ⟨factor, axis.var⟩ table)) =
            some (message.cell value) := by
  rcases hSolver.addEach?_toFactor hTable
      (table.vars.filter (· != axis.var))
      (fun other hOther => (List.mem_filter.mp hOther).1) with
    ⟨total, hTotal, hScope, hEval⟩
  rcases factorMessage?_of_total hAxis hTotal hScope with
    ⟨message, hMessage, hMessageScope, hFold⟩
  refine ⟨message, hMessage, hMessageScope, ?_⟩
  intro value hValue
  have hSlice := hFold value hValue
  rw [Table.map_cell_places (hScope ▸ hAxis), hScope]
    at hSlice
  rw [← hSlice]
  apply congrArg (foldFirst Scalar.larger)
  apply List.map_congr_left
  intro choice hChoice
  have hAdmits := Scope.admits_of_mem_choices
    (List.mem_filter.mp hChoice).1
  rw [hEval choice hAdmits, hSolver.told_toFactor]
  rfl

end Solver

end JointMax

------------------------------------------------------------
-- One Sweep
------------------------------------------------------------

namespace JointMax

namespace Solver

variable {α : Type} [Scalar α]
variable {registry : Registry} {solver next : Solver α}

/- A sweep solves the equations of every edge. -/
theorem Conforms.equations_of_sweep?
    (hSolver : solver.Conforms registry)
    {delta : α}
    (hSweep : solver.sweep? = .ok (next, delta))
    {edge : Edge}
    (hEdge : edge ∈ solver.graph.edges) :
    ∃ table axis, Equations solver next edge table axis := by
  rcases hSolver.of_sweep? hSweep with
    ⟨hNext, hSwept, _⟩
  rcases edge with ⟨factor, var⟩
  rcases hSolver.coherent.mem_edges.mp hEdge with
    ⟨table, hTable, hVar⟩
  rcases Scope.mem_vars_iff.mp hVar with
    ⟨axis, hAxis, rfl⟩
  have hKnows :=
    hSolver.factor_sizes factor table hTable axis hAxis
  have hFound := hSolver.axis?_eq_of_mem hTable hAxis
  rcases hSolver.varMessage?_heard factor hFound hKnows
    with ⟨told, hTold, hToldScope, hToldCell⟩
  rcases hNext.factorMessage?_score
      (hSwept.graph_eq ▸ hTable) hAxis with
    ⟨answer, hAnswer, hAnswerScope, hAnswerCell⟩
  have hAll : ∀ other ∈ table.vars,
      (⟨factor, other⟩ : Edge) ∈ next.toFactor := by
    intro other hOther
    rw [(hSolver.current_of_sweep? hSweep).toFactor_keys,
      hNext.coherent.mem_edges]
    exact ⟨table, hSwept.graph_eq ▸ hTable, hOther⟩
  exact ⟨table, axis,
    { factor := hTable
      axis_mem := hAxis
      axis_var := rfl
      factors_increasing :=
        solver.graph.increasing_factorsOf axis.var
      mem_factors := fun _ =>
        hSolver.coherent.mem_factorsOf
      vars_increasing := table.scope.increasing_vars
      choices_ordered := Scope.map_number_choices
      choices_all := fun _ => Scope.exists_mem_choices
      toFactor := ⟨told,
        (hSwept.toFactor_iff _ told).mpr ⟨hEdge, hTold⟩,
        hToldScope, hToldCell⟩
      told_all := hAll
      toVar := ⟨answer,
        (hSwept.toVar_iff _ answer).mpr
          ⟨table, hTable, hVar, hAnswer⟩,
        hAnswerScope, hAnswerCell⟩ }⟩

theorem Equations.withLastRun
    {edge : Edge}
    {table : Table α}
    {axis : Axis}
    (hEdge : Equations solver next edge table axis)
    (lastRun : Option (RunStats α)) :
    Equations solver { next with lastRun := lastRun } edge
      table axis :=
  { hEdge with }

/- A run within one sweep performs it. -/
theorem Ran.exists_single
    {final : Solver α}
    {tolerance : α}
    {deltas : List α}
    (hRan : Ran solver 1 tolerance deltas final) :
    ∃ delta,
      deltas = [delta] ∧
        solver.sweep? = .ok (final, delta) := by
  rcases hRan with ⟨hSweeps, hWithin, _, hExhausted⟩
  cases hSweeps with
  | nil =>
      have hNone := hExhausted rfl
      simp at hNone
  | cons head tail =>
      cases tail with
      | nil => exact ⟨_, rfl, head⟩
      | cons _ _ => simp at hWithin

/-
  One sweep of a solver with some factor leaves messages each
  way on the edges of the graph and nowhere else, and on each
  edge they solve its equations.
-/
theorem Reachable.equations_of_sweep
    (hReachable : solver.Reachable registry)
    (hSome : solver.graph.isEmpty = false)
    (tolerance : α) :
    ∃ run,
      solver.optimiseWith? 1 tolerance = .ok run ∧
        run.result.1 = 1 ∧
        run.result.2.graph = solver.graph ∧
        (∀ edge,
          (edge ∈ run.result.2.toFactor ↔
            edge ∈ solver.graph.edges) ∧
          (edge ∈ run.result.2.toVar ↔
            edge ∈ solver.graph.edges)) ∧
        ∀ edge ∈ solver.graph.edges, ∃ table axis,
          Equations solver run.result.2 edge table axis := by
  have hSolver := hReachable.conforms
  rcases hSolver.optimiseWith? hSome 1 tolerance with
    ⟨run, deltas, final, hRun, hRan, hResult⟩
  rcases hRan.exists_single with ⟨delta, rfl, hSweep⟩
  have hGraph : final.graph = solver.graph :=
    (hSolver.of_sweep? hSweep).2.1.graph_eq
  have hCurrent := hSolver.current_of_sweep? hSweep
  refine ⟨run, hRun, ?_⟩
  rw [hResult]
  refine ⟨rfl, hGraph, ?_, ?_⟩
  · intro edge
    rw [← hGraph]
    exact ⟨hCurrent.toFactor_keys edge,
      hCurrent.toVar_keys edge⟩
  · intro edge hEdge
    rcases hSolver.equations_of_sweep? hSweep hEdge with
      ⟨table, axis, hEquations⟩
    exact ⟨table, axis, hEquations.withLastRun _⟩

/- Messages of earlier runs are heard in the next sweep. -/
theorem equations_rebalanced :
    ∃ run,
      rebalanced.optimiseWith? 1 0 = .ok run ∧
        run.result.1 = 1 ∧
        (⟨0, 2⟩ : Edge) ∈ run.result.2.toVar ∧
        ∃ table axis,
          Equations rebalanced run.result.2 ⟨0, 2⟩
            table axis := by
  have hSome : rebalanced.graph.isEmpty = false := by
    decide +kernel
  have hEdge :
      (⟨0, 2⟩ : Edge) ∈ rebalanced.graph.edges := by
    decide +kernel
  rcases reachable_rebalanced.equations_of_sweep hSome 0 with
    ⟨run, hRun, hCount, _, hKeys, hEquations⟩
  exact ⟨run, hRun, hCount, (hKeys _).2.mpr hEdge,
    hEquations _ hEdge⟩

end Solver

end JointMax
