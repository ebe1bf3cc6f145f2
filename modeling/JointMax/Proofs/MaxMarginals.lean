import Mathlib
import JointMax.Proofs.FixedPoints
import JointMax.Proofs.Recentring
import JointMax.Proofs.Stopping

/-
  Fixed points on graphs of any shape. Where one more sweep
  would leave every message as it is, the factors agree with
  the beliefs: with one variable fixed, the greatest value of
  a factor, with what all of its variables tell it, is the
  belief in the fixed value, up to one constant.

  Main declarations:
    * `Solver.MaxConsistent`
    * `Solver.Reachable.maxConsistent_of_steady`
-/

------------------------------------------------------------
-- Max-Consistent Edges
------------------------------------------------------------

namespace JointMax

namespace Solver

/-
  The edge has a message each way, and the max-marginal of its
  factor, with all that it is told, is the belief in its
  variable. The constant is the same for all values.
-/
structure MaxConsistent
    (solver : Solver Rat)
    (edge : Edge)
    (table : Table Rat)
    (axis : Axis)
    (belief : Table Rat) : Prop where
  factor :
    solver.graph.factor? edge.factor = some table
  axis_mem : axis ∈ table.scope.axes
  axis_var : axis.var = edge.var
  told : edge ∈ solver.toFactor
  answered : edge ∈ solver.toVar
  belief_eq : solver.belief? edge.var = .ok (some belief)
  belief_scope : belief.scope = Scope.ofAxis axis
  greatest : ∃ shift, ∀ value < axis.size,
    IsGreatest
      ((fun choice =>
        table.eval choice +
          (table.vars.map fun var =>
            solver.toFactor.read ⟨edge.factor, var⟩
              (choice var)).sum) ''
        {choice | table.scope.Admits choice ∧
          choice edge.var = value})
      (belief.cell value + shift)

variable {registry : Registry} {solver next : Solver Rat}

/- Scores of factors depend on what variables tell alone. -/
theorem joint_congr_of_eq
    (hGraph : next.graph = solver.graph)
    (hToFactor : next.toFactor = solver.toFactor) :
    next.joint = solver.joint := by
  funext factor choice
  unfold joint
  rw [hGraph, hToFactor]

/- A steady solver is calibrated with its own scores. -/
theorem Conforms.calibrated_of_steady
    (hSolver : solver.Conforms registry)
    (hSteady : solver.Steady) :
    Calibrated solver.graph.scopeSet solver.graph.Allows
      solver.joint solver.credence := by
  rcases hSteady with
    ⟨next, _, hSweep, hToVar, hToFactor⟩
  rcases hSolver.of_sweep? hSweep with ⟨hNext, hSwept, _⟩
  have hCalibrated :=
    hSwept.calibrated hSolver hNext hToVar
  rwa [joint_congr_of_eq hSwept.graph_eq hToFactor,
    credence_congr hSwept.graph_eq hToVar, hSwept.graph_eq]
    at hCalibrated

/- A steady solver has messages both ways on every edge. -/
theorem Conforms.mem_messages_of_steady
    (hSolver : solver.Conforms registry)
    (hSteady : solver.Steady)
    {edge : Edge}
    (hEdge : edge ∈ solver.graph.edges) :
    edge ∈ solver.toFactor ∧ edge ∈ solver.toVar := by
  rcases hSteady with
    ⟨next, _, hSweep, hToVar, hToFactor⟩
  have hGraph : next.graph = solver.graph :=
    (hSolver.of_sweep? hSweep).2.1.graph_eq
  have hCurrent := hSolver.current_of_sweep? hSweep
  rw [← hToVar, ← hToFactor, hCurrent.toFactor_keys,
    hCurrent.toVar_keys, hGraph]
  exact ⟨hEdge, hEdge⟩

/-
  At a fixed point every factor agrees with the beliefs in its
  variables, whatever the shape of the graph.
-/
theorem Reachable.maxConsistent_of_steady
    (hReachable : solver.Reachable registry)
    (hSteady : solver.Steady) :
    ∀ edge ∈ solver.graph.edges, ∃ table axis belief,
      solver.MaxConsistent edge table axis belief := by
  have hSolver := hReachable.conforms
  intro edge hEdge
  rcases hSolver.mem_messages_of_steady hSteady hEdge with
    ⟨hTold, hAnswered⟩
  rcases edge with ⟨factor, var⟩
  have hTouches := hSolver.coherent.mem_edges.mp hEdge
  rcases hTouches with ⟨table, hTable, hVar⟩
  rcases Scope.mem_vars_iff.mp hVar with ⟨axis, hAxis, rfl⟩
  have hKnows :=
    hSolver.factor_sizes factor table hTable axis hAxis
  have hTouches :
      solver.graph.Touches factor axis.var :=
    ⟨table, hTable, hVar⟩
  have hFound := hSolver.axis?_eq_of_mem hTable hAxis
  rcases hSolver.belief?_cell hFound hKnows with
    ⟨belief, hBelief, hScope, hCell⟩
  rcases (hSolver.calibrated_of_steady hSteady).greatest
      factor axis.var (Graph.mem_scopeSet.mpr hTouches) with
    ⟨shift, hShift⟩
  refine ⟨table, axis, belief, hTable, hAxis, rfl, hTold,
    hAnswered, hBelief, hScope, shift, ?_⟩
  intro value hValue
  have hGreatest := hShift value
    ((hSolver.allows_iff hKnows hTouches).mpr hValue)
  have hFixed : ∀ first second : VarId → Nat,
      (∀ var ∈ table.vars, first var = second var) →
        first axis.var = value →
          second axis.var = value := by
    intro first second hAgree hFirst
    rw [← hAgree axis.var hVar]
    exact hFirst
  rw [hSolver.joint_image hTable _ hFixed,
    funext (joint_eq hTable)] at hGreatest
  rw [hCell value hValue]
  exact hGreatest

/-
  Two sweeps bring two factors of the same two variables to
  rest, though they lie on a cycle.
-/
@[irreducible]
def restedLoop : Solver Rat :=
  (start twoCoins (Config.ofBounds 10 0)).afterAll
    [.setFactor 0 [1, 2] #[-2, -2, 2, 0],
      .setFactor 1 [1, 2] #[2, -2, 2, 0],
      .optimiseWith 2 (-1)]

theorem reachable_restedLoop :
    restedLoop.Reachable twoCoins := by
  unfold restedLoop
  exact ⟨_, _, rfl⟩

theorem steady_restedLoop : restedLoop.Steady := by
  have hSweep :
      (restedLoop.sweep?.map fun swept =>
        (swept.1.toVar, swept.1.toFactor)) =
        .ok (restedLoop.toVar, restedLoop.toFactor) := by
    decide +kernel
  rcases reachable_restedLoop.conforms.sweep? with
    ⟨next, delta, hNext, _⟩
  rw [hNext] at hSweep
  have hPair := Except.ok.inj hSweep
  exact ⟨next, delta, hNext, congrArg Prod.fst hPair,
    congrArg Prod.snd hPair⟩

/- On a cycle, with messages that say something. -/
theorem maxConsistent_restedLoop :
    restedLoop.graph.isCyclic = true ∧
      restedLoop.Steady ∧
      restedLoop.toFactor.read ⟨0, 1⟩ 0 ≠ 0 ∧
      ∃ table axis belief,
        restedLoop.MaxConsistent ⟨0, 1⟩ table axis
          belief := by
  have hEdge :
      (⟨0, 1⟩ : Edge) ∈ restedLoop.graph.edges := by
    decide +kernel
  exact ⟨by decide +kernel, steady_restedLoop,
    by decide +kernel,
    reachable_restedLoop.maxConsistent_of_steady
      steady_restedLoop _ hEdge⟩

end Solver

end JointMax
