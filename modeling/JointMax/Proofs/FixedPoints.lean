import Mathlib
import JointMax.Proofs.Argmax
import JointMax.Proofs.Credence
import JointMax.Proofs.Runs

/-
  Where a further sweep tells the variables nothing new,
  factors and beliefs are calibrated: with one variable of a
  factor fixed, the factor's greatest score is the belief in
  that value, up to a constant. This needs no assumption on
  the shape of the graph.

  Main declarations:
    * `Solver.Conforms.isGreatest_joint`
    * `Solver.calibrated_of_sweep?`
-/

------------------------------------------------------------
-- Scores of Factors
------------------------------------------------------------

namespace JointMax

namespace Solver

variable {registry : Registry} {solver next : Solver Rat}

theorem joint_eq
    {factor : FactorId}
    {table : Table Rat}
    (hTable : solver.graph.factor? factor = some table)
    (choice : VarId → Nat) :
    solver.joint factor choice =
      table.eval choice +
        (table.vars.map fun var =>
          solver.toFactor.read ⟨factor, var⟩
            (choice var)).sum := by
  unfold joint
  rw [hTable]

/- The score of a factor is a function of its variables. -/
theorem joint_congr
    {factor : FactorId}
    {first second : VarId → Nat}
    (hAgree : ∀ var ∈ solver.graph.scopeSet factor,
      first var = second var) :
    solver.joint factor first =
      solver.joint factor second := by
  cases hTable : solver.graph.factor? factor with
  | none => rw [joint, joint, hTable]
  | some table =>
      have hVars : ∀ var ∈ table.vars,
          first var = second var := by
        intro var hVar
        apply hAgree
        rw [Graph.mem_scopeSet]
        exact ⟨table, hTable, hVar⟩
      have hTold :
          table.vars.map (fun var =>
            solver.toFactor.read ⟨factor, var⟩ (first var)) =
          table.vars.map fun var =>
            solver.toFactor.read ⟨factor, var⟩
              (second var) := by
        apply List.map_congr_left
        intro var hVar
        rw [hVars var hVar]
      rw [joint_eq hTable, joint_eq hTable, hTold,
        Table.eval_congr hVars]

/- Only a factor's own variables bound its scores. -/
theorem Conforms.joint_image
    (hSolver : solver.Conforms registry)
    {factor : FactorId}
    {table : Table Rat}
    (hTable : solver.graph.factor? factor = some table)
    (property : (VarId → Nat) → Prop)
    (hProperty : ∀ first second,
      (∀ var ∈ table.vars, first var = second var) →
        property first → property second) :
    solver.joint factor '' {choice |
        InRange solver.graph.Allows choice ∧
          property choice} =
      solver.joint factor '' {point |
        table.scope.Admits point ∧ property point} := by
  have hSet : solver.graph.scopeSet factor =
      table.vars.toFinset := by
    unfold Graph.scopeSet
    rw [hTable]
  apply Set.Subset.antisymm
  · rintro _ ⟨choice, ⟨hChoice, hHolds⟩, rfl⟩
    have hAdmits := Graph.admits_iff.mpr hChoice
    exact ⟨choice,
      ⟨hAdmits factor table hTable, hHolds⟩, rfl⟩
  · rintro _ ⟨point, ⟨hPoint, hHolds⟩, rfl⟩
    have hAgree : ∀ var ∈ table.vars.toFinset,
        splice table.vars.toFinset point (fun _ => 0) var =
          point var :=
      fun var hVar => splice_of_mem hVar
    refine
      ⟨splice table.vars.toFinset point fun _ => 0,
        ⟨?_, ?_⟩, ?_⟩
    · exact Graph.admits_iff.mp
        (hSolver.admits_splice hTable hPoint)
    · apply hProperty point _ _ hHolds
      intro var hVar
      exact (hAgree var (List.mem_toFinset.mpr hVar)).symm
    · apply joint_congr
      rw [hSet]
      exact hAgree

/- Every factor has a greatest score. -/
theorem Conforms.exists_isGreatest_joint
    (hSolver : solver.Conforms registry)
    (factor : FactorId) :
    ∃ best,
      IsGreatest
        (solver.joint factor '' {choice |
          InRange solver.graph.Allows choice}) best := by
  cases hTable : solver.graph.factor? factor with
  | none =>
      have hZero : ∀ choice,
          solver.joint factor choice = 0 := by
        intro choice
        unfold joint
        rw [hTable]
      refine ⟨0, ?_, ?_⟩
      · exact ⟨fun _ => 0,
          Graph.admits_iff.mp solver.graph.admits_zero,
          hZero _⟩
      · rintro _ ⟨choice, _, rfl⟩
        rw [hZero]
  | some table =>
      rcases hSolver.addEach?_toFactor_eval hTable table.vars
          (fun _ hVar => hVar) with
        ⟨total, _, hScope, hEval⟩
      have hJoint : ∀ point, table.scope.Admits point →
          solver.joint factor point = total.eval point := by
        intro point hPoint
        rw [joint_eq hTable, hEval point hPoint]
      have hImage :=
        hSolver.joint_image hTable (fun _ => True)
          (fun _ _ _ _ => trivial)
      simp only [and_true] at hImage
      rw [hImage]
      have hPlace := total.argmax_lt
      refine ⟨total.cell total.argmax, ?_, ?_⟩
      · have hPoint :
            table.scope.Admits
              (total.scope.revise total.argmax
                fun _ => 0) := by
          rw [← hScope]
          exact Scope.admits_revise hPlace
        refine ⟨_, hPoint, ?_⟩
        rw [hJoint _ hPoint,
          ← Table.cell_eq_eval_revise (fun _ => 0) hPlace]
      · rintro _ ⟨point, hPoint, rfl⟩
        rw [hJoint point hPoint, Table.eval_eq_cell]
        apply Table.le_argmax
        rw [hScope]
        exact Scope.number_lt hPoint

end Solver

end JointMax

------------------------------------------------------------
-- Calibration
------------------------------------------------------------

namespace JointMax

namespace Solver

variable {registry : Registry} {solver next : Solver Rat}

/-
  After a sweep, the greatest score of a factor under a value
  of one of its variables is what both tell each other of it.
-/
theorem Swept.isGreatest_joint
    (hNext : next.Conforms registry)
    (hSwept : solver.Swept next)
    {factor : FactorId}
    {table : Table Rat}
    (hTable : next.graph.factor? factor = some table)
    {axis : Axis}
    (hAxis : axis ∈ table.scope.axes)
    {value : Nat}
    (hValue : value < axis.size) :
    IsGreatest
      (next.joint factor '' {choice |
        InRange next.graph.Allows choice ∧
          choice axis.var = value})
      (next.toVar.read ⟨factor, axis.var⟩ value +
        next.toFactor.read ⟨factor, axis.var⟩ value) := by
  have hVar : axis.var ∈ table.vars :=
    Scope.mem_vars hAxis
  rcases hNext.factorMessage?_isGreatest hTable hAxis with
    ⟨message, hMessage, hGreatest⟩
  have hOld : solver.graph.factor? factor = some table := by
    rw [← hSwept.graph_eq]
    exact hTable
  have hFound :
      next.toVar[(⟨factor, axis.var⟩ : Edge)]? =
        some message :=
    (hSwept.toVar_iff _ _).mpr
      ⟨table, hOld, hVar, hMessage⟩
  have hRead :
      next.toVar.read ⟨factor, axis.var⟩ value =
        message.cell value := by
    unfold Messages.read
    rw [hFound]
    rfl
  rw [hRead, hNext.joint_image hTable
    (fun choice => choice axis.var = value)]
  · exact hGreatest value hValue
  · intro first second hAgree hFirst
    rw [← hAgree axis.var hVar]
    exact hFirst

/- What a variable tells a factor after a sweep. -/
theorem Swept.read_toFactor
    (hSolver : solver.Conforms registry)
    (hSwept : solver.Swept next)
    {axis : Axis}
    (hKnows : registry.Knows axis)
    {factor : FactorId}
    (hTouches : solver.graph.Touches factor axis.var) :
    ∃ shift, ∀ value < axis.size,
      next.toFactor.read ⟨factor, axis.var⟩ value =
        solver.credence axis.var value -
          solver.toVar.read ⟨factor, axis.var⟩ value -
          shift := by
  have hFound := hSolver.axis?_eq_of_knows hKnows hTouches
  rcases hSolver.varMessage?_cell hFound hKnows hTouches
    with ⟨message, shift, hMessage, hCell⟩
  have hEdge :
      (⟨factor, axis.var⟩ : Edge) ∈ solver.graph.edges :=
    hSolver.coherent.mem_edges.mpr hTouches
  have hSent :
      next.toFactor[(⟨factor, axis.var⟩ : Edge)]? =
        some message :=
    (hSwept.toFactor_iff _ _).mpr ⟨hEdge, hMessage⟩
  refine ⟨shift, ?_⟩
  intro value hValue
  rw [← hCell value hValue, Messages.read, hSent]
  rfl

/- Beliefs are sums over the messages of factors alone. -/
theorem credence_congr
    (hGraph : next.graph = solver.graph)
    (hToVar : next.toVar = solver.toVar) :
    next.credence = solver.credence := by
  funext var value
  unfold credence
  rw [hGraph, hToVar]

/-
  If a sweep leaves the messages of factors as they are, then
  factors and beliefs are calibrated.
-/
theorem Swept.calibrated
    (hSolver : solver.Conforms registry)
    (hNext : next.Conforms registry)
    (hSwept : solver.Swept next)
    (hToVar : next.toVar = solver.toVar) :
    Calibrated next.graph.scopeSet next.graph.Allows
      next.joint next.credence where
  congr := by
    intro factor first second hAgree
    exact joint_congr hAgree
  top := hNext.exists_isGreatest_joint
  greatest := by
    intro factor var hVar
    have hTouches := Graph.mem_scopeSet.mp hVar
    rcases hTouches with ⟨table, hTable, hMember⟩
    rcases Scope.mem_vars_iff.mp hMember with
      ⟨axis, hAxis, rfl⟩
    have hKnows :=
      hNext.factor_sizes factor table hTable axis hAxis
    have hBefore :
        solver.graph.Touches factor axis.var := by
      rw [← hSwept.graph_eq]
      exact ⟨table, hTable, hMember⟩
    rcases hSwept.read_toFactor hSolver hKnows hBefore with
      ⟨shift, hRead⟩
    refine ⟨-shift, ?_⟩
    intro value hValue
    rw [hNext.allows_iff hKnows ⟨table, hTable, hMember⟩]
      at hValue
    have hGreatest :=
      hSwept.isGreatest_joint hNext hTable hAxis hValue
    rw [hRead value hValue, hToVar] at hGreatest
    rw [credence_congr hSwept.graph_eq hToVar]
    have hSum :
        solver.toVar.read ⟨factor, axis.var⟩ value +
            (solver.credence axis.var value -
              solver.toVar.read ⟨factor, axis.var⟩ value -
              shift) =
          solver.credence axis.var value + -shift := by
      ring
    rwa [hSum] at hGreatest

end Solver

end JointMax
