import Mathlib
import JointMax.Proofs.Incidence
import JointMax.Solver.Basic

/-
  Solvers that conform to a registry: factors have registered
  sizes, and every message and belief is a table over the one
  variable that it is about, filed under an edge or variable
  of the current graph. Changes of the factors keep this.

  Main declarations:
    * `Registry.Knows` and `Registry.Measures`
    * `Solver.Conforms`
    * `Solver.Conforms.insertFactor` and
      `Solver.Conforms.removeFactor`
    * `Solver.exists_of_setFactor?`
-/

------------------------------------------------------------
-- Registered Axes
------------------------------------------------------------

namespace JointMax

namespace Registry

/- The axis has its variable's registered size. -/
def Knows (registry : Registry) (axis : Axis) : Prop :=
  registry.size? axis.var = .ok ⟨axis.size, axis.size_pos⟩

/- The table depends on the one registered variable. -/
def Measures
    {α : Type}
    (registry : Registry)
    (var : VarId)
    (table : Table α) : Prop :=
  ∃ axis,
    registry.Knows axis ∧ axis.var = var ∧
      table.scope = Scope.ofAxis axis

theorem Knows.unique
    {registry : Registry}
    {first second : Axis}
    (hFirst : registry.Knows first)
    (hSecond : registry.Knows second)
    (hVar : first.var = second.var) :
    first = second := by
  rcases first with ⟨firstVar, firstSize, firstPos⟩
  rcases second with ⟨secondVar, secondSize, secondPos⟩
  dsimp only at hVar
  subst hVar
  have hSize := hFirst.symm.trans hSecond
  simp only [Except.ok.injEq, Subtype.mk.injEq] at hSize
  subst hSize
  rfl

theorem Measures.scope_eq
    {α : Type}
    {registry : Registry}
    {axis : Axis}
    {table : Table α}
    (hMeasures : registry.Measures axis.var table)
    (hKnows : registry.Knows axis) :
    table.scope = Scope.ofAxis axis := by
  rcases hMeasures with ⟨other, hOther, hVar, hScope⟩
  rw [hScope, hOther.unique hKnows hVar]

/- Tables that depend on one variable have one scope. -/
theorem Measures.same_scope
    {α : Type}
    {registry : Registry}
    {var : VarId}
    {first second : Table α}
    (hFirst : registry.Measures var first)
    (hSecond : registry.Measures var second) :
    first.scope = second.scope := by
  rcases hSecond with ⟨axis, hKnows, rfl, hScope⟩
  rw [hScope, hFirst.scope_eq hKnows]

end Registry

namespace Axis

theorem knows_of_resolve?
    {registry : Registry}
    {vars : List VarId}
    {axes : List Axis}
    (hAxes : resolve? registry vars = .ok axes) :
    ∀ axis ∈ axes, registry.Knows axis := by
  induction vars generalizing axes with
  | nil =>
      cases hAxes
      simp
  | cons var vars ih =>
      simp only [resolve?] at hAxes
      split at hAxes
      · rename_i size hSize
        cases hRest : resolve? registry vars with
        | error fault =>
            rw [hRest] at hAxes
            cases hAxes
        | ok rest =>
            rw [hRest] at hAxes
            cases hAxes
            intro axis hAxis
            rcases List.mem_cons.mp hAxis with rfl | hAxis
            · exact hSize
            · exact ih hRest axis hAxis
      · cases hAxes

end Axis

namespace Scope

theorem knows_of_ofVars?
    {registry : Registry}
    {vars : List VarId}
    {scope : Scope}
    (hScope : ofVars? registry vars = .ok scope) :
    ∀ axis ∈ scope.axes, registry.Knows axis := by
  unfold ofVars? at hScope
  split at hScope
  · rename_i axes hAxes
    cases hScope
    exact Axis.knows_of_resolve? hAxes
  · cases hScope

end Scope

namespace Solver

theorem knows_of_checkAxes
    {registry : Registry}
    {axes : List Axis}
    (hCheck : checkAxes registry axes = .ok ()) :
    ∀ axis ∈ axes, registry.Knows axis := by
  induction axes with
  | nil => simp
  | cons head tail ih =>
      simp only [checkAxes] at hCheck
      split at hCheck
      · rename_i size hSize
        split at hCheck
        · rename_i hSame
          intro axis hAxis
          rcases List.mem_cons.mp hAxis with rfl | hAxis
          · unfold Registry.Knows
            rw [hSize]
            exact congrArg Except.ok (Subtype.ext hSame)
          · exact ih hCheck axis hAxis
        · cases hCheck
      · cases hCheck

theorem checkAxes_of_knows
    {registry : Registry}
    {axes : List Axis}
    (hKnows : ∀ axis ∈ axes, registry.Knows axis) :
    checkAxes registry axes = .ok () := by
  induction axes with
  | nil => rfl
  | cons axis axes ih =>
      have hHead := hKnows axis (by simp)
      unfold Registry.Knows at hHead
      simp only [checkAxes, hHead, if_true]
      exact ih fun other hOther =>
        hKnows other (by simp [hOther])

end Solver

end JointMax

------------------------------------------------------------
-- Conforming Solvers
------------------------------------------------------------

namespace JointMax

namespace Solver

variable {α : Type}

structure Conforms
    (registry : Registry)
    (solver : Solver α) : Prop where
  registry_eq : solver.registry = registry
  coherent : solver.graph.Coherent
  factor_sizes : ∀ factor table,
    solver.graph.factor? factor = some table →
      ∀ axis ∈ table.scope.axes, registry.Knows axis
  toVar_fits : ∀ edge table,
    solver.toVar[edge]? = some table →
      edge ∈ solver.graph.edges ∧
        registry.Measures edge.var table
  toFactor_fits : ∀ edge table,
    solver.toFactor[edge]? = some table →
      edge ∈ solver.graph.edges ∧
        registry.Measures edge.var table
  beliefs_fit : ∀ var table,
    solver.beliefs[var]? = some table →
      var ∈ solver.graph.vars ∧
        registry.Measures var table

theorem conforms_start
    (registry : Registry)
    (config : Config α) :
    (start registry config).Conforms registry where
  registry_eq := rfl
  coherent := Graph.coherent_empty
  factor_sizes := by simp [start, Graph.empty, Graph.factor?]
  toVar_fits := by simp [start]
  toFactor_fits := by simp [start]
  beliefs_fit := by simp [start]

theorem Conforms.clear
    {registry : Registry}
    {solver : Solver α}
    (hSolver : solver.Conforms registry) :
    solver.clear.Conforms registry := by
  unfold Solver.clear
  rw [hSolver.registry_eq]
  exact conforms_start registry solver.config

theorem Conforms.setConfig
    {registry : Registry}
    {solver : Solver α}
    (hSolver : solver.Conforms registry)
    (config : Config α) :
    (solver.setConfig config).Conforms registry :=
  { hSolver with }

/- What is left of messages and beliefs, entry by entry. -/
theorem invalidate_toVar_iff
    {solver : Solver α}
    {factor : FactorId}
    {edge : Edge}
    {message : Table α} :
    (solver.invalidate factor).toVar[edge]? = some message ↔
      solver.toVar[edge]? = some message ∧
        edge.factor ≠ factor := by
  simp only [Solver.invalidate,
    Std.ExtTreeMap.getElem?_filter',
    Option.filter_eq_some_iff, bne_iff_ne]

theorem invalidate_toFactor_iff
    {solver : Solver α}
    {factor : FactorId}
    {edge : Edge}
    {message : Table α} :
    (solver.invalidate factor).toFactor[edge]? =
        some message ↔
      solver.toFactor[edge]? = some message ∧
        edge.factor ≠ factor := by
  simp only [Solver.invalidate,
    Std.ExtTreeMap.getElem?_filter',
    Option.filter_eq_some_iff, bne_iff_ne]

theorem invalidate_beliefs_iff
    {solver : Solver α}
    {factor : FactorId}
    {var : VarId}
    {belief : Table α} :
    (solver.invalidate factor).beliefs[var]? = some belief ↔
      solver.beliefs[var]? = some belief ∧
        var ∈ solver.graph.vars := by
  simp only [Solver.invalidate,
    Std.ExtTreeMap.getElem?_filter',
    Option.filter_eq_some_iff, Graph.containsVar_iff]

/-
  Messages on other edges stay in place if the change of the
  graph touches the edges of one factor alone.
-/
theorem Conforms.invalidate
    {registry : Registry}
    {solver : Solver α}
    (hSolver : solver.Conforms registry)
    {graph : Graph α}
    {factor : FactorId}
    (hGraph : graph.Coherent)
    (hSizes : ∀ other table,
      graph.factor? other = some table →
        ∀ axis ∈ table.scope.axes, registry.Knows axis)
    (hOthers : ∀ other, other ≠ factor →
      graph.factor? other = solver.graph.factor? other) :
    (invalidate { solver with graph := graph }
      factor).Conforms registry := by
  have hEdge : ∀ edge : Edge, edge.factor ≠ factor →
      edge ∈ solver.graph.edges → edge ∈ graph.edges := by
    intro edge hNe hEdge
    rw [hSolver.coherent.mem_edges] at hEdge
    rw [hGraph.mem_edges, Graph.Touches, hOthers _ hNe]
    exact hEdge
  refine
    { registry_eq := hSolver.registry_eq
      coherent := hGraph
      factor_sizes := hSizes
      toVar_fits := ?_
      toFactor_fits := ?_
      beliefs_fit := ?_ }
  · intro edge table hTable
    rcases invalidate_toVar_iff.mp hTable with ⟨hOld, hNe⟩
    rcases hSolver.toVar_fits edge table hOld with
      ⟨hMember, hFits⟩
    exact ⟨hEdge edge hNe hMember, hFits⟩
  · intro edge table hTable
    rcases invalidate_toFactor_iff.mp hTable with
      ⟨hOld, hNe⟩
    rcases hSolver.toFactor_fits edge table hOld with
      ⟨hMember, hFits⟩
    exact ⟨hEdge edge hNe hMember, hFits⟩
  · intro var table hTable
    rcases invalidate_beliefs_iff.mp hTable with
      ⟨hOld, hVar⟩
    exact ⟨hVar, (hSolver.beliefs_fit var table hOld).2⟩

theorem Conforms.insertFactor
    {registry : Registry}
    {solver : Solver α}
    (hSolver : solver.Conforms registry)
    {factor : FactorId}
    {table : Table α}
    (hTable : ∀ axis ∈ table.scope.axes,
      registry.Knows axis) :
    (solver.insertFactor factor table).result.Conforms
      registry := by
  apply hSolver.invalidate
    (hSolver.coherent.setFactor factor table)
  · intro other found hFound
    rw [Graph.factor?_setFactor] at hFound
    split at hFound
    · cases hFound
      exact hTable
    · exact hSolver.factor_sizes other found hFound
  · intro other hNe
    rw [Graph.factor?_setFactor, if_neg hNe]

theorem Conforms.removeFactor
    {registry : Registry}
    {solver : Solver α}
    (hSolver : solver.Conforms registry)
    (factor : FactorId) :
    (solver.removeFactor factor).result.Conforms
      registry := by
  unfold Solver.removeFactor
  cases hOld : solver.graph.factor? factor with
  | none => exact hSolver
  | some old =>
      apply hSolver.invalidate
        (hSolver.coherent.removeFactor factor)
      · intro other found hFound
        rw [Graph.factor?_removeFactor] at hFound
        split at hFound
        · cases hFound
        · exact hSolver.factor_sizes other found hFound
      · intro other hNe
        rw [Graph.factor?_removeFactor, if_neg hNe]

/- A factor that is accepted fits the registry. -/
theorem exists_of_setFactor?
    {solver : Solver α}
    {factor : FactorId}
    {vars : List VarId}
    {values : Array α}
    {done : Logged α (Solver α)}
    (hSet : solver.setFactor? factor vars values = .ok done) :
    ∃ table,
      (∀ axis ∈ table.scope.axes,
        solver.registry.Knows axis) ∧
        done = solver.insertFactor factor table := by
  unfold Solver.setFactor? at hSet
  split at hSet
  · cases hScope : Scope.ofVars? solver.registry vars with
    | error fault =>
        rw [hScope] at hSet
        cases hSet
    | ok scope =>
        rw [hScope] at hSet
        cases hTable : Table.ofValues? scope values with
        | error fault =>
            simp only [bind, Except.bind, hTable] at hSet
            cases hSet
        | ok table =>
            simp only [bind, Except.bind, hTable] at hSet
            cases hSet
            have hSame : table.scope = scope := by
              unfold Table.ofValues? at hTable
              split at hTable
              · cases hTable
                rfl
              · cases hTable
            refine ⟨table, ?_, rfl⟩
            rw [hSame]
            exact Scope.knows_of_ofVars? hScope
  · cases hSet

theorem exists_of_setFactorTable?
    {solver : Solver α}
    {factor : FactorId}
    {table : Table α}
    {done : Logged α (Solver α)}
    (hSet :
      solver.setFactorTable? factor table = .ok done) :
    (∀ axis ∈ table.scope.axes,
      solver.registry.Knows axis) ∧
      done = solver.insertFactor factor table := by
  unfold Solver.setFactorTable? at hSet
  cases hCheck :
      checkAxes solver.registry table.scope.axes with
  | error fault =>
      rw [hCheck] at hSet
      cases hSet
  | ok _ =>
      rw [hCheck] at hSet
      cases hSet
      exact ⟨knows_of_checkAxes hCheck, rfl⟩

/- There are no messages off the edges. -/
theorem Conforms.toVar?_eq_none
    {registry : Registry}
    {solver : Solver α}
    (hSolver : solver.Conforms registry)
    {edge : Edge}
    (hEdge : ¬ solver.graph.Touches edge.factor edge.var) :
    solver.toVar[edge]? = none := by
  cases hMessage : solver.toVar[edge]? with
  | none => rfl
  | some message =>
      have hFits := hSolver.toVar_fits edge message hMessage
      exact absurd
        (hSolver.coherent.mem_edges.mp hFits.1) hEdge

theorem Conforms.toFactor?_eq_none
    {registry : Registry}
    {solver : Solver α}
    (hSolver : solver.Conforms registry)
    {edge : Edge}
    (hEdge : ¬ solver.graph.Touches edge.factor edge.var) :
    solver.toFactor[edge]? = none := by
  cases hMessage : solver.toFactor[edge]? with
  | none => rfl
  | some message =>
      have hFits :=
        hSolver.toFactor_fits edge message hMessage
      exact absurd
        (hSolver.coherent.mem_edges.mp hFits.1) hEdge

end Solver

end JointMax

------------------------------------------------------------
-- Axes of the Graph's Variables
------------------------------------------------------------

namespace JointMax

namespace Solver

variable {α : Type}

theorem Conforms.axis?_of_touches
    {registry : Registry}
    {solver : Solver α}
    (hSolver : solver.Conforms registry)
    {factor : FactorId}
    {var : VarId}
    (hTouches : solver.graph.Touches factor var) :
    ∃ axis,
      solver.graph.axis? var = some axis ∧
        registry.Knows axis ∧ axis.var = var := by
  rcases hSolver.coherent.axis?_of_touches hTouches with
    ⟨least, _, table, axis, _, hTable, hAxis, hVar,
      hFound⟩
  exact ⟨axis, hFound,
    hSolver.factor_sizes least table hTable axis hAxis,
    hVar⟩

/- The registered size is found, whatever it is read off. -/
theorem Conforms.axis?_eq_of_knows
    {registry : Registry}
    {solver : Solver α}
    (hSolver : solver.Conforms registry)
    {axis : Axis}
    (hKnows : registry.Knows axis)
    {factor : FactorId}
    (hTouches : solver.graph.Touches factor axis.var) :
    solver.graph.axis? axis.var = some axis := by
  rcases hSolver.axis?_of_touches hTouches with
    ⟨found, hFound, hKnown, hVar⟩
  rw [hFound, hKnown.unique hKnows hVar]

/- Every factor of a variable sees the size that is found. -/
theorem Conforms.axis?_eq_of_mem
    {registry : Registry}
    {solver : Solver α}
    (hSolver : solver.Conforms registry)
    {factor : FactorId}
    {table : Table α}
    (hTable : solver.graph.factor? factor = some table)
    {axis : Axis}
    (hAxis : axis ∈ table.scope.axes) :
    solver.graph.axis? axis.var = some axis := by
  have hKnows :=
    hSolver.factor_sizes factor table hTable axis hAxis
  exact hSolver.axis?_eq_of_knows hKnows
    ⟨table, hTable, Scope.mem_vars hAxis⟩

theorem Conforms.axis?_of_mem_vars
    {registry : Registry}
    {solver : Solver α}
    (hSolver : solver.Conforms registry)
    {var : VarId}
    (hVar : var ∈ solver.graph.vars) :
    ∃ axis,
      solver.graph.axis? var = some axis ∧
        registry.Knows axis ∧ axis.var = var := by
  rcases hSolver.coherent.mem_vars.mp hVar with
    ⟨factor, hTouches⟩
  exact hSolver.axis?_of_touches hTouches

end Solver

end JointMax
