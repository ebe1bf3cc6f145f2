import Mathlib
import JointMax.Proofs.Runs

/-
  Histories of calls. A refused call leaves the solver as it
  was, and whatever the calls were, the solver conforms to its
  registry and its runs and its values are defined.

  Main declarations:
    * `Call`, `Solver.answer?` and `Solver.afterAll`
    * `Solver.Step`, what a single call can do
    * `Solver.Reachable` and `Solver.Reachable.induction`
    * `Solver.sound_afterAll`
-/

------------------------------------------------------------
-- Calls
------------------------------------------------------------

namespace JointMax

/- The calls that may change a solver. -/
inductive Call (α : Type) where
  | setFactor
      (factor : FactorId)
      (vars : List VarId)
      (values : Array α)
  | setFactorTable (factor : FactorId) (table : Table α)
  | removeFactor (factor : FactorId)
  | clear
  | setConfig (config : Config α)
  | optimise
  | optimiseWith (maxIterations : Nat) (tolerance : α)

namespace Solver

variable {α : Type} [Scalar α]

/- The solver that a call leaves behind, if it is accepted. -/
def answer? (solver : Solver α) :
    Call α → Except Fault (Solver α)
  | .setFactor factor vars values =>
      (solver.setFactor? factor vars values).map
        Logged.result
  | .setFactorTable factor table =>
      (solver.setFactorTable? factor table).map
        Logged.result
  | .removeFactor factor =>
      .ok (solver.removeFactor factor).result
  | .clear => .ok solver.clear
  | .setConfig config => .ok (solver.setConfig config)
  | .optimise =>
      solver.optimise?.map fun run => run.result.2
  | .optimiseWith maxIterations tolerance =>
      (solver.optimiseWith? maxIterations tolerance).map
        fun run => run.result.2

/- A refused call changes nothing. -/
def after (solver : Solver α) (call : Call α) : Solver α :=
  match solver.answer? call with
  | .ok next => next
  | .error _ => solver

def afterAll (solver : Solver α) (calls : List (Call α)) :
    Solver α :=
  calls.foldl after solver

/- Solvers that some history of calls leads to. -/
def Reachable (registry : Registry) (solver : Solver α) :
    Prop :=
  ∃ config calls,
    solver = (start registry config).afterAll calls

theorem Reachable.afterAll
    {registry : Registry}
    {solver : Solver α}
    (hSolver : solver.Reachable registry)
    (calls : List (Call α)) :
    (solver.afterAll calls).Reachable registry := by
  rcases hSolver with ⟨config, earlier, rfl⟩
  refine ⟨config, earlier ++ calls, ?_⟩
  simp only [Solver.afterAll, List.foldl_append]

end Solver

end JointMax

------------------------------------------------------------
-- Single Steps
------------------------------------------------------------

namespace JointMax

namespace Solver

variable {α : Type} [Scalar α]

/- What may become of a solver with one call. -/
inductive Step (solver : Solver α) : Solver α → Prop where
  | set
      (factor : FactorId)
      (table : Table α)
      (fits : ∀ axis ∈ table.scope.axes,
        solver.registry.Knows axis) :
      Step solver (solver.insertFactor factor table).result
  | remove (factor : FactorId) :
      Step solver (solver.removeFactor factor).result
  | clear : Step solver solver.clear
  | configure (config : Config α) :
      Step solver (solver.setConfig config)
  | run
      {budget : Nat}
      {tolerance : α}
      {done : Logged α (Nat × Solver α)}
      (ran :
        solver.optimiseWith? budget tolerance = .ok done) :
      Step solver done.result.2
  | refuse : Step solver solver

variable {solver next : Solver α}

/- The result of an accepted call is one of the steps. -/
theorem step_of_answer?
    {call : Call α}
    (hNext : solver.answer? call = .ok next) :
    Step solver next := by
  have hRun : ∀ budget tolerance,
      (solver.optimiseWith? budget tolerance).map
          (fun run => run.result.2) = .ok next →
        Step solver next := by
    intro budget tolerance hMap
    cases hDone :
        solver.optimiseWith? budget tolerance with
    | error fault =>
        rw [hDone] at hMap
        cases hMap
    | ok done =>
        rw [hDone] at hMap
        cases hMap
        exact .run hDone
  cases call with
  | setFactor factor vars values =>
      rw [Solver.answer?] at hNext
      cases hSet : solver.setFactor? factor vars values with
      | error fault =>
          rw [hSet] at hNext
          cases hNext
      | ok done =>
          rw [hSet] at hNext
          cases hNext
          rcases exists_of_setFactor? hSet with
            ⟨table, hFits, rfl⟩
          exact .set factor table hFits
  | setFactorTable factor table =>
      rw [Solver.answer?] at hNext
      cases hSet : solver.setFactorTable? factor table with
      | error fault =>
          rw [hSet] at hNext
          cases hNext
      | ok done =>
          rw [hSet] at hNext
          cases hNext
          rcases exists_of_setFactorTable? hSet with
            ⟨hFits, rfl⟩
          exact .set factor table hFits
  | removeFactor factor =>
      cases hNext
      exact .remove factor
  | clear =>
      cases hNext
      exact .clear
  | setConfig config =>
      cases hNext
      exact .configure config
  | optimise => exact hRun _ _ hNext
  | optimiseWith budget tolerance =>
      exact hRun budget tolerance hNext

theorem step_after
    (solver : Solver α)
    (call : Call α) :
    Step solver (solver.after call) := by
  unfold Solver.after
  split
  · rename_i next hNext
    exact step_of_answer? hNext
  · exact .refuse

end Solver

end JointMax

------------------------------------------------------------
-- Runs of Conforming Solvers
------------------------------------------------------------

namespace JointMax

namespace Solver

variable {α : Type} [Scalar α]

/- What a run remembers is no part of what conforms. -/
omit [Scalar α] in
theorem Conforms.withLastRun
    {registry : Registry}
    {solver : Solver α}
    (hSolver : solver.Conforms registry)
    (lastRun : Option (RunStats α)) :
    { solver with lastRun := lastRun }.Conforms registry :=
  { hSolver with }

theorem Current.withLastRun
    {solver : Solver α}
    (hSolver : solver.Current)
    (lastRun : Option (RunStats α)) :
    { solver with lastRun := lastRun }.Current :=
  { hSolver with }

/-
  A run succeeds on every graph. The solver that it leaves
  conforms, and is current if a sweep was performed.
-/
theorem Conforms.exists_optimiseWith?
    {registry : Registry}
    {solver : Solver α}
    (hSolver : solver.Conforms registry)
    (budget : Nat)
    (tolerance : α) :
    ∃ run,
      solver.optimiseWith? budget tolerance = .ok run ∧
        run.result.2.Conforms registry ∧
        (0 < run.result.1 → run.result.2.Current) := by
  cases hEmpty : solver.graph.isEmpty with
  | true =>
      have hRun :=
        optimiseWith?_of_isEmpty hEmpty budget tolerance
      refine ⟨_, hRun, hSolver.withLastRun _, ?_⟩
      intro hPos
      exact absurd hPos (Nat.lt_irrefl 0)
  | false =>
      rcases hSolver.optimiseWith? hEmpty budget
          tolerance with
        ⟨run, deltas, final, hRun, hRan, hResult⟩
      have hFinal := hRan.sweeps.conforms hSolver
      refine ⟨run, hRun, ?_, ?_⟩
      · rw [hResult]
        exact hFinal.withLastRun _
      · rw [hResult]
        intro hPos
        have hSome : deltas ≠ [] :=
          List.length_pos_iff.mp hPos
        exact (hRan.sweeps.current hSolver hSome).withLastRun
          _

end Solver

end JointMax

------------------------------------------------------------
-- Every History
------------------------------------------------------------

namespace JointMax

namespace Solver

variable {α : Type} [Scalar α]

theorem Conforms.step
    {registry : Registry}
    {solver next : Solver α}
    (hSolver : solver.Conforms registry)
    (hStep : Step solver next) :
    next.Conforms registry := by
  cases hStep with
  | set factor table fits =>
      rw [hSolver.registry_eq] at fits
      exact hSolver.insertFactor fits
  | remove factor => exact hSolver.removeFactor factor
  | clear => exact hSolver.clear
  | configure config => exact hSolver.setConfig config
  | @run budget tolerance done ran =>
      rcases hSolver.exists_optimiseWith? budget tolerance
        with ⟨found, hFound, hConforms, _⟩
      rw [ran] at hFound
      cases hFound
      exact hConforms
  | refuse => exact hSolver

theorem Conforms.after
    {registry : Registry}
    {solver : Solver α}
    (hSolver : solver.Conforms registry)
    (call : Call α) :
    (solver.after call).Conforms registry :=
  hSolver.step (solver.step_after call)

/-
  What holds at the start, and is kept by every step of a
  solver that conforms, holds of every reachable solver.
-/
theorem Reachable.induction
    {registry : Registry}
    {property : Solver α → Prop}
    (hStart : ∀ config, property (start registry config))
    (hStep : ∀ solver next,
      solver.Conforms registry → property solver →
        Step solver next → property next)
    {solver : Solver α}
    (hSolver : solver.Reachable registry) :
    property solver := by
  rcases hSolver with ⟨config, calls, rfl⟩
  have hKept : ∀ (calls : List (Call α)) (solver : Solver α),
      solver.Conforms registry → property solver →
        property (solver.afterAll calls) := by
    intro calls
    induction calls with
    | nil => exact fun _ _ hHolds => hHolds
    | cons call calls ih =>
        intro solver hFits hHolds
        exact ih _ (hFits.after call)
          (hStep _ _ hFits hHolds (solver.step_after call))
  exact hKept calls _ (conforms_start registry config)
    (hStart config)

theorem Conforms.afterAll
    {registry : Registry}
    {solver : Solver α}
    (hSolver : solver.Conforms registry)
    (calls : List (Call α)) :
    (solver.afterAll calls).Conforms registry := by
  induction calls generalizing solver with
  | nil => exact hSolver
  | cons call calls ih => exact ih (hSolver.after call)

theorem Reachable.conforms
    {registry : Registry}
    {solver : Solver α}
    (hSolver : solver.Reachable registry) :
    solver.Conforms registry := by
  rcases hSolver with ⟨config, calls, rfl⟩
  exact (conforms_start registry config).afterAll calls

/- Values are listed by variable, each within its range. -/
theorem Conforms.values?_within
    {registry : Registry}
    {solver : Solver α}
    (hSolver : solver.Conforms registry) :
    ∃ values,
      solver.values? = .ok values ∧
        values.map Prod.fst = solver.graph.vars ∧
        ∀ value ∈ values, ∃ axis,
          registry.Knows axis ∧ axis.var = value.1 ∧
            value.2 < axis.size := by
  rcases hSolver.values? with ⟨values, hValues, hPairs⟩
  refine ⟨values, hValues, ?_, ?_⟩
  · rw [map_eq_of_forall₂ id Prod.fst
      (hPairs.imp fun _ _ hValue => hValue.1), List.map_id]
  · intro value hValue
    rcases exists_of_forall₂_right hPairs hValue with
      ⟨var, hVar, hSame, belief, hBelief, hPlace⟩
    rcases hSolver.belief? hVar with
      ⟨found, hFound, axis, hKnows, hAxis, hScope⟩
    rw [hBelief] at hFound
    cases hFound
    refine ⟨axis, hKnows, hAxis.trans hSame.symm, ?_⟩
    rw [hPlace, ← Scope.count_ofAxis, ← hScope]
    exact belief.argmax_lt

/-
  Whatever calls were made, and whichever of them refused: the
  solver conforms, its runs succeed and leave it current, and
  it names a value of every variable.
-/
theorem sound_afterAll
    (registry : Registry)
    (config : Config α)
    (calls : List (Call α)) :
    let solver := (start registry config).afterAll calls
    solver.Conforms registry ∧
      (∀ budget tolerance, ∃ run,
        solver.optimiseWith? budget tolerance = .ok run ∧
          (0 < run.result.1 → run.result.2.Current)) ∧
      (∃ run,
        solver.optimise? = .ok run ∧
          (0 < run.result.1 → run.result.2.Current)) ∧
      ∃ values,
        solver.values? = .ok values ∧
          values.map Prod.fst = solver.graph.vars ∧
          Increasing (values.map Prod.fst) ∧
          ∀ value ∈ values, ∃ axis,
            registry.Knows axis ∧ axis.var = value.1 ∧
              value.2 < axis.size := by
  intro solver
  have hSolver : solver.Conforms registry :=
    (conforms_start registry config).afterAll calls
  have hRuns : ∀ budget tolerance, ∃ run,
      solver.optimiseWith? budget tolerance = .ok run ∧
        (0 < run.result.1 → run.result.2.Current) := by
    intro budget tolerance
    rcases hSolver.exists_optimiseWith? budget
        tolerance with
      ⟨run, hRun, _, hCurrent⟩
    exact ⟨run, hRun, hCurrent⟩
  rcases hSolver.values?_within with
    ⟨values, hValues, hVars, hWithin⟩
  refine ⟨hSolver, hRuns, hRuns _ _, values, hValues,
    hVars, ?_, hWithin⟩
  rw [hVars]
  exact solver.graph.increasing_vars

end Solver

end JointMax
