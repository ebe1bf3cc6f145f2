import JointMax.Solver.Sweep

/-
  Runs: sweeps up to the first one that changes no belief by
  more than the tolerance, within a bound on their number.

  Key definitions include:
    * `Solver.run?`
    * `Solver.optimiseWith?` and `Solver.optimise?`
-/

------------------------------------------------------------
-- Sweeping
------------------------------------------------------------

namespace JointMax

namespace Solver

variable {α : Type} [Scalar α]

/-
  At most so many further sweeps, after those counted in the
  given statistics. The last component lists the sweeps.
-/
def run? (tolerance : α) :
    Nat → Solver α → RunStats α →
      Except Fault (Logged α (Solver α × RunStats α))
  | 0, solver, stats => .ok ⟨(solver, stats), []⟩
  | remaining + 1, solver, stats => do
      let (swept, delta) ← solver.sweep?
      let iterations := stats.iterations + 1
      let settled := Scalar.le delta tolerance
      let event := Event.swept iterations delta
      let next := RunStats.mk iterations settled delta
      if settled then
        return ⟨(swept, next), [event]⟩
      else
        let rest ← run? tolerance remaining swept next
        return ⟨rest.result, event :: rest.events⟩

end Solver

end JointMax

------------------------------------------------------------
-- Optimisation
------------------------------------------------------------

namespace JointMax

namespace Solver

variable {α : Type} [Scalar α]

/-
  Run within the given bounds. The result holds the number of
  sweeps beside the solver, which remembers the statistics.
-/
def optimiseWith?
    (solver : Solver α)
    (maxIterations : Nat)
    (tolerance : α) :
    Except Fault (Logged α (Nat × Solver α)) :=
  if solver.graph.isEmpty then
    .ok
      { result :=
          (0, { solver with
            lastRun := some ⟨0, true, Scalar.zero⟩ })
        events := [.emptyGraph] }
  else do
    let run ←
      run? tolerance maxIterations solver
        ⟨0, false, Scalar.zero⟩
    let (final, stats) := run.result
    let cyclic :=
      if solver.graph.isCyclic then [Event.cyclicGraph]
      else []
    let warning :=
      if stats.converged then []
      else [Event.notConverged maxIterations stats.maxDelta]
    let done :=
      Event.done stats solver.graph.factorCount
        solver.graph.varCount
    let finished := { final with lastRun := some stats }
    return {
      result := (stats.iterations, finished)
      events := cyclic ++ run.events ++ warning ++ [done] }

/- Run within the bounds of the configuration. -/
def optimise? (solver : Solver α) :
    Except Fault (Logged α (Nat × Solver α)) :=
  solver.optimiseWith? solver.config.maxIterations
    solver.config.tolerance

end Solver

end JointMax
