import Mathlib
import JointMax.Proofs.Argmax
import JointMax.Proofs.SweepOutcome
import JointMax.Solver.Run

/-
  Runs as sweeps in a row. A run of a conforming solver always
  succeeds; it performs sweeps up to the first one that is
  within the tolerance, and no more than it is allowed.

  Main declarations:
    * `Solver.Sweeps` and `Solver.Ran`
    * `Solver.Conforms.optimiseWith?`
    * `Solver.Current`, what holds after at least one sweep
    * `Solver.Conforms.values?` and `exists_values?`
-/

------------------------------------------------------------
-- Sweeps in a Row
------------------------------------------------------------

namespace JointMax

namespace Solver

variable {α : Type} [Scalar α]

/- Sweeps in a row, with the largest change in each. -/
inductive Sweeps :
    Solver α → List α → Solver α → Prop where
  | nil {solver : Solver α} : Sweeps solver [] solver
  | cons {solver middle final : Solver α}
      {delta : α} {deltas : List α}
      (head : solver.sweep? = .ok (middle, delta))
      (tail : Sweeps middle deltas final) :
      Sweeps solver (delta :: deltas) final

theorem Sweeps.append
    {solver middle final : Solver α}
    {first second : List α}
    (hFirst : Sweeps solver first middle)
    (hSecond : Sweeps middle second final) :
    Sweeps solver (first ++ second) final := by
  induction hFirst with
  | nil => exact hSecond
  | cons head _ ih => exact Sweeps.cons head (ih hSecond)

theorem Sweeps.split
    {solver final : Solver α}
    {first second : List α}
    (hSweeps : Sweeps solver (first ++ second) final) :
    ∃ middle,
      Sweeps solver first middle ∧
        Sweeps middle second final := by
  induction first generalizing solver with
  | nil => exact ⟨solver, Sweeps.nil, hSweeps⟩
  | cons delta first ih =>
      cases hSweeps with
      | cons head tail =>
          rcases ih tail with ⟨middle, hFirst, hSecond⟩
          exact ⟨middle, Sweeps.cons head hFirst, hSecond⟩

/- Several sweeps are some sweeps and a last one. -/
theorem Sweeps.exists_last
    {solver final : Solver α}
    {deltas : List α}
    (hSweeps : Sweeps solver deltas final)
    (hSome : deltas ≠ []) :
    ∃ before delta,
      Sweeps solver deltas.dropLast before ∧
        before.sweep? = .ok (final, delta) := by
  rw [← List.dropLast_append_getLast hSome] at hSweeps
  rcases hSweeps.split with ⟨before, hBefore, hLast⟩
  cases hLast with
  | cons head tail =>
      cases tail
      exact ⟨before, _, hBefore, head⟩

theorem Conforms.of_sweep?
    {registry : Registry}
    {solver next : Solver α}
    {delta : α}
    (hSolver : solver.Conforms registry)
    (hSweep : solver.sweep? = .ok (next, delta)) :
    next.Conforms registry ∧
      solver.Swept next ∧
      solver.Moved next delta := by
  rcases hSolver.sweep? with
    ⟨found, change, hFound, hConforms, hSwept, hMoved⟩
  rw [hSweep] at hFound
  cases hFound
  exact ⟨hConforms, hSwept, hMoved⟩

theorem Sweeps.conforms
    {registry : Registry}
    {solver final : Solver α}
    {deltas : List α}
    (hSweeps : Sweeps solver deltas final)
    (hSolver : solver.Conforms registry) :
    final.Conforms registry := by
  induction hSweeps with
  | nil => exact hSolver
  | cons head _ ih => exact ih (hSolver.of_sweep? head).1

theorem Sweeps.graph_eq
    {registry : Registry}
    {solver final : Solver α}
    {deltas : List α}
    (hSweeps : Sweeps solver deltas final)
    (hSolver : solver.Conforms registry) :
    final.graph = solver.graph := by
  induction hSweeps with
  | nil => rfl
  | cons head _ ih =>
      rcases hSolver.of_sweep? head with
        ⟨hNext, hSwept, _⟩
      exact (ih hNext).trans hSwept.graph_eq

/- The last sweep, and what there was before it. -/
theorem Sweeps.exists_swept
    {registry : Registry}
    {solver final : Solver α}
    {deltas : List α}
    (hSweeps : Sweeps solver deltas final)
    (hSolver : solver.Conforms registry)
    (hSome : 0 < deltas.length) :
    ∃ before,
      Sweeps solver deltas.dropLast before ∧
        before.Conforms registry ∧
        before.graph = solver.graph ∧
        before.Swept final := by
  rcases hSweeps.exists_last
      (List.ne_nil_of_length_pos hSome) with
    ⟨before, _, hBefore, hLast⟩
  have hFits := hBefore.conforms hSolver
  exact ⟨before, hBefore, hFits, hBefore.graph_eq hSolver,
    (hFits.of_sweep? hLast).2.1⟩

theorem Sweeps.swept_of_length_eq_one
    {registry : Registry}
    {solver final : Solver α}
    {deltas : List α}
    (hSweeps : Sweeps solver deltas final)
    (hSolver : solver.Conforms registry)
    (hOne : deltas.length = 1) :
    solver.Swept final := by
  rcases hSweeps.exists_swept hSolver (by omega) with
    ⟨before, hBefore, _, _, hSwept⟩
  have hNone : deltas.dropLast = [] :=
    List.eq_nil_of_length_eq_zero (by simp [hOne])
  rw [hNone] at hBefore
  cases hBefore
  exact hSwept

/- Any number of sweeps can be performed. -/
theorem Conforms.exists_sweeps
    {registry : Registry}
    {solver : Solver α}
    (hSolver : solver.Conforms registry)
    (number : Nat) :
    ∃ deltas final,
      deltas.length = number ∧
        Sweeps solver deltas final := by
  induction number generalizing solver with
  | zero => exact ⟨[], solver, rfl, Sweeps.nil⟩
  | succ number ih =>
      rcases hSolver.sweep? with
        ⟨next, delta, hSweep, hNext, _⟩
      rcases ih hNext with
        ⟨deltas, final, hLength, hSweeps⟩
      exact ⟨delta :: deltas, final, by simp [hLength],
        Sweeps.cons hSweep hSweeps⟩

end Solver

end JointMax

------------------------------------------------------------
-- Runs
------------------------------------------------------------

namespace JointMax

/- The last change of a run is within the tolerance. -/
def settled
    {α : Type}
    [Scalar α]
    (tolerance : α)
    (deltas : List α) : Bool :=
  match deltas.getLast? with
  | some delta => Scalar.le delta tolerance
  | none => false

namespace Solver

variable {α : Type} [Scalar α]

/- The sweeps of a run: it stops early only when settled. -/
structure Ran
    (solver : Solver α)
    (budget : Nat)
    (tolerance : α)
    (deltas : List α)
    (final : Solver α) : Prop where
  sweeps : Sweeps solver deltas final
  within : deltas.length ≤ budget
  restless : ∀ delta ∈ deltas.dropLast,
    Scalar.le delta tolerance = false
  exhausted : settled tolerance deltas = false →
    deltas.length = budget

/- Statistics of a run that starts from the given ones. -/
def tally
    (tolerance : α)
    (stats : RunStats α)
    (deltas : List α) : RunStats α where
  iterations := stats.iterations + deltas.length
  converged := settled tolerance deltas
  maxDelta := deltas.getLastD stats.maxDelta

theorem Ran.cons
    {solver middle final : Solver α}
    {budget : Nat}
    {tolerance delta : α}
    {deltas : List α}
    (hSweep : solver.sweep? = .ok (middle, delta))
    (hAbove : Scalar.le delta tolerance = false)
    (hRan : Ran middle budget tolerance deltas final) :
    Ran solver (budget + 1) tolerance (delta :: deltas)
      final where
  sweeps := Sweeps.cons hSweep hRan.sweeps
  within := by simpa using hRan.within
  restless := by
    intro other hOther
    cases deltas with
    | nil => simp at hOther
    | cons next rest =>
        rw [List.dropLast_cons_cons] at hOther
        rcases List.mem_cons.mp hOther with rfl | hOther
        · exact hAbove
        · exact hRan.restless other hOther
  exhausted := by
    intro hOpen
    have hRest : settled tolerance deltas = false := by
      cases deltas with
      | nil => rfl
      | cons next rest =>
          simpa [settled, List.getLast?_cons_cons]
            using hOpen
    simpa using hRan.exhausted hRest

/- A sweep within the tolerance is the last one. -/
theorem run?_of_le
    {solver next : Solver α}
    {tolerance delta : α}
    (hSweep : solver.sweep? = .ok (next, delta))
    (hWithin : Scalar.le delta tolerance = true)
    (budget : Nat)
    (stats : RunStats α) :
    Solver.run? tolerance (budget + 1) solver stats =
      .ok
        ⟨(next, ⟨stats.iterations + 1, true, delta⟩),
          [.swept (stats.iterations + 1) delta]⟩ := by
  simp only [Solver.run?, hSweep]
  change (if Scalar.le delta tolerance then _ else _) = _
  rw [hWithin]
  rfl

/- A sweep above the tolerance is followed by the others. -/
theorem run?_of_not_le
    {solver next : Solver α}
    {tolerance delta : α}
    (hSweep : solver.sweep? = .ok (next, delta))
    (hAbove : Scalar.le delta tolerance = false)
    {budget : Nat}
    {stats : RunStats α}
    {rest : Logged α (Solver α × RunStats α)}
    (hRest :
      Solver.run? tolerance budget next
        ⟨stats.iterations + 1, false, delta⟩ = .ok rest) :
    Solver.run? tolerance (budget + 1) solver stats =
      .ok
        ⟨rest.result,
          .swept (stats.iterations + 1) delta ::
            rest.events⟩ := by
  simp only [Solver.run?, hSweep]
  change (if Scalar.le delta tolerance then _ else _) = _
  rw [hAbove]
  change Solver.run? tolerance budget next
    ⟨stats.iterations + 1, false, delta⟩ >>= _ = _
  rw [hRest]
  rfl

theorem Conforms.run?
    {registry : Registry}
    {solver : Solver α}
    (hSolver : solver.Conforms registry)
    (tolerance : α)
    (budget : Nat)
    {stats : RunStats α}
    (hOpen : stats.converged = false) :
    ∃ run deltas,
      solver.run? tolerance budget stats = .ok run ∧
        Ran solver budget tolerance deltas run.result.1 ∧
        run.result.2 = tally tolerance stats deltas := by
  induction budget generalizing solver stats with
  | zero =>
      refine ⟨⟨(solver, stats), []⟩, [], rfl, ?_, ?_⟩
      · exact
          { sweeps := Sweeps.nil
            within := Nat.le_refl 0
            restless := by simp
            exhausted := fun _ => rfl }
      · rcases stats with ⟨iterations, converged, delta⟩
        cases hOpen
        rfl
  | succ budget ih =>
      rcases hSolver.sweep? with
        ⟨next, delta, hSweep, hNext, _⟩
      cases hSettled : Scalar.le delta tolerance with
      | true =>
          have hRun :=
            run?_of_le hSweep hSettled budget stats
          refine ⟨_, [delta], hRun, ?_, ?_⟩
          · exact
              { sweeps := Sweeps.cons hSweep Sweeps.nil
                within := by simp
                restless := by simp
                exhausted := by
                  intro hFalse
                  simp [settled, hSettled] at hFalse }
          · simp [tally, settled, hSettled]
      | false =>
          have hFollowing :
              (⟨stats.iterations + 1, false, delta⟩ :
                RunStats α).converged = false := rfl
          rcases ih hNext hFollowing with
            ⟨rest, deltas, hRest, hRan, hStats⟩
          have hRun := run?_of_not_le hSweep hSettled hRest
          refine ⟨_, delta :: deltas, hRun,
            hRan.cons hSweep hSettled, ?_⟩
          rw [hStats]
          cases deltas with
          | nil => simp [tally, settled, hSettled]
          | cons head tail =>
              simp only [tally, settled,
                List.getLast?_cons_cons, List.length_cons,
                List.getLastD_cons, RunStats.mk.injEq,
                and_true]
              omega

/- On an empty graph there is nothing to run. -/
theorem optimiseWith?_of_isEmpty
    {solver : Solver α}
    (hEmpty : solver.graph.isEmpty = true)
    (budget : Nat)
    (tolerance : α) :
    solver.optimiseWith? budget tolerance =
      .ok
        ⟨(0, { solver with
            lastRun := some ⟨0, true, Scalar.zero⟩ }),
          [.emptyGraph]⟩ := by
  unfold Solver.optimiseWith?
  rw [hEmpty]
  rfl

/- What a run adds to the sweeps that it performs. -/
theorem optimiseWith?_of_run?
    {solver final : Solver α}
    {stats : RunStats α}
    {events : List (Event α)}
    {budget : Nat}
    {tolerance : α}
    (hSome : solver.graph.isEmpty = false)
    (hRun :
      Solver.run? tolerance budget solver
          ⟨0, false, Scalar.zero⟩ =
        .ok ⟨(final, stats), events⟩) :
    solver.optimiseWith? budget tolerance =
      .ok
        { result :=
            (stats.iterations,
              { final with lastRun := some stats })
          events :=
            (if solver.graph.isCyclic then [.cyclicGraph]
              else []) ++ events ++
            (if stats.converged then []
              else [.notConverged budget stats.maxDelta]) ++
            [.done stats solver.graph.factorCount
              solver.graph.varCount] } := by
  unfold Solver.optimiseWith?
  rw [hSome, hRun]
  rfl

/-
  A run succeeds, leaves the factors as they are, and reports
  the sweeps that it performed.
-/
theorem Conforms.optimiseWith?
    {registry : Registry}
    {solver : Solver α}
    (hSolver : solver.Conforms registry)
    (hSome : solver.graph.isEmpty = false)
    (budget : Nat)
    (tolerance : α) :
    ∃ run deltas final,
      solver.optimiseWith? budget tolerance = .ok run ∧
        Ran solver budget tolerance deltas final ∧
        run.result =
          (deltas.length,
            { final with
              lastRun := some
                ⟨deltas.length, settled tolerance deltas,
                  deltas.getLastD Scalar.zero⟩ }) := by
  let opening : RunStats α := ⟨0, false, Scalar.zero⟩
  have hOpening : opening.converged = false := rfl
  rcases hSolver.run? tolerance budget hOpening with
    ⟨run, deltas, hRun, hRan, hStats⟩
  have hTally :
      run.result.2 =
        ⟨deltas.length, settled tolerance deltas,
          deltas.getLastD Scalar.zero⟩ := by
    rw [hStats]
    simp [tally, opening]
  refine
    ⟨_, deltas, run.result.1,
      optimiseWith?_of_run? hSome hRun, hRan, ?_⟩
  rw [hTally]

end Solver

end JointMax

------------------------------------------------------------
-- After a Sweep
------------------------------------------------------------

namespace JointMax

namespace Solver

variable {α : Type} [Scalar α]

/-
  There is a message each way on every edge and nowhere else,
  and the kept beliefs are the sums of the messages.
-/
structure Current (solver : Solver α) : Prop where
  toVar_keys : ∀ edge,
    edge ∈ solver.toVar ↔ edge ∈ solver.graph.edges
  toFactor_keys : ∀ edge,
    edge ∈ solver.toFactor ↔ edge ∈ solver.graph.edges
  beliefs_iff : ∀ var belief,
    solver.beliefs[var]? = some belief ↔
      solver.belief? var = .ok (some belief)
  beliefs_keys : ∀ var,
    var ∈ solver.beliefs ↔ var ∈ solver.graph.vars

theorem Conforms.current_of_sweep?
    {registry : Registry}
    {solver next : Solver α}
    {delta : α}
    (hSolver : solver.Conforms registry)
    (hSweep : solver.sweep? = .ok (next, delta)) :
    next.Current := by
  rcases hSolver.of_sweep? hSweep with
    ⟨hNext, hSwept, _⟩
  refine
    { toVar_keys := ?_
      toFactor_keys := ?_
      beliefs_iff := hSwept.beliefs_iff
      beliefs_keys := ?_ }
  · intro edge
    rw [Std.ExtTreeMap.mem_iff_isSome_getElem?,
      Option.isSome_iff_exists]
    constructor
    · rintro ⟨message, hMessage⟩
      exact (hNext.toVar_fits edge message hMessage).1
    · intro hEdge
      rcases hNext.coherent.mem_edges.mp hEdge with
        ⟨table, hTable, hVar⟩
      rcases hNext.factorMessage? hTable hVar with
        ⟨message, hMessage, _⟩
      exact ⟨message, (hSwept.toVar_iff edge message).mpr
        ⟨table, hSwept.graph_eq ▸ hTable, hVar, hMessage⟩⟩
  · intro edge
    rw [Std.ExtTreeMap.mem_iff_isSome_getElem?,
      Option.isSome_iff_exists]
    constructor
    · rintro ⟨message, hMessage⟩
      exact (hNext.toFactor_fits edge message hMessage).1
    · intro hEdge
      rw [hSwept.graph_eq] at hEdge
      rcases hSolver.varMessage? hEdge with
        ⟨message, hMessage, _⟩
      exact ⟨message,
        (hSwept.toFactor_iff edge message).mpr
          ⟨hEdge, hMessage⟩⟩
  · intro var
    rw [Std.ExtTreeMap.mem_iff_isSome_getElem?,
      Option.isSome_iff_exists]
    constructor
    · rintro ⟨belief, hBelief⟩
      exact (hNext.beliefs_fit var belief hBelief).1
    · intro hVar
      rcases hNext.belief? hVar with ⟨belief, hBelief, _⟩
      exact ⟨belief,
        (hSwept.beliefs_iff var belief).mpr hBelief⟩

theorem Sweeps.current
    {registry : Registry}
    {solver final : Solver α}
    {deltas : List α}
    (hSweeps : Sweeps solver deltas final)
    (hSolver : solver.Conforms registry)
    (hSome : deltas ≠ []) :
    final.Current := by
  rcases hSweeps.exists_last hSome with
    ⟨before, delta, hBefore, hLast⟩
  exact (hBefore.conforms hSolver).current_of_sweep? hLast

end Solver

end JointMax

------------------------------------------------------------
-- Chosen Values
------------------------------------------------------------

namespace JointMax

namespace Solver

variable {α : Type} [Scalar α]

/- Each variable gets the place of its belief's best value. -/
theorem Conforms.values?
    {registry : Registry}
    {solver : Solver α}
    (hSolver : solver.Conforms registry) :
    ∃ values,
      solver.values? = .ok values ∧
        List.Forall₂ (fun var value =>
          value.1 = var ∧
            ∃ belief,
              solver.belief? var = .ok (some belief) ∧
                value.2 = belief.argmax)
          solver.graph.vars values := by
  rcases hSolver.currentBeliefs? with
    ⟨beliefs, hBeliefs, hPairs⟩
  refine
    ⟨beliefs.map fun belief => (belief.1, belief.2.argmax),
      ?_, ?_⟩
  · unfold Solver.values?
    rw [hBeliefs]
    rfl
  · rw [List.forall₂_map_right_iff]
    apply hPairs.imp
    rintro var belief ⟨hVar, hBelief⟩
    exact ⟨hVar, belief.2, hBelief, rfl⟩

/- What holds of the best places of beliefs holds of values. -/
theorem Conforms.exists_values?
    {registry : Registry}
    {solver : Solver α}
    (hSolver : solver.Conforms registry)
    (property : VarId → Nat → Prop)
    (hBest : ∀ var ∈ solver.graph.vars, ∀ belief,
      solver.belief? var = .ok (some belief) →
        property var belief.argmax) :
    ∃ values,
      solver.values? = .ok values ∧
        List.Forall₂ (fun var value =>
          value.1 = var ∧ property var value.2)
          solver.graph.vars values := by
  rcases hSolver.values? with ⟨values, hValues, hPairs⟩
  refine ⟨values, hValues, ?_⟩
  rw [List.forall₂_iff_zip] at hPairs ⊢
  refine ⟨hPairs.1, ?_⟩
  intro var value hPair
  rcases hPairs.2 hPair with ⟨hSame, belief, hBelief, hPlace⟩
  have hVar := (List.of_mem_zip hPair).1
  rw [hPlace]
  exact ⟨hSame, hBest var hVar belief hBelief⟩

theorem Conforms.values?_eq_map
    {registry : Registry}
    {solver : Solver α}
    (hSolver : solver.Conforms registry)
    {chosen : VarId → Nat}
    (hBest : ∀ var ∈ solver.graph.vars, ∀ belief,
      solver.belief? var = .ok (some belief) →
        belief.argmax = chosen var) :
    solver.values? =
      .ok (solver.graph.vars.map fun var =>
        (var, chosen var)) := by
  rcases hSolver.exists_values?
      (fun var value => value = chosen var) hBest with
    ⟨values, hValues, hPairs⟩
  have hList :=
    map_eq_of_forall₂ (fun var => (var, chosen var)) id
      (hPairs.imp fun _ _ hPair =>
        Prod.ext hPair.1 hPair.2)
  rw [List.map_id] at hList
  rw [hValues, hList]

end Solver

end JointMax
