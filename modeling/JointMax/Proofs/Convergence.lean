import Mathlib
import JointMax.Proofs.Stopping

/-
  Forests settle. Whatever the solver held before and whatever
  its arithmetic is, the messages after as many sweeps as
  there are factors are the same, and the sweep after these is
  the last one of a run.

  Main declarations:
    * `Graph.alike_of_perm`
    * `Solver.Sweeps.delta_eq_zero`
    * `Solver.Reachable.settles_of_acyclic`
-/

------------------------------------------------------------
-- Order of Insertion
------------------------------------------------------------

namespace JointMax

namespace Graph

/- The order in which factors stand tells nothing of them. -/
theorem alike_of_perm
    {α : Type}
    {first second : Graph α}
    (hFirst : first.Coherent)
    (hSecond : second.Coherent)
    (hPerm : first.factors.Perm second.factors) :
    first.Alike second := by
  intro factor
  apply Option.ext
  intro table
  rw [hFirst.factor?_eq_some_iff,
    hSecond.factor?_eq_some_iff]
  exact hPerm.mem_iff

end Graph

end JointMax

------------------------------------------------------------
-- The Sweep after the Last Change
------------------------------------------------------------

namespace JointMax

/-
  What is used of the arithmetic: a value less itself is zero
  or not a number, and `larger` passes over what is not a
  number.
-/
structure Scalar.Vanishes (α : Type) [Scalar α] : Prop where
  sub_self : ∀ value : α,
    value - value = Scalar.zero ∨
      Scalar.isNaN (value - value) = true
  abs_zero :
    Scalar.abs Scalar.zero = (Scalar.zero : α)
  isNaN_abs : ∀ value : α,
    Scalar.isNaN value = true →
      Scalar.isNaN (Scalar.abs value) = true
  larger_zero :
    Scalar.larger Scalar.zero Scalar.zero = (Scalar.zero : α)
  larger_isNaN : ∀ value : α,
    Scalar.isNaN value = true →
      Scalar.larger Scalar.zero value = Scalar.zero

theorem Scalar.Vanishes.larger_cancel
    {α : Type}
    [Scalar α]
    (hVanishes : Scalar.Vanishes α)
    (value : α) :
    Scalar.larger Scalar.zero (Scalar.abs (value - value)) =
      Scalar.zero := by
  rcases hVanishes.sub_self value with hZero | hNaN
  · rw [hZero, hVanishes.abs_zero, hVanishes.larger_zero]
  · exact hVanishes.larger_isNaN _
      (hVanishes.isNaN_abs _ hNaN)

/- Every rational is a number. -/
theorem Scalar.vanishes_rat : Scalar.Vanishes Rat where
  sub_self := by
    intro value
    left
    rw [sub_self, Scalar.zero_rat]
  abs_zero := by decide +kernel
  isNaN_abs := by
    intro value hNaN
    cases hNaN
  larger_zero := by decide +kernel
  larger_isNaN := by
    intro value hNaN
    cases hNaN

namespace Solver

variable {α : Type} [Scalar α]
variable {registry : Registry} {solver final : Solver α}

/-
  In a forest, the sweep after as many sweeps as there are
  factors moves no belief.
-/
theorem Sweeps.delta_eq_zero
    (hVanishes : Scalar.Vanishes α)
    (hSolver : solver.Conforms registry)
    (hAcyclic : solver.graph.Acyclic)
    {before after : List α}
    {delta : α}
    (hSweeps :
      Sweeps solver (before ++ delta :: after) final)
    (hSome : before ≠ [])
    (hLong : solver.graph.factorCount ≤ before.length) :
    delta = Scalar.zero := by
  rcases hSweeps.split with ⟨middle, hBefore, hAfter⟩
  cases hAfter with
  | cons head tail =>
      have hMiddle := hBefore.conforms hSolver
      rcases hBefore.steady hSolver hAcyclic hLong with
        ⟨next, change, hSweep, hToVar, _⟩
      rw [head] at hSweep
      cases hSweep
      exact hMiddle.delta_eq_zero hVanishes.larger_cancel
        hVanishes.larger_zero
        (hBefore.current hSolver hSome) head hToVar

/-
  A run stops by the first sweep that is within the tolerance,
  if it is allowed that many.
-/
theorem Ran.settled_of_le
    {budget : Nat}
    {tolerance delta : α}
    {before after : List α}
    (hRan : solver.Ran budget tolerance
      (before ++ delta :: after) final)
    (hWithin : Scalar.le delta tolerance = true) :
    after = [] ∧
      settled tolerance (before ++ delta :: after) = true := by
  have hLast : after = [] := by
    by_contra hMore
    have hMember :
        delta ∈ (before ++ delta :: after).dropLast := by
      rw [List.dropLast_append_of_ne_nil (by simp),
        List.dropLast_cons_of_ne_nil hMore]
      simp
    have hMoving := hRan.restless delta hMember
    rw [hWithin] at hMoving
    cases hMoving
  subst hLast
  refine ⟨rfl, ?_⟩
  simp [settled, hWithin]

/-
  A run on a forest settles, at the latest with the sweep
  after as many sweeps as there are factors.
-/
theorem Ran.settled_of_acyclic
    (hVanishes : Scalar.Vanishes α)
    (hSolver : solver.Conforms registry)
    (hSome : solver.graph.isEmpty = false)
    (hAcyclic : solver.graph.Acyclic)
    {budget : Nat}
    {tolerance : α}
    (hBudget : solver.graph.factorCount + 1 ≤ budget)
    (hTolerance :
      Scalar.le Scalar.zero tolerance = true)
    {deltas : List α}
    (hRan : solver.Ran budget tolerance deltas final) :
    deltas.length ≤ solver.graph.factorCount + 1 ∧
      settled tolerance deltas = true := by
  have hPos : 0 < solver.graph.factorCount := by
    rw [Graph.factorCount, List.length_pos_iff]
    rintro hNone
    simp [Graph.isEmpty, hNone] at hSome
  rcases Nat.lt_or_ge solver.graph.factorCount
      deltas.length with hLong | hShort
  · have hSplit :=
      List.take_append_drop solver.graph.factorCount deltas
    have hLength :
        (deltas.take solver.graph.factorCount).length =
          solver.graph.factorCount := by
      rw [List.length_take]
      omega
    rw [List.drop_eq_getElem_cons hLong] at hSplit
    rw [← hSplit] at hRan ⊢
    have hZero :=
      hRan.sweeps.delta_eq_zero hVanishes hSolver hAcyclic
        (List.ne_nil_of_length_pos (by omega))
        (le_of_eq hLength.symm)
    rw [← hZero] at hTolerance
    rcases hRan.settled_of_le hTolerance with
      ⟨hLast, hSettled⟩
    refine ⟨?_, hSettled⟩
    rw [hLast, List.length_append, hLength]
    exact le_of_eq rfl
  · refine ⟨by omega, ?_⟩
    by_contra hOpen
    have hFull :=
      hRan.exhausted (eq_false_of_ne_true hOpen)
    omega

end Solver

end JointMax

------------------------------------------------------------
-- Settled Forests
------------------------------------------------------------

namespace JointMax

namespace Solver

variable {α : Type} [Scalar α]
variable {registry : Registry}

/- A run is sweeps in a row, none on an empty graph. -/
theorem Conforms.exists_sweeps_of_run
    {solver : Solver α}
    (hSolver : solver.Conforms registry)
    (budget : Nat)
    (tolerance : α) :
    ∃ run deltas final lastRun,
      solver.optimiseWith? budget tolerance = .ok run ∧
        Sweeps solver deltas final ∧
        run.result =
          (deltas.length, { final with lastRun := lastRun }) := by
  cases hEmpty : solver.graph.isEmpty with
  | true =>
      exact ⟨_, [], solver, _,
        optimiseWith?_of_isEmpty hEmpty budget tolerance,
        Sweeps.nil, rfl⟩
  | false =>
      rcases hSolver.optimiseWith? hEmpty budget tolerance
        with ⟨run, deltas, final, hRun, hRan, hResult⟩
      exact ⟨run, deltas, final, _, hRun, hRan.sweeps,
        hResult⟩

/-
  Forests settle, whatever the two starts: after as many
  sweeps as there are factors, both solvers hold the same
  messages and hold on to them. This asks nothing of the
  arithmetic. If moreover a value less itself vanishes, a run
  reports by the sweep after these that it has converged.
-/
theorem Reachable.settles_of_acyclic
    {first second : Solver α}
    (hFirst : first.Reachable registry)
    (hSecond : second.Reachable registry)
    (hAlike : first.graph.Alike second.graph)
    (hAcyclic : first.graph.Acyclic) :
    (∀ early late,
      first.graph.factorCount ≤ early →
      first.graph.factorCount ≤ late →
        ∃ firstDeltas firstFinal secondDeltas secondFinal,
          firstDeltas.length = early ∧
            Sweeps first firstDeltas firstFinal ∧
            secondDeltas.length = late ∧
            Sweeps second secondDeltas secondFinal ∧
            firstFinal.toVar = secondFinal.toVar ∧
            firstFinal.toFactor = secondFinal.toFactor ∧
            firstFinal.Steady) ∧
    (∀ budget tolerance otherBudget otherTolerance,
      ∃ run other,
        first.optimiseWith? budget tolerance = .ok run ∧
          second.optimiseWith? otherBudget otherTolerance =
            .ok other ∧
          (first.graph.factorCount ≤ run.result.1 →
            first.graph.factorCount ≤ other.result.1 →
              run.result.2.toVar = other.result.2.toVar ∧
                run.result.2.toFactor =
                  other.result.2.toFactor)) ∧
    (Scalar.Vanishes α →
      ∀ budget tolerance,
        first.graph.factorCount + 1 ≤ budget →
        Scalar.le Scalar.zero tolerance = true →
          ∃ run stats,
            first.optimiseWith? budget tolerance = .ok run ∧
              run.result.1 ≤ first.graph.factorCount + 1 ∧
              run.result.2.lastRun = some stats ∧
              stats.iterations = run.result.1 ∧
              stats.converged = true) := by
  have hFits := hFirst.conforms
  have hOther := hSecond.conforms
  refine ⟨?_, ?_, ?_⟩
  · intro early late hEarly hLate
    rcases hFits.exists_sweeps early with
      ⟨firstDeltas, firstFinal, rfl, hFirstSweeps⟩
    rcases hOther.exists_sweeps late with
      ⟨secondDeltas, secondFinal, rfl, hSecondSweeps⟩
    exact ⟨firstDeltas, firstFinal, secondDeltas,
      secondFinal, rfl, hFirstSweeps, rfl, hSecondSweeps,
      Sweeps.toVar_eq hFits hOther hAlike hAcyclic
        hFirstSweeps hSecondSweeps hEarly hLate,
      Sweeps.toFactor_eq hFits hOther hAlike hAcyclic
        hFirstSweeps hSecondSweeps hEarly hLate,
      hFirstSweeps.steady hFits hAcyclic hEarly⟩
  · intro budget tolerance otherBudget otherTolerance
    rcases hFits.exists_sweeps_of_run budget tolerance with
      ⟨run, deltas, final, _, hRun, hSweeps, hResult⟩
    rcases hOther.exists_sweeps_of_run otherBudget
        otherTolerance with
      ⟨other, more, last, _, hMore, hMoreSweeps, hLast⟩
    refine ⟨run, other, hRun, hMore, ?_⟩
    rw [hResult, hLast]
    intro hLong hMoreLong
    have hToVar : final.toVar = last.toVar :=
      Sweeps.toVar_eq hFits hOther hAlike hAcyclic hSweeps
        hMoreSweeps hLong hMoreLong
    have hToFactor : final.toFactor = last.toFactor :=
      Sweeps.toFactor_eq hFits hOther hAlike hAcyclic hSweeps
        hMoreSweeps hLong hMoreLong
    exact ⟨hToVar, hToFactor⟩
  · intro hVanishes budget tolerance hBudget hTolerance
    cases hEmpty : first.graph.isEmpty with
    | true =>
        exact ⟨_, ⟨0, true, Scalar.zero⟩,
          optimiseWith?_of_isEmpty hEmpty budget tolerance,
          Nat.zero_le _, rfl, rfl, rfl⟩
    | false =>
        rcases hFits.optimiseWith? hEmpty budget tolerance
          with ⟨run, deltas, final, hRun, hRan, hResult⟩
        rcases hRan.settled_of_acyclic hVanishes hFits
            hEmpty hAcyclic hBudget hTolerance with
          ⟨hLength, hSettled⟩
        rw [hSettled] at hResult
        refine ⟨run,
          ⟨deltas.length, true, deltas.getLastD Scalar.zero⟩,
          hRun, ?_, ?_, ?_, rfl⟩
        · rw [hResult]
          exact hLength
        · rw [hResult]
        · rw [hResult]

/-
  The factors of the balanced start, set in another order and
  with runs in between that leave messages behind.
-/
@[irreducible]
def rebalanced : Solver Rat :=
  (start twoCoins (Config.ofBounds 2 1)).afterAll
    [.setFactor 2 [2] #[4, 4],
      .setFactor 0 [1, 2] #[3, 0, 0, 7],
      .setFactor 1 [1] #[-1, 0],
      .optimiseWith 3 (-1),
      .setFactor 0 [1, 2] #[1, -5, -5, 0],
      .optimise,
      .setFactor 2 [2] #[-1, 0]]

theorem reachable_rebalanced :
    rebalanced.Reachable twoCoins := by
  unfold rebalanced
  exact ⟨_, _, rfl⟩

/-
  Warm and cold, the solvers agree after four sweeps, and each
  of their runs has then converged.
-/
theorem settles_balanced :
    ∃ deltas final otherDeltas otherFinal,
      deltas.length = 3 ∧
        Sweeps balanced deltas final ∧
        otherDeltas.length = 4 ∧
        Sweeps rebalanced otherDeltas otherFinal ∧
        final.toVar = otherFinal.toVar ∧
        final.toFactor = otherFinal.toFactor ∧
        final.Steady ∧
        ∃ run stats,
          balanced.optimiseWith? 4 (1 / 2) = .ok run ∧
            run.result.1 ≤ 4 ∧
            run.result.2.lastRun = some stats ∧
            stats.converged = true := by
  have hAlike : balanced.graph.Alike rebalanced.graph := by
    apply Graph.alike_of_perm
      reachable_balanced.conforms.coherent
      reachable_rebalanced.conforms.coherent
    decide +kernel
  have hThree : balanced.graph.factorCount = 3 := by
    decide +kernel
  rcases reachable_balanced.settles_of_acyclic
      reachable_rebalanced hAlike acyclic_balanced with
    ⟨hAgree, _, hConverged⟩
  rw [hThree] at hAgree hConverged
  rcases hAgree 3 4 (by omega) (by omega) with
    ⟨deltas, final, otherDeltas, otherFinal, hLength,
      hSweeps, hOtherLength, hOtherSweeps, hToVar,
      hToFactor, hSteady⟩
  rcases hConverged Scalar.vanishes_rat 4 (1 / 2)
      (by omega) (by decide +kernel) with
    ⟨run, stats, hRun, hCount, hStats, _, hTrue⟩
  exact ⟨deltas, final, otherDeltas, otherFinal, hLength,
    hSweeps, hOtherLength, hOtherSweeps, hToVar, hToFactor,
    hSteady, run, stats, hRun, hCount, hStats, hTrue⟩

end Solver

end JointMax
