import Mathlib
import JointMax.Proofs.Likeness

/-
  Runs can be taken up again. What a sweep and the test after
  it read is all kept between calls, so a run that ended for
  want of sweeps and a further run make up one longer run.

  Main declarations:
    * `Solver.Ran.append` and `Solver.Ran.widen`
    * `Solver.Reachable.run_resumed`
-/

------------------------------------------------------------
-- Runs in a Row
------------------------------------------------------------

namespace JointMax

theorem settled_append
    {α : Type}
    [Scalar α]
    {tolerance : α}
    {deltas : List α}
    (hOpen : settled tolerance deltas = false)
    (others : List α) :
    settled tolerance (deltas ++ others) =
      settled tolerance others := by
  cases others with
  | nil => rw [List.append_nil, hOpen]; rfl
  | cons head tail =>
      unfold settled
      rw [List.getLast?_append_of_ne_nil _
        (List.cons_ne_nil head tail)]

namespace Solver

variable {α : Type} [Scalar α]
variable {solver middle final : Solver α}

/- No change of an open run is within the tolerance. -/
theorem Ran.restless_of_open
    {budget : Nat}
    {tolerance : α}
    {deltas : List α}
    (hRan : solver.Ran budget tolerance deltas final)
    (hOpen : settled tolerance deltas = false) :
    ∀ delta ∈ deltas, Scalar.le delta tolerance = false := by
  intro delta hDelta
  rcases List.eq_nil_or_concat' deltas with
    rfl | ⟨earlier, last, rfl⟩
  · cases hDelta
  · rcases List.mem_append.mp hDelta with hEarlier | hLast
    · apply hRan.restless
      rw [List.dropLast_concat]
      exact hEarlier
    · obtain rfl := List.mem_singleton.mp hLast
      simpa [settled] using hOpen

/- An open run and another one make up a longer run. -/
theorem Ran.append
    {early late : Nat}
    {tolerance : α}
    {deltas others : List α}
    (hFirst : solver.Ran early tolerance deltas middle)
    (hOpen : settled tolerance deltas = false)
    (hSecond : middle.Ran late tolerance others final) :
    solver.Ran (early + late) tolerance (deltas ++ others)
      final where
  sweeps := hFirst.sweeps.append hSecond.sweeps
  within := by
    rw [List.length_append]
    exact Nat.add_le_add hFirst.within hSecond.within
  restless := by
    intro delta hDelta
    rcases List.eq_nil_or_concat' others with
      rfl | ⟨earlier, last, rfl⟩
    · rw [List.append_nil] at hDelta
      exact hFirst.restless delta hDelta
    · rw [List.dropLast_append_of_ne_nil (by simp),
        List.mem_append] at hDelta
      rcases hDelta with hDelta | hDelta
      · exact hFirst.restless_of_open hOpen delta hDelta
      · exact hSecond.restless delta hDelta
  exhausted := by
    rw [settled_append hOpen, List.length_append,
      hFirst.exhausted hOpen]
    intro hStill
    rw [hSecond.exhausted hStill]

/- A settled run ends where it does under any wider bound. -/
theorem Ran.widen
    {early : Nat}
    {tolerance : α}
    {deltas : List α}
    (hRan : solver.Ran early tolerance deltas final)
    (hSettled : settled tolerance deltas = true)
    (late : Nat) :
    solver.Ran (early + late) tolerance deltas final where
  sweeps := hRan.sweeps
  within := Nat.le_add_right_of_le hRan.within
  restless := hRan.restless
  exhausted := by
    intro hOpen
    rw [hSettled] at hOpen
    cases hOpen

end Solver

end JointMax

------------------------------------------------------------
-- Resumed Runs
------------------------------------------------------------

namespace JointMax

namespace Solver

variable {α : Type} [Scalar α]
variable {registry : Registry} {solver middle : Solver α}

/- What the last run reported plays no part in the next one. -/
theorem Ran.withLastRun
    {budget : Nat}
    {tolerance : α}
    {deltas : List α}
    {final : Solver α}
    {lastRun : Option (RunStats α)}
    (hMiddle : middle.Conforms registry)
    (hRan :
      { middle with lastRun := lastRun }.Ran budget tolerance
        deltas final) :
    ∃ other,
      middle.Ran budget tolerance deltas other ∧
        final.Alike other ∧
        final.toFactor = other.toFactor := by
  have hAlike :
      { middle with lastRun := lastRun }.Alike middle :=
    ⟨fun _ => rfl, rfl, rfl⟩
  rcases hAlike.ran (hMiddle.withLastRun lastRun) hMiddle
      hRan with
    ⟨other, hOther, hFinal, hToFactor⟩
  exact ⟨other, hOther, hFinal, hToFactor (.inr rfl)⟩

/-
  A run that ended for want of sweeps can be taken up again:
  the two runs leave what one longer run leaves, and count as
  many sweeps. A run that has converged is all of the longer
  run.
-/
theorem Reachable.run_resumed
    (hSolver : solver.Reachable registry)
    (hSome : solver.graph.isEmpty = false)
    (early late : Nat)
    (tolerance : α) :
    ∃ run rest whole stats restStats wholeStats values,
      solver.optimiseWith? early tolerance = .ok run ∧
        run.result.2.lastRun = some stats ∧
        run.result.2.optimiseWith? late tolerance =
          .ok rest ∧
        rest.result.2.lastRun = some restStats ∧
        solver.optimiseWith? (early + late) tolerance =
          .ok whole ∧
        whole.result.2.lastRun = some wholeStats ∧
        whole.result.2.values? = .ok values ∧
        (stats.converged = false →
          rest.result.2.toVar = whole.result.2.toVar ∧
            rest.result.2.toFactor =
              whole.result.2.toFactor ∧
            rest.result.2.beliefs = whole.result.2.beliefs ∧
            rest.result.2.values? = .ok values ∧
            restStats.converged = wholeStats.converged ∧
            run.result.1 + rest.result.1 =
              whole.result.1 ∧
            (1 ≤ late →
              restStats.maxDelta = wholeStats.maxDelta)) ∧
        (stats.converged = true →
          run.result = whole.result) := by
  have hFits := hSolver.conforms
  rcases hFits.optimiseWith? hSome early tolerance with
    ⟨run, deltas, middle, hRun, hRan, hResult⟩
  rcases hFits.optimiseWith? hSome (early + late) tolerance
    with ⟨whole, all, final, hWhole, hWholeRan, hWholeResult⟩
  have hMiddle := hRan.sweeps.conforms hFits
  have hFinal := hWholeRan.sweeps.conforms hFits
  have hMiddleSome : middle.graph.isEmpty = false := by
    rw [hRan.sweeps.graph_eq hFits]
    exact hSome
  let stats : RunStats α :=
    ⟨deltas.length, settled tolerance deltas,
      deltas.getLastD Scalar.zero⟩
  have hResumed := hMiddle.withLastRun (some stats)
  rcases hResumed.optimiseWith? hMiddleSome late tolerance
    with ⟨rest, others, last, hRest, hRestRan, hRestResult⟩
  rcases hFinal.values? with ⟨values, hValues, _⟩
  refine ⟨run, rest, whole, stats,
    ⟨others.length, settled tolerance others,
      others.getLastD Scalar.zero⟩,
    ⟨all.length, settled tolerance all,
      all.getLastD Scalar.zero⟩,
    values, hRun, ?_, ?_, ?_, hWhole, ?_, ?_, ?_, ?_⟩
  · rw [hResult]
  · rw [hResult]
    exact hRest
  · rw [hRestResult]
  · rw [hWholeResult]
  · rw [hWholeResult]
    exact hValues
  · intro hOpen
    rcases hRestRan.withLastRun hMiddle with
      ⟨other, hOther, hAlike, hToFactor⟩
    have hJoined := hRan.append hOpen hOther
    rcases hJoined.unique hWholeRan with ⟨rfl, rfl⟩
    have hLast := hRestRan.sweeps.conforms hResumed
    rw [hResult, hRestResult, hWholeResult]
    refine ⟨hAlike.toVar_eq, hToFactor, hAlike.beliefs_eq,
      ?_, ?_, ?_, ?_⟩
    · refine Eq.trans ?_ hValues
      exact hLast.values?_congr hFinal hAlike.graph
        hAlike.toVar_eq
    · exact (settled_append hOpen others).symm
    · exact (List.length_append ..).symm
    · intro hLate
      have hMore := hRestRan.ne_nil hLate
      rw [← List.dropLast_append_getLast hMore,
        ← List.append_assoc]
      simp only [List.getLastD_concat]
  · intro hSettled
    rcases (hRan.widen hSettled late).unique hWholeRan with
      ⟨rfl, rfl⟩
    rw [hResult, hWholeResult]

/- Two sweeps of the warm start are not enough to converge. -/
theorem run_resumed_rebalanced :
    rebalanced.graph.isEmpty = false ∧
      ∃ run rest whole stats,
        rebalanced.optimiseWith? 2 0 = .ok run ∧
          run.result.2.lastRun = some stats ∧
          stats.converged = false ∧
          run.result.2.optimiseWith? 10 0 = .ok rest ∧
          rebalanced.optimiseWith? 12 0 = .ok whole ∧
          rest.result.2.toVar = whole.result.2.toVar ∧
          rest.result.2.toFactor =
            whole.result.2.toFactor ∧
          rest.result.2.beliefs = whole.result.2.beliefs ∧
          run.result.1 + rest.result.1 = whole.result.1 := by
  have hSome : rebalanced.graph.isEmpty = false := by
    decide +kernel
  have hReport :
      (rebalanced.optimiseWith? 2 0).map (fun run =>
          run.result.2.lastRun.map RunStats.converged) =
        .ok (some false) := by
    decide +kernel
  rcases reachable_rebalanced.run_resumed hSome 2 10 0 with
    ⟨run, rest, whole, stats, _, _, _, hRun, hStats, hRest,
      _, hWhole, _, _, hResumed, _⟩
  rw [hRun] at hReport
  have hOpen : stats.converged = false := by
    have hLast :
        run.result.2.lastRun.map RunStats.converged =
          some false :=
      Except.ok.inj hReport
    rw [hStats] at hLast
    exact Option.some.inj hLast
  rcases hResumed hOpen with
    ⟨hToVar, hToFactor, hBeliefs, _, _, hCount, _⟩
  exact ⟨hSome, run, rest, whole, stats, hRun, hStats,
    hOpen, hRest, hWhole, hToVar, hToFactor, hBeliefs,
    hCount⟩

end Solver

end JointMax
