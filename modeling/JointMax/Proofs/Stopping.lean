import Mathlib
import JointMax.Proofs.ForestOptimum

/-
  When a run at tolerance zero has come to rest. The run stops
  by looking at beliefs, which are sums of messages: messages
  may still move when their sums do not. It is at rest if and
  only if the variables would repeat what they told last.

  Main declarations:
    * `Solver.Steady` and `Solver.Repeats`
    * `Solver.Reachable.at_rest_iff_repeats`
    * `Solver.Reachable.optimum_iff_unmoved`
-/

------------------------------------------------------------
-- Steady Solvers
------------------------------------------------------------

namespace JointMax

namespace Solver

variable {α : Type} [Scalar α]

/- One more sweep would leave every message unchanged. -/
def Steady (solver : Solver α) : Prop :=
  ∃ next delta,
    solver.sweep? = .ok (next, delta) ∧
      next.toVar = solver.toVar ∧
      next.toFactor = solver.toFactor

/- Every variable would tell each factor what it told last. -/
def Repeats (solver : Solver α) : Prop :=
  ∀ edge ∈ solver.graph.edges, ∃ message,
    solver.toFactor[edge]? = some message ∧
      solver.varMessage? edge = .ok message

instance [DecidableEq α] (solver : Solver α) :
    Decidable solver.Repeats :=
  decidable_of_iff
    (∀ edge ∈ solver.graph.edges,
      solver.toFactor[edge]?.map Except.ok =
        some (solver.varMessage? edge)) <| by
    simp [Repeats, Option.map_eq_some_iff, eq_comm]

variable {registry : Registry} {solver final : Solver α}

theorem Conforms.repeats_of_steady
    (hSolver : solver.Conforms registry)
    (hSteady : solver.Steady) :
    solver.Repeats := by
  rcases hSteady with ⟨next, delta, hSweep, _, hToFactor⟩
  rcases hSolver.of_sweep? hSweep with ⟨_, hSwept, _⟩
  intro edge hEdge
  rcases hSolver.varMessage? hEdge with
    ⟨message, hMessage, _⟩
  refine ⟨message, ?_, hMessage⟩
  rw [← hToFactor, hSwept.toFactor_iff]
  exact ⟨hEdge, hMessage⟩

/-
  After a sweep, a solver whose variables repeat themselves is
  steady: factors answer the same to the same messages.
-/
theorem Conforms.steady_of_repeats
    (hSolver : solver.Conforms registry)
    {delta : α}
    (hSweep : solver.sweep? = .ok (final, delta))
    (hRepeats : final.Repeats) :
    final.Steady := by
  rcases hSolver.of_sweep? hSweep with
    ⟨hFinal, hSwept, _⟩
  rcases hFinal.sweep? with
    ⟨next, further, hFurther, hNext, hNextSwept, _⟩
  have hToFactor : next.toFactor = final.toFactor := by
    apply Std.ExtTreeMap.ext_getElem?
    intro edge
    by_cases hEdge : edge ∈ final.graph.edges
    · rcases hRepeats edge hEdge with
        ⟨message, hStored, hMessage⟩
      rw [hStored, hNextSwept.toFactor_iff]
      exact ⟨hEdge, hMessage⟩
    · rw [hFinal.coherent.mem_edges] at hEdge
      have hNextEdge :
          ¬ next.graph.Touches edge.factor edge.var := by
        rwa [hNextSwept.graph_eq]
      rw [hNext.toFactor?_eq_none hNextEdge,
        hFinal.toFactor?_eq_none hEdge]
  have hAlike : final.graph.Alike solver.graph := by
    intro factor
    rw [hSwept.graph_eq]
  have hToVar : next.toVar = final.toVar := by
    apply Std.ExtTreeMap.ext_getElem?
    intro edge
    apply Swept.toVar_congr hAlike hNextSwept hSwept
    intro other _ _
    rw [hToFactor]
  exact ⟨next, further, hFurther, hToVar, hToFactor⟩

/- What a run remembers has no part in the next sweep. -/
theorem Steady.withLastRun
    (hSolver : solver.Conforms registry)
    (hSteady : solver.Steady)
    (lastRun : Option (RunStats α)) :
    { solver with lastRun := lastRun }.Steady := by
  rcases hSteady with
    ⟨next, delta, hSweep, hToVar, hToFactor⟩
  rcases hSolver.of_sweep? hSweep with ⟨_, hSwept, _⟩
  let other : Solver α :=
    { solver with lastRun := lastRun }
  have hOther : other.Conforms registry :=
    hSolver.withLastRun lastRun
  have hAlike : other.graph.Alike solver.graph :=
    fun _ => rfl
  rcases hOther.sweep? with
    ⟨found, change, hFound, _, hFoundSwept, _⟩
  have hSameToFactor : found.toFactor = next.toFactor := by
    apply Std.ExtTreeMap.ext_getElem?
    intro edge
    exact Swept.toFactor_congr hOther hSolver hAlike
      hFoundSwept hSwept (fun _ _ _ => rfl)
  have hSameToVar : found.toVar = next.toVar := by
    apply Std.ExtTreeMap.ext_getElem?
    intro edge
    apply Swept.toVar_congr hAlike hFoundSwept hSwept
    intro _ _ _
    rw [hSameToFactor]
  exact ⟨found, change, hFound, hSameToVar.trans hToVar,
    hSameToFactor.trans hToFactor⟩

/-
  A forest is steady after as many sweeps as there are
  factors: one more sweep is as good as none.
-/
theorem Sweeps.steady
    (hSolver : solver.Conforms registry)
    (hAcyclic : solver.graph.Acyclic)
    {deltas : List α}
    (hSweeps : Sweeps solver deltas final)
    (hLong : solver.graph.factorCount ≤ deltas.length) :
    final.Steady := by
  rcases (hSweeps.conforms hSolver).sweep? with
    ⟨next, delta, hSweep, _⟩
  have hLonger : Sweeps solver (deltas ++ [delta]) next :=
    hSweeps.append (Sweeps.cons hSweep Sweeps.nil)
  have hMore :
      solver.graph.factorCount ≤
        (deltas ++ [delta]).length := by
    rw [List.length_append]
    omega
  exact ⟨next, delta, hSweep,
    Sweeps.toVar_eq hSolver hSolver (fun _ => rfl) hAcyclic
      hLonger hSweeps hMore hLong,
    Sweeps.toFactor_eq hSolver hSolver (fun _ => rfl)
      hAcyclic hLonger hSweeps hMore hLong⟩

end Solver

end JointMax

------------------------------------------------------------
-- Runs from Rest
------------------------------------------------------------

namespace JointMax

/-
  What is used of the scalars: a value less itself has no size
  or none that is a number.
-/
structure Scalar.Cancels (α : Type) [Scalar α] : Prop where
  larger_cancel : ∀ value : α,
    Scalar.larger Scalar.zero (Scalar.abs (value - value)) =
      Scalar.zero
  larger_zero :
    Scalar.larger Scalar.zero Scalar.zero = (Scalar.zero : α)
  le_zero :
    Scalar.le Scalar.zero (Scalar.zero : α) = true

theorem Scalar.cancels_rat : Scalar.Cancels Rat where
  larger_cancel := by
    intro value
    change Scalar.larger 0 (Scalar.abs (value - value)) = 0
    rw [sub_self]
    decide +kernel
  larger_zero := by decide +kernel
  le_zero := by decide +kernel

/- Values that are not larger than zero leave it the largest. -/
theorem Scalar.foldl_larger_eq_zero
    {α : Type}
    [Scalar α]
    {values : List α}
    (hEach : ∀ value ∈ values,
      Scalar.larger Scalar.zero value = Scalar.zero) :
    values.foldl Scalar.larger Scalar.zero =
      Scalar.zero := by
  induction values with
  | nil => rfl
  | cons value values ih =>
      rw [List.forall_mem_cons] at hEach
      rw [List.foldl_cons, hEach.1]
      exact ih hEach.2

namespace Table

variable {α : Type} [Scalar α]

/- A table does not differ from itself. -/
theorem maxNorm_sub_self
    (hCancel : ∀ value : α,
      Scalar.larger Scalar.zero
        (Scalar.abs (value - value)) = Scalar.zero)
    (table : Table α) :
    (zipCells Op.sub.apply table table rfl).maxNorm =
      Scalar.zero := by
  rw [maxNorm_eq_foldl]
  apply Scalar.foldl_larger_eq_zero
  rw [List.forall_mem_map]
  intro index hIndex
  have hCell : index < table.scope.count :=
    List.mem_range.mp hIndex
  rw [cell_zipCells rfl hCell]
  exact hCancel (table.cell index)

end Table

namespace Solver

variable {α : Type} [Scalar α]
variable {registry : Registry} {solver : Solver α}

/- Beliefs are sums over the messages of factors alone. -/
theorem belief?_congr
    {first second : Solver α}
    (hGraph : first.graph = second.graph)
    (hToVar : first.toVar = second.toVar)
    (var : VarId) :
    first.belief? var = second.belief? var := by
  unfold Solver.belief? Solver.received?
    Solver.messageToVar?
  rw [hGraph, hToVar]

/- A sweep of a steady solver moves no belief. -/
theorem Conforms.delta_eq_zero
    (hCancel : ∀ value : α,
      Scalar.larger Scalar.zero
        (Scalar.abs (value - value)) = Scalar.zero)
    (hZero :
      Scalar.larger Scalar.zero Scalar.zero =
        (Scalar.zero : α))
    (hSolver : solver.Conforms registry)
    (hCurrent : solver.Current)
    {next : Solver α}
    {delta : α}
    (hSweep : solver.sweep? = .ok (next, delta))
    (hToVar : next.toVar = solver.toVar) :
    delta = Scalar.zero := by
  rcases hSolver.of_sweep? hSweep with
    ⟨_, hSwept, changes, hChanges, hDelta⟩
  rw [hDelta]
  apply Scalar.foldl_larger_eq_zero
  intro change hChange
  rcases exists_of_forall₂_right hChanges hChange with
    ⟨var, _, belief, hBelief, hMoved⟩
  have hOld : solver.beliefs[var]? = some belief := by
    rw [hCurrent.beliefs_iff,
      ← belief?_congr hSwept.graph_eq hToVar,
      ← hSwept.beliefs_iff]
    exact hBelief
  rw [change?_of_some hOld rfl] at hMoved
  rw [← Except.ok.inj hMoved,
    Table.maxNorm_sub_self hCancel belief, hZero]

/- From rest, a run performs one sweep. -/
theorem Ran.eq_singleton
    (hCancels : Scalar.Cancels α)
    {next final : Solver α}
    (hSweep : solver.sweep? = .ok (next, Scalar.zero))
    {budget : Nat}
    (hBudget : 0 < budget)
    {deltas : List α}
    (hRan :
      solver.Ran budget Scalar.zero deltas final) :
    deltas = [Scalar.zero] := by
  cases hSweeps : hRan.sweeps with
  | nil =>
      have hLength := hRan.exhausted rfl
      simp only [List.length_nil] at hLength
      omega
  | @cons _ _ _ first rest head tail =>
      rw [hSweep] at head
      cases head
      cases rest with
      | nil => rfl
      | cons second others =>
          have hMoving :=
            hRan.restless Scalar.zero (by simp)
          rw [hCancels.le_zero] at hMoving
          cases hMoving

/- A run from rest is one sweep that moves nothing. -/
theorem Conforms.run_of_steady
    (hCancels : Scalar.Cancels α)
    (hSolver : solver.Conforms registry)
    (hSome : solver.graph.isEmpty = false)
    (hCurrent : solver.Current)
    (hSteady : solver.Steady)
    {budget : Nat}
    (hBudget : 0 < budget) :
    ∃ run,
      solver.optimiseWith? budget Scalar.zero = .ok run ∧
        run.result.1 = 1 ∧
        run.result.2.lastRun =
          some ⟨1, true, Scalar.zero⟩ := by
  rcases hSteady with ⟨next, delta, hSweep, hToVar, _⟩
  have hZero :=
    hSolver.delta_eq_zero hCancels.larger_cancel
      hCancels.larger_zero hCurrent hSweep hToVar
  subst hZero
  rcases hSolver.optimiseWith? hSome budget Scalar.zero with
    ⟨run, deltas, final, hRun, hRan, hResult⟩
  have hOne :=
    hRan.eq_singleton hCancels hSweep hBudget
  subst hOne
  have hSettled :
      settled (Scalar.zero : α) [Scalar.zero] = true :=
    hCancels.le_zero
  refine ⟨run, hRun, ?_, ?_⟩
  · rw [hResult]
    rfl
  · rw [hResult, hSettled]
    rfl

end Solver

end JointMax

------------------------------------------------------------
-- Coming to Rest
------------------------------------------------------------

namespace JointMax

namespace Solver

variable {α : Type} [Scalar α]
variable {registry : Registry} {solver : Solver α}

/-
  Whether a run at tolerance zero has come to rest. It may
  have stopped without: then the next sweep moves messages,
  and the next run goes on. It is at rest if and only if the
  variables would repeat themselves, and on a forest as soon
  as there were as many sweeps as there are factors.
-/
theorem Reachable.at_rest_iff_repeats
    (hCancels : Scalar.Cancels α)
    (hReachable : solver.Reachable registry)
    (budget : Nat) :
    ∃ run,
      solver.optimiseWith? budget Scalar.zero = .ok run ∧
        (0 < run.result.1 →
          ((run.result.2.Steady ∧
            ∀ again, 1 ≤ again → ∃ further,
              run.result.2.optimiseWith? again Scalar.zero =
                  .ok further ∧
                further.result.1 = 1 ∧
                further.result.2.lastRun =
                  some ⟨1, true, Scalar.zero⟩) ↔
            run.result.2.Repeats) ∧
          (solver.graph.Acyclic →
            solver.graph.factorCount ≤ run.result.1 →
              run.result.2.Repeats)) := by
  have hSolver := hReachable.conforms
  cases hEmpty : solver.graph.isEmpty with
  | true =>
      have hRun :=
        optimiseWith?_of_isEmpty hEmpty budget Scalar.zero
      refine ⟨_, hRun, ?_⟩
      intro hPos
      exact absurd hPos (Nat.lt_irrefl 0)
  | false =>
      rcases hSolver.optimiseWith? hEmpty budget
          Scalar.zero with
        ⟨run, deltas, final, hRun, hRan, hResult⟩
      refine ⟨run, hRun, ?_⟩
      rw [hResult]
      intro hPos
      have hSome : deltas ≠ [] :=
        List.length_pos_iff.mp hPos
      have hFinal := hRan.sweeps.conforms hSolver
      have hGraph := hRan.sweeps.graph_eq hSolver
      have hFinalSome : final.graph.isEmpty = false := by
        rw [hGraph]
        exact hEmpty
      have hCurrent := hRan.sweeps.current hSolver hSome
      rcases hRan.sweeps.exists_last hSome with
        ⟨before, delta, hBefore, hLast⟩
      have hFits := hBefore.conforms hSolver
      refine ⟨⟨?_, ?_⟩, ?_⟩
      · rintro ⟨hSteady, _⟩
        exact (hFinal.withLastRun _).repeats_of_steady
          hSteady
      · intro hRepeats
        have hStill :=
          hFits.steady_of_repeats hLast hRepeats
        let stats : RunStats α :=
          ⟨deltas.length, settled Scalar.zero deltas,
            deltas.getLastD Scalar.zero⟩
        have hSteady :=
          hStill.withLastRun hFinal (some stats)
        refine ⟨hSteady, ?_⟩
        intro again hAgain
        exact (hFinal.withLastRun (some stats)).run_of_steady
          hCancels hFinalSome
          (hCurrent.withLastRun (some stats)) hSteady hAgain
      · intro hAcyclic hLong
        have hSteady : final.Steady :=
          hRan.sweeps.steady hSolver hAcyclic hLong
        exact hFinal.repeats_of_steady hSteady

/- The second run from the balanced start comes to rest. -/
theorem at_rest_balanced :
    ∃ run,
      (balanced.afterAll
        [.optimiseWith 10 0]).optimiseWith? 10 0 =
          .ok run ∧
        run.result.1 = 2 ∧ run.result.2.Steady := by
  have hReachable :=
    reachable_balanced.afterAll [.optimiseWith 10 0]
  rcases hReachable.at_rest_iff_repeats Scalar.cancels_rat
      10 with
    ⟨run, hRun, hRest⟩
  have hCheck :
      ((balanced.afterAll
        [.optimiseWith 10 0]).optimiseWith? 10 0).map
          (fun run =>
            (run.result.1, decide run.result.2.Repeats)) =
        .ok (2, true) := by
    decide +kernel
  rw [Scalar.zero_rat] at hRun
  rw [hRun] at hCheck
  have hPair := Except.ok.inj hCheck
  have hTwo : run.result.1 = 2 := congrArg Prod.fst hPair
  have hRepeats : run.result.2.Repeats :=
    of_decide_eq_true (congrArg Prod.snd hPair)
  have hAtRest := (hRest (by omega)).1.mpr hRepeats
  exact ⟨run, hRun, hTwo, hAtRest.1⟩

/-
  The first run stops after one sweep, in which all messages
  to a variable add up to zero. It is not at rest, and the
  next run goes on.
-/
theorem not_at_rest_balanced :
    ∃ run,
      balanced.optimiseWith? 10 0 = .ok run ∧
        run.result.1 = 1 ∧
        run.result.2.lastRun = some ⟨1, true, 0⟩ ∧
        ¬ run.result.2.Steady ∧
        ∃ further,
          run.result.2.optimiseWith? 10 0 = .ok further ∧
            further.result.1 = 2 := by
  rcases reachable_balanced.conforms.exists_optimiseWith?
      10 0 with
    ⟨run, hRun, hConforms, _⟩
  rcases hConforms.exists_optimiseWith? 10 0 with
    ⟨further, hFurther, _⟩
  have hCheck :
      (balanced.optimiseWith? 10 0).map (fun run =>
        (run.result.1, run.result.2.lastRun,
          decide run.result.2.Repeats,
          (run.result.2.optimiseWith? 10 0).map fun further =>
            further.result.1)) =
        .ok (1, some ⟨1, true, 0⟩, false, .ok 2) := by
    decide +kernel
  rw [hRun] at hCheck
  have hAll := Except.ok.inj hCheck
  simp only [Prod.mk.injEq, decide_eq_false_iff_not]
    at hAll
  rcases hAll with ⟨hOne, hStats, hMoves, hNext⟩
  rw [hFurther] at hNext
  refine ⟨run, hRun, hOne, hStats, ?_, further, hFurther,
    Except.ok.inj hNext⟩
  intro hSteady
  exact hMoves (hConforms.repeats_of_steady hSteady)

end Solver

end JointMax

------------------------------------------------------------
-- Optima of Stopped Runs
------------------------------------------------------------

namespace JointMax

namespace Solver

variable {registry : Registry} {solver : Solver Rat}

/-
  A run at tolerance zero on a forest with a sole optimum. It
  may stop with other values. They are the optimum if and only
  if so many further sweeps as there are factors do not change
  them; a run that is at rest, or was as long, has found it.
-/
theorem Reachable.optimum_iff_unmoved
    (hReachable : solver.Reachable registry)
    (hSome : solver.graph.isEmpty = false)
    (hAcyclic : solver.graph.Acyclic)
    {best : VarId → Nat}
    (hBest : solver.graph.SoleOptimum best)
    (budget : Nat) :
    ∃ run further,
      solver.optimiseWith? budget 0 = .ok run ∧
        run.result.2.optimiseWith? solver.graph.factorCount
          (-1) = .ok further ∧
        (run.result.2.values? =
            .ok (solver.graph.vars.map fun var =>
              (var, best var)) ↔
          further.result.2.values? =
            run.result.2.values?) ∧
        (run.result.2.Steady ∨
            solver.graph.factorCount ≤ run.result.1 →
          run.result.2.values? =
            .ok (solver.graph.vars.map fun var =>
              (var, best var))) := by
  have hSolver := hReachable.conforms
  rcases hSolver.exists_optimiseWith? budget 0 with
    ⟨run, hRun, hFinal, _⟩
  rcases hSolver.optimiseWith? hSome budget 0 with
    ⟨found, deltas, reached, hFound, hRan, hResult⟩
  rw [hRun] at hFound
  cases hFound
  have hGraph : run.result.2.graph = solver.graph := by
    rw [hResult]
    exact hRan.sweeps.graph_eq hSolver
  rw [← hGraph] at hSome hAcyclic hBest ⊢
  rcases hFinal.optimiseWith? hSome
      run.result.2.graph.factorCount (-1) with
    ⟨further, more, last, hFurther, hMore, hLast⟩
  have hLength :=
    hMore.length_eq hFinal (by decide +kernel)
  have hOptimum :
      further.result.2.values? =
        .ok (run.result.2.graph.vars.map fun var =>
          (var, best var)) := by
    rw [hLast]
    exact hMore.sweeps.values? hFinal hAcyclic
      (le_of_eq hLength.symm) hBest
  refine ⟨run, further, hRun, hFurther, ?_, ?_⟩
  · rw [hOptimum]
    exact eq_comm
  · intro hEnough
    rcases hEnough with hSteady | hLong
    · rcases hSteady with ⟨next, delta, hSweep, hToVar, _⟩
      have hExact :=
        hFinal.exact_of_sweep? hAcyclic hSweep hToVar
      exact hExact.values? hFinal hBest
    · rw [hGraph] at hAcyclic hBest hLong ⊢
      rw [hResult] at hLong ⊢
      exact hRan.sweeps.values? hSolver hAcyclic hLong hBest

/- Further sweeps move the values of the balanced start. -/
theorem moved_balanced :
    ∃ run further,
      balanced.optimiseWith? 10 0 = .ok run ∧
        run.result.2.optimiseWith?
          balanced.graph.factorCount (-1) = .ok further ∧
        further.result.2.values? ≠ run.result.2.values? := by
  rcases reachable_balanced.optimum_iff_unmoved
      isEmpty_balanced acyclic_balanced soleOptimum_balanced
      10 with
    ⟨run, further, hRun, hFurther, hUnmoved, _⟩
  refine ⟨run, further, hRun, hFurther, ?_⟩
  have hCheck :
      (balanced.optimiseWith? 10 0).map (fun run =>
        run.result.2.values?) =
        .ok (.ok [(1, 0), (2, 0)]) := by
    decide +kernel
  rw [hRun] at hCheck
  have hValues :
      run.result.2.values? = .ok [(1, 0), (2, 0)] :=
    Except.ok.inj hCheck
  intro hStill
  have hFound := hUnmoved.mpr hStill
  rw [hValues, vars_balanced] at hFound
  exact absurd hFound (by decide)

/-
  The balanced start is a forest whose sole optimum are the
  second values. The run reports to have converged, and its
  values are the first ones.
-/
theorem converged_beside_optimum :
    balanced.Reachable twoCoins ∧
      balanced.graph.isEmpty = false ∧
      balanced.graph.Acyclic ∧
      (balanced.graph.SoleOptimum fun _ => 1) ∧
      ∃ run,
        balanced.optimiseWith? 10 0 = .ok run ∧
          run.result.2.lastRun = some ⟨1, true, 0⟩ ∧
          run.result.2.values? = .ok [(1, 0), (2, 0)] := by
  refine ⟨reachable_balanced, isEmpty_balanced,
    acyclic_balanced, soleOptimum_balanced, ?_⟩
  rcases reachable_balanced.conforms.exists_optimiseWith?
      10 0 with
    ⟨run, hRun, _⟩
  have hCheck :
      (balanced.optimiseWith? 10 0).map (fun run =>
        (run.result.2.lastRun, run.result.2.values?)) =
        .ok (some ⟨1, true, 0⟩, .ok [(1, 0), (2, 0)]) := by
    decide +kernel
  rw [hRun] at hCheck
  have hPair := Except.ok.inj hCheck
  exact ⟨run, hRun, congrArg Prod.fst hPair,
    congrArg Prod.snd hPair⟩

end Solver

end JointMax
