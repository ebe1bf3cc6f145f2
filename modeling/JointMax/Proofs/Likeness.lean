import Mathlib
import JointMax.Proofs.Convergence

/-
  What a run depends on: the factors as a map from ids to
  tables, what they have told the variables, and the beliefs
  that were kept. The order in which factors came does not
  matter, nor does what variables have told them before.

  Main declarations:
    * `Solver.Ran.unique`, runs are determined
    * `Solver.Alike`, solvers that no sweep tells apart
    * `Solver.Alike.sweep?` and `Solver.Alike.sweeps`
    * `Solver.Reachable.run_of_alike`
-/

------------------------------------------------------------
-- Runs are Determined
------------------------------------------------------------

namespace JointMax

namespace Solver

variable {α : Type} [Scalar α]
variable {solver first second : Solver α}

/- More sweeps from the same start go through fewer ones. -/
theorem Sweeps.exists_append
    {early late : List α}
    (hEarly : Sweeps solver early first)
    (hLate : Sweeps solver late second)
    (hLength : early.length ≤ late.length) :
    ∃ more,
      late = early ++ more ∧ Sweeps first more second := by
  induction hEarly generalizing late with
  | nil => exact ⟨late, rfl, hLate⟩
  | cons head _ ih =>
      cases hLate with
      | nil => simp at hLength
      | cons other tail =>
          rw [head] at other
          cases other
          rcases ih tail (by simpa using hLength) with
            ⟨more, rfl, hMore⟩
          exact ⟨more, rfl, hMore⟩

/- A run that may end does not go on. -/
theorem Ran.eq_nil_of_append
    {budget : Nat}
    {tolerance : α}
    {deltas more : List α}
    (hShort : solver.Ran budget tolerance deltas first)
    (hLong :
      solver.Ran budget tolerance (deltas ++ more) second) :
    more = [] := by
  by_contra hMore
  have hOpen : settled tolerance deltas = false := by
    unfold settled
    cases hLast : deltas.getLast? with
    | none => rfl
    | some delta =>
        apply hLong.restless
        rw [List.dropLast_append_of_ne_nil hMore]
        exact List.mem_append_left _
          (List.mem_of_getLast? hLast)
  have hFull := hShort.exhausted hOpen
  have hWithin := hLong.within
  have hPos := List.length_pos_iff.mpr hMore
  rw [List.length_append] at hWithin
  omega

theorem Ran.unique
    {budget : Nat}
    {tolerance : α}
    {deltas others : List α}
    (hFirst : solver.Ran budget tolerance deltas first)
    (hSecond : solver.Ran budget tolerance others second) :
    deltas = others ∧ first = second := by
  wlog hLength : deltas.length ≤ others.length
  · rcases this hSecond hFirst (by omega) with ⟨rfl, rfl⟩
    exact ⟨rfl, rfl⟩
  rcases hFirst.sweeps.exists_append hSecond.sweeps hLength
    with ⟨more, rfl, hMore⟩
  obtain rfl := hFirst.eq_nil_of_append hSecond
  cases hMore
  exact ⟨(List.append_nil _).symm, rfl⟩

end Solver

end JointMax

------------------------------------------------------------
-- Alike Solvers
------------------------------------------------------------

namespace JointMax

namespace Graph.Alike

variable {α : Type} {first second : Graph α}

theorem vars_eq
    (hAlike : first.Alike second)
    (hFirst : first.Coherent)
    (hSecond : second.Coherent) :
    first.vars = second.vars := by
  have hSame : ∀ var,
      var ∈ first.vars ↔ var ∈ second.vars := by
    intro var
    rw [hFirst.mem_vars, hSecond.mem_vars]
    exact exists_congr fun _ => hAlike.touches_iff
  exact eq_of_increasing first.increasing_vars
    second.increasing_vars hSame

theorem isEmpty_eq
    (hAlike : first.Alike second)
    (hFirst : first.Coherent)
    (hSecond : second.Coherent) :
    first.isEmpty = second.isEmpty := by
  have hSame : ∀ entry,
      entry ∈ first.factors ↔ entry ∈ second.factors := by
    intro entry
    rw [← hFirst.factor?_eq_some_iff,
      ← hSecond.factor?_eq_some_iff, hAlike entry.1]
  rw [Bool.eq_iff_iff]
  simp only [isEmpty, List.isEmpty_iff,
    List.eq_nil_iff_forall_not_mem, hSame]

end Graph.Alike

namespace Solver

variable {α : Type}

/-
  Both solvers hold the same factors, have been told the same
  by them, and keep the same beliefs.
-/
structure Alike (first second : Solver α) : Prop where
  graph : first.graph.Alike second.graph
  toVar_eq : first.toVar = second.toVar
  beliefs_eq : first.beliefs = second.beliefs

variable [Scalar α]
variable {registry : Registry} {first second : Solver α}

theorem Conforms.belief?_congr
    (hFirst : first.Conforms registry)
    (hSecond : second.Conforms registry)
    (hGraph : first.graph.Alike second.graph)
    (hToVar : first.toVar = second.toVar) :
    first.belief? = second.belief? := by
  funext var
  unfold Solver.belief? Solver.received?
    Solver.messageToVar?
  rw [hGraph.axis?_eq hFirst.coherent hSecond.coherent,
    hGraph.factorsOf_eq hFirst.coherent hSecond.coherent,
    hToVar]

/- Values are read off the messages of factors alone. -/
theorem Conforms.values?_congr
    (hFirst : first.Conforms registry)
    (hSecond : second.Conforms registry)
    (hGraph : first.graph.Alike second.graph)
    (hToVar : first.toVar = second.toVar) :
    first.values? = second.values? := by
  unfold Solver.values? Solver.currentBeliefs?
  rw [hGraph.vars_eq hFirst.coherent hSecond.coherent,
    hFirst.belief?_congr hSecond hGraph hToVar]

end Solver

end JointMax

------------------------------------------------------------
-- Sweeps of Alike Solvers
------------------------------------------------------------

namespace JointMax

namespace Solver

variable {α : Type} [Scalar α]
variable {registry : Registry}
variable {first second firstNext secondNext : Solver α}

/-
  A sweep leaves alike solvers alike. The messages of
  variables are computed anew, so it also makes these agree.
-/
theorem Alike.swept
    (hAlike : first.Alike second)
    (hFirst : first.Conforms registry)
    (hSecond : second.Conforms registry)
    (hFirstNext : firstNext.Conforms registry)
    (hSecondNext : secondNext.Conforms registry)
    (hFirstSwept : first.Swept firstNext)
    (hSecondSwept : second.Swept secondNext) :
    firstNext.Alike secondNext ∧
      firstNext.toFactor = secondNext.toFactor := by
  have hToFactor :
      firstNext.toFactor = secondNext.toFactor := by
    apply Std.ExtTreeMap.ext_getElem?
    intro edge
    apply Swept.toFactor_congr hFirst hSecond hAlike.graph
      hFirstSwept hSecondSwept
    intro factor _ _
    rw [hAlike.toVar_eq]
  have hToVar : firstNext.toVar = secondNext.toVar := by
    apply Std.ExtTreeMap.ext_getElem?
    intro edge
    apply Swept.toVar_congr hAlike.graph hFirstSwept
      hSecondSwept
    intro other _ _
    rw [hToFactor]
  have hGraph :
      firstNext.graph.Alike secondNext.graph := by
    rw [hFirstSwept.graph_eq, hSecondSwept.graph_eq]
    exact hAlike.graph
  refine ⟨⟨hGraph, hToVar, ?_⟩, hToFactor⟩
  apply Std.ExtTreeMap.ext_getElem?
  intro var
  apply Option.ext
  intro belief
  rw [hFirstSwept.beliefs_iff, hSecondSwept.beliefs_iff,
    hFirstNext.belief?_congr hSecondNext hGraph hToVar]

/- Beliefs have moved by the same amounts in both. -/
theorem Alike.delta_eq
    (hAlike : first.Alike second)
    (hFirst : first.Conforms registry)
    (hSecond : second.Conforms registry)
    (hNext : firstNext.beliefs = secondNext.beliefs)
    {delta other : α}
    (hFirstMoved : first.Moved firstNext delta)
    (hSecondMoved : second.Moved secondNext other) :
    delta = other := by
  rcases hFirstMoved with ⟨changes, hChanges, rfl⟩
  rcases hSecondMoved with ⟨others, hOthers, rfl⟩
  have hChange : first.change? = second.change? := by
    funext var belief
    unfold Solver.change?
    rw [hAlike.beliefs_eq]
  rw [← hNext, ← hChange,
    ← hAlike.graph.vars_eq hFirst.coherent hSecond.coherent]
    at hOthers
  have hSame : changes = others := by
    refine List.right_unique_forall₂' ?_ hChanges hOthers
    rintro var change another ⟨belief, hBelief, hOk⟩
      ⟨found, hFound, hAnother⟩
    rw [hBelief] at hFound
    cases hFound
    rw [hOk] at hAnother
    exact Except.ok.inj hAnother
  rw [hSame]

theorem Alike.sweep?
    (hAlike : first.Alike second)
    (hFirst : first.Conforms registry)
    (hSecond : second.Conforms registry)
    {delta : α}
    (hSweep : first.sweep? = .ok (firstNext, delta)) :
    ∃ next,
      second.sweep? = .ok (next, delta) ∧
        firstNext.Alike next ∧
        firstNext.toFactor = next.toFactor := by
  rcases hFirst.of_sweep? hSweep with
    ⟨hFirstNext, hFirstSwept, hFirstMoved⟩
  rcases hSecond.sweep? with
    ⟨next, other, hOther, hNext, hSwept, hMoved⟩
  rcases hAlike.swept hFirst hSecond hFirstNext hNext
      hFirstSwept hSwept with
    ⟨hNextAlike, hToFactor⟩
  have hDelta : delta = other :=
    hAlike.delta_eq hFirst hSecond hNextAlike.beliefs_eq
      hFirstMoved hMoved
  subst hDelta
  exact ⟨next, hOther, hNextAlike, hToFactor⟩

/-
  Sweeps in a row of alike solvers. The first of them makes
  the messages of variables agree, if they did not before.
-/
theorem Alike.sweeps
    (hAlike : first.Alike second)
    (hFirst : first.Conforms registry)
    (hSecond : second.Conforms registry)
    {deltas : List α}
    {firstFinal : Solver α}
    (hSweeps : Sweeps first deltas firstFinal) :
    ∃ final,
      Sweeps second deltas final ∧
        firstFinal.Alike final ∧
        (deltas ≠ [] ∨ first.toFactor = second.toFactor →
          firstFinal.toFactor = final.toFactor) := by
  induction hSweeps generalizing second with
  | nil =>
      exact ⟨second, Sweeps.nil, hAlike, by simp⟩
  | cons head _ ih =>
      rcases hAlike.sweep? hFirst hSecond head with
        ⟨next, hNext, hNextAlike, hToFactor⟩
      rcases ih hNextAlike (hFirst.of_sweep? head).1
          (hSecond.of_sweep? hNext).1 with
        ⟨final, hSweeps, hFinal, hKept⟩
      exact ⟨final, Sweeps.cons hNext hSweeps, hFinal,
        fun _ => hKept (.inr hToFactor)⟩

theorem Alike.ran
    (hAlike : first.Alike second)
    (hFirst : first.Conforms registry)
    (hSecond : second.Conforms registry)
    {budget : Nat}
    {tolerance : α}
    {deltas : List α}
    {firstFinal : Solver α}
    (hRan : first.Ran budget tolerance deltas firstFinal) :
    ∃ final,
      second.Ran budget tolerance deltas final ∧
        firstFinal.Alike final ∧
        (deltas ≠ [] ∨ first.toFactor = second.toFactor →
          firstFinal.toFactor = final.toFactor) := by
  rcases hAlike.sweeps hFirst hSecond hRan.sweeps with
    ⟨final, hSweeps, hFinal, hToFactor⟩
  exact ⟨final, { hRan with sweeps := hSweeps }, hFinal,
    hToFactor⟩

end Solver

end JointMax

------------------------------------------------------------
-- Runs of Alike Solvers
------------------------------------------------------------

namespace JointMax

namespace Solver

variable {α : Type} [Scalar α]
variable {registry : Registry} {solver first second : Solver α}

/- Without factors there are no messages. -/
omit [Scalar α] in
theorem Conforms.toFactor_eq_empty
    (hSolver : solver.Conforms registry)
    (hEmpty : solver.graph.isEmpty = true) :
    solver.toFactor = ∅ := by
  apply Std.ExtTreeMap.ext_getElem?
  intro edge
  have hEdges : edge ∉ solver.graph.edges := by
    rw [Graph.edges, List.isEmpty_iff.mp hEmpty]
    simp
  rw [hSolver.coherent.mem_edges] at hEdges
  rw [hSolver.toFactor?_eq_none hEdges]
  exact Std.ExtTreeMap.getElem?_empty.symm

/- A run that is allowed a sweep performs one. -/
theorem Ran.ne_nil
    {budget : Nat}
    {tolerance : α}
    {deltas : List α}
    {final : Solver α}
    (hRan : solver.Ran budget tolerance deltas final)
    (hBudget : 0 < budget) :
    deltas ≠ [] := by
  rintro rfl
  have hFull := hRan.exhausted rfl
  rw [List.length_nil] at hFull
  omega

/-
  Alike solvers have the same runs: the same sweeps with the
  same changes, the same messages of factors, beliefs and
  values. What variables told factors agrees as soon as a
  sweep is allowed; a run of no sweep leaves it as it was.
-/
theorem Reachable.run_of_alike
    (hFirst : first.Reachable registry)
    (hSecond : second.Reachable registry)
    (hAlike : first.Alike second)
    (budget : Nat)
    (tolerance : α) :
    ∃ run other stats values,
      first.optimiseWith? budget tolerance = .ok run ∧
        second.optimiseWith? budget tolerance = .ok other ∧
        run.result.1 = stats.iterations ∧
        other.result.1 = stats.iterations ∧
        run.result.2.lastRun = some stats ∧
        other.result.2.lastRun = some stats ∧
        run.result.2.Alike other.result.2 ∧
        run.result.2.belief? = other.result.2.belief? ∧
        run.result.2.values? = .ok values ∧
        other.result.2.values? = .ok values ∧
        (run.result.2.toFactor = other.result.2.toFactor ↔
          0 < budget ∨ first.toFactor = second.toFactor) := by
  have hFits := hFirst.conforms
  have hOther := hSecond.conforms
  have hSame :=
    hAlike.graph.isEmpty_eq hFits.coherent hOther.coherent
  cases hEmpty : first.graph.isEmpty with
  | true =>
      rw [hEmpty] at hSame
      have hSilent : first.toFactor = second.toFactor := by
        rw [hFits.toFactor_eq_empty hEmpty,
          hOther.toFactor_eq_empty hSame.symm]
      rcases hFits.values? with ⟨values, hValues, _⟩
      have hOtherValues : second.values? = .ok values := by
        rw [← hFits.values?_congr hOther hAlike.graph
          hAlike.toVar_eq]
        exact hValues
      have hBelief : first.belief? = second.belief? :=
        hFits.belief?_congr hOther hAlike.graph
          hAlike.toVar_eq
      exact ⟨_, _, ⟨0, true, Scalar.zero⟩, values,
        optimiseWith?_of_isEmpty hEmpty budget tolerance,
        optimiseWith?_of_isEmpty hSame.symm budget tolerance,
        rfl, rfl, rfl, rfl, { hAlike with }, hBelief,
        hValues, hOtherValues,
        fun _ => .inr hSilent, fun _ => hSilent⟩
  | false =>
      rw [hEmpty] at hSame
      rcases hFits.optimiseWith? hEmpty budget tolerance
        with ⟨run, deltas, final, hRun, hRan, hResult⟩
      rcases hOther.optimiseWith? hSame.symm budget
          tolerance with
        ⟨other, others, last, hMore, hMoreRan, hLast⟩
      rcases hAlike.ran hFits hOther hRan with
        ⟨found, hFound, hFinalAlike, hToFactor⟩
      rcases hFound.unique hMoreRan with ⟨rfl, rfl⟩
      have hFinal := hRan.sweeps.conforms hFits
      have hLastFits := hMoreRan.sweeps.conforms hOther
      rcases hFinal.values? with ⟨values, hValues, _⟩
      have hOtherValues : found.values? = .ok values := by
        rw [← hFinal.values?_congr hLastFits
          hFinalAlike.graph hFinalAlike.toVar_eq]
        exact hValues
      have hBelief : final.belief? = found.belief? :=
        hFinal.belief?_congr hLastFits hFinalAlike.graph
          hFinalAlike.toVar_eq
      let stats : RunStats α :=
        ⟨deltas.length, settled tolerance deltas,
          deltas.getLastD Scalar.zero⟩
      refine
        ⟨run, other, stats, values, hRun, hMore, ?_⟩
      rw [hResult, hLast]
      refine ⟨rfl, rfl, rfl, rfl, { hFinalAlike with },
        hBelief, hValues, hOtherValues, ?_, ?_⟩
      · intro hAgree
        rcases Nat.eq_zero_or_pos budget with rfl | hPos
        · have hNone : deltas = [] :=
            List.eq_nil_of_length_eq_zero
              (Nat.le_zero.mp hRan.within)
          subst hNone
          cases hRan.sweeps
          cases hMoreRan.sweeps
          exact .inr hAgree
        · exact .inl hPos
      · intro hEither
        exact hToFactor (hEither.imp_left hRan.ne_nil)

/-
  The second of two variables likes its first value as much
  as the factor of both likes its second one.
-/
@[irreducible]
def onceSwept : Solver Rat :=
  (start twoCoins (Config.ofBounds 10 0)).afterAll
    [.setFactor 0 [1, 2] #[0, 0, 1, 1],
      .setFactor 1 [2] #[1, -1],
      .optimiseWith 1 (-1)]

/- The same factors in another order, swept once more. -/
@[irreducible]
def twiceSwept : Solver Rat :=
  (start twoCoins (Config.ofBounds 5 1)).afterAll
    [.setFactor 1 [2] #[1, -1],
      .setFactor 0 [1, 2] #[0, 0, 1, 1],
      .optimiseWith 2 (-1)]

theorem reachable_onceSwept :
    onceSwept.Reachable twoCoins := by
  unfold onceSwept
  exact ⟨_, _, rfl⟩

theorem reachable_twiceSwept :
    twiceSwept.Reachable twoCoins := by
  unfold twiceSwept
  exact ⟨_, _, rfl⟩

/- The second sweep moves messages of variables alone. -/
theorem alike_swept : onceSwept.Alike twiceSwept where
  graph := by
    apply Graph.alike_of_perm
      reachable_onceSwept.conforms.coherent
      reachable_twiceSwept.conforms.coherent
    decide +kernel
  toVar_eq := by decide +kernel
  beliefs_eq := by decide +kernel

/- Three further sweeps make the two agree in everything. -/
theorem run_of_alike_swept :
    onceSwept.Alike twiceSwept ∧
      onceSwept.toFactor ≠ twiceSwept.toFactor ∧
      ∃ run other,
        onceSwept.optimiseWith? 3 (-1) = .ok run ∧
          twiceSwept.optimiseWith? 3 (-1) = .ok other ∧
          run.result.2.Alike other.result.2 ∧
          run.result.2.toFactor =
            other.result.2.toFactor := by
  refine ⟨alike_swept, by decide +kernel, ?_⟩
  rcases reachable_onceSwept.run_of_alike
      reachable_twiceSwept alike_swept 3 (-1) with
    ⟨run, other, _, _, hRun, hOther, _, _, _, _, hAlike,
      _, _, _, hToFactor⟩
  exact ⟨run, other, hRun, hOther, hAlike,
    hToFactor.mpr (.inl (by decide))⟩

/-
  A run of no sweep leaves the messages of variables apart,
  though factors, messages of factors and beliefs agree.
-/
theorem toFactor_apart_swept :
    onceSwept.Reachable twoCoins ∧
      twiceSwept.Reachable twoCoins ∧
      onceSwept.Alike twiceSwept ∧
      ∃ run other,
        onceSwept.optimiseWith? 0 0 = .ok run ∧
          twiceSwept.optimiseWith? 0 0 = .ok other ∧
          run.result.2.toFactor ≠
            other.result.2.toFactor := by
  refine ⟨reachable_onceSwept, reachable_twiceSwept,
    alike_swept, ?_⟩
  rcases reachable_onceSwept.conforms.exists_optimiseWith?
      0 0 with
    ⟨run, hRun, _⟩
  rcases reachable_twiceSwept.conforms.exists_optimiseWith?
      0 0 with
    ⟨other, hOther, _⟩
  have hCheck :
      (onceSwept.optimiseWith? 0 0).map
          (fun run => run.result.2.toFactor) ≠
        (twiceSwept.optimiseWith? 0 0).map
          fun run => run.result.2.toFactor := by
    decide +kernel
  rw [hRun, hOther] at hCheck
  refine ⟨run, other, hRun, hOther, ?_⟩
  intro hSame
  exact hCheck (congrArg Except.ok hSame)

end Solver

end JointMax
