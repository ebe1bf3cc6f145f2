import Mathlib
import JointMax.Proofs.Exchange
import JointMax.Proofs.Ties

/-
  Taking off the mean does no harm. The textbook recursion
  starts from zeros and never takes off a mean; a solver that
  holds no messages of factors stays with it, sweep by sweep,
  up to one constant for each message, and so its values are
  those that the textbook beliefs would choose.

  Main declarations:
    * `Graph.textbook` and `Graph.textbookBelief`
    * `Graph.Parallel`, equality up to constants
    * `Solver.Tracks` and `Solver.Sweeps.tracks`
    * `Solver.Recentred`
    * `Solver.Reachable.recentred_of_run`
-/

------------------------------------------------------------
-- The Textbook Recursion
------------------------------------------------------------

namespace JointMax

/- What is told along each edge of each value, both ways. -/
structure Textbook where
  toFactor : Edge → Nat → Rat
  toVar : Edge → Nat → Rat

namespace Graph

/-
  So many sweeps of the textbook, from zeros on: variables
  tell sums, and factors answer them with greatest worths.
-/
def textbook (graph : Graph Rat) : Nat → Textbook
  | 0 => ⟨fun _ _ => 0, fun _ _ => 0⟩
  | sweeps + 1 =>
      let toFactor := graph.tell (graph.textbook sweeps).toVar
      ⟨toFactor, graph.answer toFactor⟩

/- The sum of all that the factors of a variable answered. -/
def textbookBelief
    (graph : Graph Rat)
    (sweeps : Nat)
    (var : VarId)
    (value : Nat) : Rat :=
  ∑ factor ∈ (graph.factorsOf var).toFinset,
    (graph.textbook sweeps).toVar ⟨factor, var⟩ value

end Graph

end JointMax

------------------------------------------------------------
-- Equality up to Constants
------------------------------------------------------------

namespace JointMax

/- Sums of shifted functions are shifted. -/
theorem exists_sum_shift
    {β γ : Type}
    {items : Finset β}
    {points : Set γ}
    {first second : β → γ → Rat}
    (hEach : ∀ item ∈ items, ∃ shift, ∀ point ∈ points,
      first item point = second item point + shift) :
    ∃ shift, ∀ point ∈ points,
      ∑ item ∈ items, first item point =
        ∑ item ∈ items, second item point + shift := by
  choose! shift hShift using hEach
  refine ⟨∑ item ∈ items, shift item, ?_⟩
  intro point hPoint
  rw [← Finset.sum_add_distrib]
  apply Finset.sum_congr rfl
  intro item hItem
  exact hShift item hItem point hPoint

namespace Graph

/- On each edge the two differ by one constant. -/
def Parallel
    (graph : Graph Rat)
    (first second : Edge → Nat → Rat) : Prop :=
  ∀ edge ∈ graph.edges, ∃ shift, ∀ value,
    graph.Allows edge.var value →
      first edge value = second edge value + shift

variable {graph : Graph Rat}
variable {first second third : Edge → Nat → Rat}

theorem Parallel.trans
    (hFirst : graph.Parallel first second)
    (hSecond : graph.Parallel second third) :
    graph.Parallel first third := by
  intro edge hEdge
  rcases hFirst edge hEdge with ⟨shift, hShift⟩
  rcases hSecond edge hEdge with ⟨other, hOther⟩
  refine ⟨other + shift, ?_⟩
  intro value hValue
  rw [hShift value hValue, hOther value hValue, add_assoc]

/- A variable hears the same from any of its factors. -/
theorem Parallel.exists_sum
    (hGraph : graph.Coherent)
    (hParallel : graph.Parallel first second)
    {var : VarId}
    {factors : Finset FactorId}
    (hFactors : factors ⊆ (graph.factorsOf var).toFinset) :
    ∃ shift, ∀ value, graph.Allows var value →
      ∑ factor ∈ factors, first ⟨factor, var⟩ value =
        ∑ factor ∈ factors, second ⟨factor, var⟩ value +
          shift := by
  have hEach : ∀ factor ∈ factors, ∃ shift,
      ∀ value ∈ {value | graph.Allows var value},
        first ⟨factor, var⟩ value =
          second ⟨factor, var⟩ value + shift := by
    intro factor hFactor
    have hTouches := hGraph.mem_factorsOf.mp
      (List.mem_toFinset.mp (hFactors hFactor))
    exact hParallel ⟨factor, var⟩
      (hGraph.mem_edges.mpr hTouches)
  exact exists_sum_shift hEach

/- Variables that hear the same tell the same. -/
theorem Parallel.tell
    (hGraph : graph.Coherent)
    (hParallel : graph.Parallel first second) :
    graph.Parallel (graph.tell first) (graph.tell second) := by
  intro edge _
  exact hParallel.exists_sum hGraph (Finset.erase_subset _ _)

end Graph

namespace Solver

variable {registry : Registry} {solver : Solver Rat}
variable {first second : Edge → Nat → Rat}

/- An admitted choice is in range for the whole graph. -/
theorem Conforms.allows_of_admits
    (hSolver : solver.Conforms registry)
    {factor : FactorId}
    {table : Table Rat}
    (hTable : solver.graph.factor? factor = some table)
    {choice : VarId → Nat}
    (hAdmits : table.scope.Admits choice)
    {var : VarId}
    (hVar : var ∈ table.vars) :
    solver.graph.Allows var (choice var) := by
  rcases Scope.mem_vars_iff.mp hVar with ⟨axis, hAxis, rfl⟩
  have hKnows :=
    hSolver.factor_sizes factor table hTable axis hAxis
  exact (hSolver.allows_iff hKnows
    ⟨table, hTable, hVar⟩).mpr (hAdmits axis hAxis)

/- Factors that are told the same answer the same. -/
theorem Conforms.parallel_answer
    (hSolver : solver.Conforms registry)
    (hParallel : solver.graph.Parallel first second) :
    solver.graph.Parallel (solver.graph.answer first)
      (solver.graph.answer second) := by
  intro edge hEdge
  rcases hSolver.coherent.mem_edges.mp hEdge with
    ⟨table, hTable, hVar⟩
  rcases Scope.mem_vars_iff.mp hVar with
    ⟨axis, hAxis, hSame⟩
  -- What the other variables tell is shifted by one amount
  -- for all joint values of the factor.
  have hTold :
      ∀ var ∈ (solver.graph.scopeSet edge.factor).erase
          edge.var,
        ∃ shift, ∀ choice ∈
            {choice | table.scope.Admits choice},
          first ⟨edge.factor, var⟩ (choice var) =
            second ⟨edge.factor, var⟩ (choice var) +
              shift := by
    intro var hOther
    have hMember := Finset.mem_of_mem_erase hOther
    rw [Graph.scopeSet_eq hTable, List.mem_toFinset]
      at hMember
    rcases hParallel ⟨edge.factor, var⟩
        (hSolver.coherent.mem_edges.mpr
          ⟨table, hTable, hMember⟩) with
      ⟨shift, hShift⟩
    refine ⟨shift, ?_⟩
    intro choice hAdmits
    exact hShift _
      (hSolver.allows_of_admits hTable hAdmits hMember)
  rcases exists_sum_shift hTold with ⟨shift, hShift⟩
  have hWorth : ∀ choice, table.scope.Admits choice →
      solver.graph.worth first edge choice =
        solver.graph.worth second edge choice + shift := by
    intro choice hAdmits
    rw [Graph.worth, Graph.worth, hShift choice hAdmits,
      add_assoc]
  refine ⟨shift, ?_⟩
  intro value hValue
  have hSize := hValue edge.factor table hTable axis hAxis
    hSame
  have hFirst :=
    Graph.isGreatest_answer first hTable hAxis hSame hSize
  have hSecond :=
    Graph.isGreatest_answer second hTable hAxis hSame hSize
  refine hFirst.unique (isGreatest_image_add ?_ hSecond)
  intro choice hChoice
  exact hWorth choice hChoice.1

end Solver

end JointMax

------------------------------------------------------------
-- Sweep by Sweep
------------------------------------------------------------

namespace JointMax

namespace Solver

variable {registry : Registry} {solver next : Solver Rat}

/- A sweep is a sweep of the textbook, up to constants. -/
theorem Conforms.parallel_of_sweep?
    (hSolver : solver.Conforms registry)
    {delta : Rat}
    (hSweep : solver.sweep? = .ok (next, delta)) :
    solver.graph.Parallel next.toFactor.read
        (solver.graph.tell solver.toVar.read) ∧
      solver.graph.Parallel next.toVar.read
        (solver.graph.answer next.toFactor.read) := by
  constructor
  · intro edge hEdge
    rcases hSolver.equations_of_sweep? hSweep hEdge with
      ⟨table, axis, hEquations⟩
    -- The mean is one number for all values of the edge.
    refine ⟨-((∑ other ∈ Finset.range axis.size,
      solver.graph.tell solver.toVar.read edge other) /
        axis.size), ?_⟩
    intro value hValue
    rw [hEquations.read_toFactor
      (hEquations.lt_of_allows hValue), sub_eq_add_neg]
  · intro edge hEdge
    rcases hSolver.equations_of_sweep? hSweep hEdge with
      ⟨table, axis, hEquations⟩
    refine ⟨0, ?_⟩
    intro value hValue
    rw [hEquations.read_toVar
      (hEquations.lt_of_allows hValue), add_zero]

/-
  The messages are those of the textbook after so many sweeps,
  up to constants. Before the first sweep nothing is asked of
  what variables told, for no sweep reads it.
-/
structure Tracks
    (solver : Solver Rat)
    (sweeps : Nat) : Prop where
  toVar :
    solver.graph.Parallel solver.toVar.read
      (solver.graph.textbook sweeps).toVar
  toFactor : 0 < sweeps →
    solver.graph.Parallel solver.toFactor.read
      (solver.graph.textbook sweeps).toFactor

/- Without messages of factors the textbook is at its start. -/
theorem tracks_zero
    (hSilent : solver.toVar = ∅) :
    solver.Tracks 0 where
  toVar := by
    intro edge _
    refine ⟨0, ?_⟩
    intro value _
    rw [hSilent, Messages.read,
      Std.ExtTreeMap.getElem?_empty]
    exact (add_zero 0).symm
  toFactor := fun hPos => absurd hPos (Nat.lt_irrefl 0)

theorem Tracks.sweep?
    (hSolver : solver.Conforms registry)
    {sweeps : Nat}
    (hTracks : solver.Tracks sweeps)
    {delta : Rat}
    (hSweep : solver.sweep? = .ok (next, delta)) :
    next.Tracks (sweeps + 1) := by
  rcases hSolver.parallel_of_sweep? hSweep with
    ⟨hTold, hAnswered⟩
  have hToFactor :
      solver.graph.Parallel next.toFactor.read
        (solver.graph.textbook (sweeps + 1)).toFactor :=
    hTold.trans (hTracks.toVar.tell hSolver.coherent)
  have hToVar :
      solver.graph.Parallel next.toVar.read
        (solver.graph.textbook (sweeps + 1)).toVar :=
    hAnswered.trans (hSolver.parallel_answer hToFactor)
  have hGraph : next.graph = solver.graph :=
    (hSolver.of_sweep? hSweep).2.1.graph_eq
  rw [← hGraph] at hToFactor hToVar
  exact ⟨hToVar, fun _ => hToFactor⟩

theorem Sweeps.tracks
    (hSolver : solver.Conforms registry)
    {sweeps : Nat}
    (hTracks : solver.Tracks sweeps)
    {deltas : List Rat}
    {final : Solver Rat}
    (hSweeps : Sweeps solver deltas final) :
    final.Tracks (sweeps + deltas.length) := by
  induction hSweeps generalizing sweeps with
  | nil => exact hTracks
  | cons head _ ih =>
      have hNext := ih (hSolver.of_sweep? head).1
        (hTracks.sweep? hSolver head)
      rw [List.length_cons, Nat.add_comm _ 1,
        ← Nat.add_assoc]
      exact hNext

end Solver

end JointMax

------------------------------------------------------------
-- Messages, Beliefs and Values
------------------------------------------------------------

namespace JointMax

/- A table over one axis, off from numbers by a constant. -/
structure Table.Shifted
    (table : Table Rat)
    (axis : Axis)
    (plain : Nat → Rat) : Prop where
  scope : table.scope = Scope.ofAxis axis
  cells : ∃ shift, ∀ value < axis.size,
    table.cell value = plain value + shift

/- The values of an axis under which the numbers are largest. -/
def Axis.largest (axis : Axis) (plain : Nat → Rat) : Set Nat :=
  {value | value < axis.size ∧
    ∀ other < axis.size, plain other ≤ plain value}

/- Constants do not move the least of the largest places. -/
theorem Table.Shifted.isLeast_argmax
    {table : Table Rat}
    {axis : Axis}
    {plain : Nat → Rat}
    (hShifted : table.Shifted axis plain) :
    IsLeast (axis.largest plain) table.argmax := by
  rcases hShifted with ⟨hScope, shift, hCell⟩
  have hCount : table.scope.count = axis.size := by
    rw [hScope, Scope.count_ofAxis]
  have hPlace : table.argmax < axis.size :=
    hCount ▸ table.argmax_lt
  constructor
  · refine ⟨hPlace, ?_⟩
    intro other hOther
    have hBound : table.cell other ≤ table.cell table.argmax :=
      Table.le_argmax (hCount ▸ hOther)
    rw [hCell other hOther, hCell _ hPlace] at hBound
    linarith
  · rintro value ⟨hValue, hLargest⟩
    by_contra hNot
    have hLess := Table.lt_argmax (not_le.mp hNot)
    rw [hCell value hValue, hCell _ hPlace] at hLess
    have hBound := hLargest table.argmax hPlace
    linarith

namespace Solver

/-
  All messages and beliefs are off by constants from those of
  so many sweeps of the textbook, and the values are the least
  ones under which the textbook beliefs are largest.
-/
structure Recentred
    (solver : Solver Rat)
    (sweeps : Nat) : Prop where
  toFactor : ∀ edge ∈ solver.graph.edges, ∃ axis message,
    solver.graph.axis? edge.var = some axis ∧
      solver.toFactor[edge]? = some message ∧
      message.Shifted axis
        ((solver.graph.textbook sweeps).toFactor edge)
  toVar : ∀ edge ∈ solver.graph.edges, ∃ axis message,
    solver.graph.axis? edge.var = some axis ∧
      solver.toVar[edge]? = some message ∧
      message.Shifted axis
        ((solver.graph.textbook sweeps).toVar edge)
  beliefs : ∀ var ∈ solver.graph.vars, ∃ axis belief,
    solver.graph.axis? var = some axis ∧
      solver.belief? var = .ok (some belief) ∧
      solver.beliefs[var]? = some belief ∧
      belief.Shifted axis
        (solver.graph.textbookBelief sweeps var)
  values : ∃ values,
    solver.values? = .ok values ∧
      List.Forall₂ (fun var value =>
        value.1 = var ∧ ∃ axis,
          solver.graph.axis? var = some axis ∧
            IsLeast
              (axis.largest
                (solver.graph.textbookBelief sweeps var))
              value.2)
        solver.graph.vars values

variable {registry : Registry} {solver : Solver Rat}

/- Messages on all edges that are parallel to given numbers. -/
theorem Conforms.shifted_of_parallel
    (hSolver : solver.Conforms registry)
    {messages : Messages Rat}
    (hKeys : ∀ edge,
      edge ∈ messages ↔ edge ∈ solver.graph.edges)
    (hFits : ∀ edge message,
      messages[edge]? = some message →
        edge ∈ solver.graph.edges ∧
          registry.Measures edge.var message)
    {plain : Edge → Nat → Rat}
    (hParallel : solver.graph.Parallel messages.read plain)
    {edge : Edge}
    (hEdge : edge ∈ solver.graph.edges) :
    ∃ axis message,
      solver.graph.axis? edge.var = some axis ∧
        messages[edge]? = some message ∧
        message.Shifted axis (plain edge) := by
  have hTouches := hSolver.coherent.mem_edges.mp hEdge
  rcases hSolver.axis?_of_touches hTouches with
    ⟨axis, hAxis, hKnows, hVar⟩
  have hMember := (hKeys edge).mpr hEdge
  rw [Std.ExtTreeMap.mem_iff_isSome_getElem?,
    Option.isSome_iff_exists] at hMember
  rcases hMember with ⟨message, hMessage⟩
  have hMeasures := (hFits edge message hMessage).2
  rcases hParallel edge hEdge with ⟨shift, hShift⟩
  rw [← hVar] at hMeasures hShift hTouches
  refine ⟨axis, message, hAxis, hMessage,
    hMeasures.scope_eq hKnows, shift, ?_⟩
  intro value hValue
  have hAllowed :=
    (hSolver.allows_iff hKnows hTouches).mpr hValue
  rw [← hShift value hAllowed, Messages.read_eq hMessage]

/- Beliefs add up what is told, and constants with it. -/
theorem Tracks.belief?
    (hSolver : solver.Conforms registry)
    {sweeps : Nat}
    (hTracks : solver.Tracks sweeps)
    {var : VarId}
    (hVar : var ∈ solver.graph.vars) :
    ∃ axis belief,
      solver.graph.axis? var = some axis ∧
        solver.belief? var = .ok (some belief) ∧
        belief.Shifted axis
          (solver.graph.textbookBelief sweeps var) := by
  rcases hSolver.axis?_of_mem_vars hVar with
    ⟨axis, hAxis, hKnows, rfl⟩
  rcases hSolver.coherent.mem_vars.mp hVar with
    ⟨factor, hTouches⟩
  rcases hSolver.belief?_cell hAxis hKnows with
    ⟨belief, hBelief, hScope, hCell⟩
  rcases hTracks.toVar.exists_sum hSolver.coherent
      (Finset.Subset.refl _) with
    ⟨shift, hShift⟩
  refine ⟨axis, belief, hAxis, hBelief, hScope, shift, ?_⟩
  intro value hValue
  have hAllowed :=
    (hSolver.allows_iff hKnows hTouches).mpr hValue
  rw [hCell value hValue, credence,
    ← List.sum_toFinset _ (solver.graph.nodup_factorsOf _)]
  exact hShift value hAllowed

theorem Tracks.recentred
    (hSolver : solver.Conforms registry)
    (hCurrent : solver.Current)
    {sweeps : Nat}
    (hPos : 0 < sweeps)
    (hTracks : solver.Tracks sweeps) :
    solver.Recentred sweeps where
  toFactor := fun _ hEdge =>
    hSolver.shifted_of_parallel hCurrent.toFactor_keys
      hSolver.toFactor_fits (hTracks.toFactor hPos) hEdge
  toVar := fun _ hEdge =>
    hSolver.shifted_of_parallel hCurrent.toVar_keys
      hSolver.toVar_fits hTracks.toVar hEdge
  beliefs := by
    intro var hVar
    rcases hTracks.belief? hSolver hVar with
      ⟨axis, belief, hAxis, hBelief, hShifted⟩
    exact ⟨axis, belief, hAxis, hBelief,
      (hCurrent.beliefs_iff var belief).mpr hBelief,
      hShifted⟩
  values := by
    apply hSolver.exists_values? fun var value =>
      ∃ axis,
        solver.graph.axis? var = some axis ∧
          IsLeast
            (axis.largest
              (solver.graph.textbookBelief sweeps var))
            value
    intro var hVar belief hBelief
    rcases hTracks.belief? hSolver hVar with
      ⟨axis, found, hAxis, hFound, hShifted⟩
    rw [hBelief] at hFound
    cases hFound
    exact ⟨axis, hAxis, hShifted.isLeast_argmax⟩

theorem Recentred.withLastRun
    {sweeps : Nat}
    (hSolver : solver.Recentred sweeps)
    (lastRun : Option (RunStats Rat)) :
    { solver with lastRun := lastRun }.Recentred sweeps :=
  { hSolver with }

end Solver

end JointMax

------------------------------------------------------------
-- Runs from Silence
------------------------------------------------------------

namespace JointMax

namespace Solver

variable {registry : Registry} {solver : Solver Rat}

/-
  On any graph, a run from a solver without messages of
  factors ends where the textbook does after as many sweeps,
  up to constants that no value depends on. Below zero no
  tolerance stops a run early, so any number of sweeps is that
  of some run.
-/
theorem Reachable.recentred_of_run
    (hReachable : solver.Reachable registry)
    (hSilent : solver.toVar = ∅)
    (budget : Nat)
    (tolerance : Rat) :
    ∃ run,
      solver.optimiseWith? budget tolerance = .ok run ∧
        run.result.2.graph = solver.graph ∧
        (solver.graph.isEmpty = false → tolerance < 0 →
          run.result.1 = budget) ∧
        (1 ≤ run.result.1 →
          run.result.2.Recentred run.result.1) := by
  have hSolver := hReachable.conforms
  rcases hSolver.exists_run budget tolerance with
    ⟨run, deltas, final, lastRun, hRun, hSweeps, hResult,
      hFull⟩
  have hFinal := hSweeps.conforms hSolver
  have hTracks :=
    hSweeps.tracks hSolver (tracks_zero hSilent)
  rw [Nat.zero_add] at hTracks
  refine ⟨run, hRun, ?_⟩
  rw [hResult]
  refine ⟨hSweeps.graph_eq hSolver, hFull, ?_⟩
  intro hPos
  have hCurrent := hSweeps.current hSolver
    (List.ne_nil_of_length_pos hPos)
  exact (hTracks.recentred hFinal hCurrent
    hPos).withLastRun lastRun

/-
  Two factors of the same two variables, on top of what a
  factor that is gone by now left of the first variable.
-/
@[irreducible]
def looped : Solver Rat :=
  (start twoCoins (Config.ofBounds 10 0)).afterAll
    [.setFactor 5 [1] #[3, 0],
      .optimiseWith 1 (-1),
      .setFactor 0 [1, 2] #[1, 0, 0, 2],
      .removeFactor 5,
      .setFactor 1 [1, 2] #[0, 1, -1, 0],
      .setFactor 2 [1] #[0, 1]]

theorem reachable_looped : looped.Reachable twoCoins := by
  unfold looped
  exact ⟨_, _, rfl⟩

theorem isCyclic_looped :
    looped.graph.isCyclic = true := by
  decide +kernel

/- A stale belief of the first variable is left over. -/
theorem recentred_of_run_looped :
    looped.toVar = ∅ ∧
      looped.beliefs ≠ ∅ ∧
      looped.graph.isCyclic = true ∧
      ∃ run,
        looped.optimiseWith? 5 (-1) = .ok run ∧
          run.result.2.Recentred 5 := by
  have hSilent : looped.toVar = ∅ := by decide +kernel
  rcases reachable_looped.recentred_of_run hSilent 5 (-1)
    with ⟨run, hRun, _, hFull, hRecentred⟩
  have hCount : run.result.1 = 5 :=
    hFull (by decide +kernel) (by decide +kernel)
  rw [hCount] at hRecentred
  exact ⟨hSilent, by decide +kernel, isCyclic_looped, run,
    hRun, hRecentred (by omega)⟩

end Solver

end JointMax
