import Mathlib
import JointMax.Proofs.Ranks
import JointMax.Proofs.Recentring

/-
  What runs report. A run of a solver follows an endless row
  of sweeps, up to the first one within the tolerance and no
  further than it may. The number that it returns, what it
  remembers and the events on the way all tell of the same
  sweeps, each with the largest change of a belief in it.

  Main declarations:
    * `Solver.shifts` and `Solver.Moved.isGreatest_shifts`
    * `Solver.Sweeping`, sweeps without end
    * `Stops`, where a run leaves the row
    * `Solver.Sweeping.run?`
    * `Solver.Accounted` and `Solver.Reachable.accounted`
-/

------------------------------------------------------------
-- Largest Changes
------------------------------------------------------------

namespace JointMax

/- The greatest of all, by way of the greatest of each part. -/
theorem isGreatest_insert_biUnion
    {β γ : Type}
    [Preorder γ]
    {least top : γ}
    {peaks : Set γ}
    {items : Set β}
    {part : β → Set γ}
    (hTop : IsGreatest (insert least peaks) top)
    (hPeaks : ∀ peak ∈ peaks, ∃ item ∈ items,
      IsGreatest (insert least (part item)) peak)
    (hParts : ∀ item ∈ items, ∃ peak ∈ peaks,
      IsGreatest (insert least (part item)) peak) :
    IsGreatest (insert least (⋃ item ∈ items, part item))
      top := by
  rcases hTop with ⟨hReached, hBound⟩
  constructor
  · rcases hReached with rfl | hPeak
    · exact Set.mem_insert _ _
    · rcases hPeaks top hPeak with ⟨item, hItem, hGreatest⟩
      exact Set.insert_subset_insert
        (Set.subset_biUnion_of_mem hItem) hGreatest.1
  · rintro value (rfl | hValue)
    · exact hBound (Set.mem_insert _ _)
    · rcases Set.mem_iUnion₂.mp hValue with
        ⟨item, hItem, hMember⟩
      rcases hParts item hItem with
        ⟨peak, hPeak, hGreatest⟩
      exact (hGreatest.2 (.inr hMember)).trans
        (hBound (.inr hPeak))

namespace Table

open RankedScalar

variable {α : Type} [Scalar α] [RankedScalar α]

/- The largest absolute value, in order of ranks. -/
theorem isGreatest_maxNorm (table : Table α) :
    IsGreatest
      (insert (rank (Scalar.zero : α))
        ((fun value => rank (Scalar.abs (table.cell value))) ''
          {value | value < table.scope.count}))
      (rank table.maxNorm) := by
  have hValues :
      rank '' {norm | norm ∈
          (List.range table.scope.count).map fun value =>
            Scalar.abs (table.cell value)} =
        (fun value => rank (Scalar.abs (table.cell value))) ''
          {value | value < table.scope.count} := by
    ext bound
    simp
  rw [maxNorm_eq_foldl, ← hValues]
  exact isGreatest_foldl_larger _ _

end Table

namespace Solver

open RankedScalar

variable {α : Type} [Scalar α]

/-
  How far a belief is from the earlier one at a value, or from
  nothing if there is no earlier one.
-/
def shift
    (earlier : Option (Table α))
    (belief : Table α)
    (value : Nat) : α :=
  match earlier with
  | some old => Scalar.abs (belief.cell value - old.cell value)
  | none => Scalar.abs (belief.cell value)

/- The changes of a belief at all values of its variable. -/
def shiftsOf
    (solver next : Solver α)
    (var : VarId) : Set α :=
  {change | ∃ belief,
    next.beliefs[var]? = some belief ∧
      ∃ value < belief.scope.count,
        change = shift solver.beliefs[var]? belief value}

/- The changes of all beliefs. -/
def shifts (solver next : Solver α) : Set α :=
  ⋃ var ∈ {var | var ∈ solver.graph.vars},
    solver.shiftsOf next var

variable [RankedScalar α]
variable {registry : Registry} {solver next : Solver α}

/- The change of one belief is its largest at any value. -/
theorem Conforms.isGreatest_change?
    (hSolver : solver.Conforms registry)
    (hNext : next.Conforms registry)
    {var : VarId}
    {belief : Table α}
    {change : α}
    (hBelief : next.beliefs[var]? = some belief)
    (hChange : solver.change? var belief = .ok change) :
    IsGreatest
      (insert (rank (Scalar.zero : α))
        (rank '' solver.shiftsOf next var))
      (rank change) := by
  have hShifts :
      rank '' solver.shiftsOf next var =
        (fun value =>
          rank (shift solver.beliefs[var]? belief value)) ''
          {value | value < belief.scope.count} := by
    ext bound
    simp [shiftsOf, hBelief]
  rw [hShifts]
  cases hOld : solver.beliefs[var]? with
  | none =>
      rw [change?_of_none hOld] at hChange
      cases hChange
      exact belief.isGreatest_maxNorm
  | some old =>
      have hFits := (hSolver.beliefs_fit var old hOld).2
      have hSame :=
        (hNext.beliefs_fit var belief hBelief).2.same_scope
          hFits
      rw [change?_of_some hOld hSame] at hChange
      cases hChange
      have hEach : Set.EqOn
          (fun value => rank (shift (some old) belief value))
          (fun value => rank (Scalar.abs
            ((Table.zipCells Op.sub.apply belief old
              hSame).cell value)))
          {value | value < belief.scope.count} := by
        intro value hValue
        dsimp only
        rw [Table.cell_zipCells hSame hValue]
        rfl
      rw [hEach.image_eq]
      exact Table.isGreatest_maxNorm _

/- The largest change in a sweep is that of some belief. -/
theorem Moved.isGreatest_shifts
    {delta : α}
    (hMoved : solver.Moved next delta)
    (hSolver : solver.Conforms registry)
    (hNext : next.Conforms registry) :
    IsGreatest
      (insert (rank (Scalar.zero : α))
        (rank '' solver.shifts next))
      (rank delta) := by
  rcases hMoved with ⟨changes, hPairs, rfl⟩
  rw [shifts, Set.image_iUnion₂]
  apply isGreatest_insert_biUnion
    (isGreatest_foldl_larger changes Scalar.zero)
  · rintro _ ⟨change, hChange, rfl⟩
    rcases exists_of_forall₂_right hPairs hChange with
      ⟨var, hVar, belief, hBelief, hOk⟩
    exact ⟨var, hVar,
      hSolver.isGreatest_change? hNext hBelief hOk⟩
  · intro var hVar
    rcases exists_of_forall₂_left hPairs hVar with
      ⟨change, hChange, belief, hBelief, hOk⟩
    exact ⟨rank change, Set.mem_image_of_mem _ hChange,
      hSolver.isGreatest_change? hNext hBelief hOk⟩

end Solver

end JointMax

------------------------------------------------------------
-- Sweeps without End
------------------------------------------------------------

namespace JointMax

namespace Solver

variable {α : Type} [Scalar α]

/-
  Solvers that sweeps lead to, one after the other, and the
  largest change in each sweep. What stands at place zero of
  the changes is left open.
-/
structure Sweeping
    (solver : Solver α)
    (state : Nat → Solver α)
    (change : Nat → α) : Prop where
  start : state 0 = solver
  sweep : ∀ sweeps,
    (state sweeps).sweep? =
      .ok (state (sweeps + 1), change (sweeps + 1))

variable {registry : Registry} {solver : Solver α}
variable {state : Nat → Solver α} {change : Nat → α}

/- A sweep succeeds wherever the earlier ones have led. -/
theorem Conforms.exists_sweeping
    (hSolver : solver.Conforms registry)
    (before : α) :
    ∃ state change,
      solver.Sweeping state change ∧ change 0 = before := by
  have hEach : ∀ current : {current : Solver α //
      current.Conforms registry}, ∃ next delta,
        current.1.sweep? = .ok (next, delta) ∧
          next.Conforms registry := by
    intro current
    rcases current.2.sweep? with
      ⟨next, delta, hSweep, hNext, _⟩
    exact ⟨next, delta, hSweep, hNext⟩
  choose next delta hSweep hNext using hEach
  let row : Nat →
      {current : Solver α // current.Conforms registry} :=
    fun sweeps => sweeps.rec ⟨solver, hSolver⟩
      fun _ current => ⟨next current, hNext current⟩
  let change : Nat → α :=
    fun sweeps => sweeps.casesOn before
      fun earlier => delta (row earlier)
  exact
    ⟨fun sweeps => (row sweeps).1, change,
      ⟨rfl, fun sweeps => hSweep (row sweeps)⟩, rfl⟩

/- The row goes on from the first solver that it leads to. -/
theorem Sweeping.tail
    (hSweeping : solver.Sweeping state change) :
    (state 1).Sweeping (fun sweeps => state (sweeps + 1))
      (fun sweeps => change (sweeps + 1)) where
  start := rfl
  sweep := fun sweeps => hSweeping.sweep (sweeps + 1)

theorem Sweeping.conforms
    (hSweeping : solver.Sweeping state change)
    (hSolver : solver.Conforms registry)
    (sweeps : Nat) :
    (state sweeps).Conforms registry := by
  induction sweeps with
  | zero =>
      rw [hSweeping.start]
      exact hSolver
  | succ sweeps ih =>
      exact (ih.of_sweep? (hSweeping.sweep sweeps)).1

theorem Sweeping.graph_eq
    (hSweeping : solver.Sweeping state change)
    (hSolver : solver.Conforms registry)
    (sweeps : Nat) :
    (state sweeps).graph = solver.graph := by
  induction sweeps with
  | zero => rw [hSweeping.start]
  | succ sweeps ih =>
      have hSwept :=
        ((hSweeping.conforms hSolver sweeps).of_sweep?
          (hSweeping.sweep sweeps)).2.1
      rw [hSwept.graph_eq, ih]

/- Each sweep leaves a belief for each variable. -/
theorem Sweeping.mem_beliefs
    (hSweeping : solver.Sweeping state change)
    (hSolver : solver.Conforms registry)
    (sweeps : Nat)
    (var : VarId) :
    var ∈ (state (sweeps + 1)).beliefs ↔
      var ∈ solver.graph.vars := by
  have hCurrent :=
    (hSweeping.conforms hSolver sweeps).current_of_sweep?
      (hSweeping.sweep sweeps)
  rw [hCurrent.beliefs_keys, hSweeping.graph_eq hSolver]

theorem Sweeping.isGreatest_shifts
    [RankedScalar α]
    (hSweeping : solver.Sweeping state change)
    (hSolver : solver.Conforms registry)
    (sweeps : Nat) :
    IsGreatest
      (insert (RankedScalar.rank (Scalar.zero : α))
        (RankedScalar.rank ''
          (state sweeps).shifts (state (sweeps + 1))))
      (RankedScalar.rank (change (sweeps + 1))) := by
  have hFits := hSweeping.conforms hSolver
  have hMoved :=
    ((hFits sweeps).of_sweep? (hSweeping.sweep sweeps)).2.2
  exact hMoved.isGreatest_shifts (hFits sweeps)
    (hFits (sweeps + 1))

end Solver

end JointMax

------------------------------------------------------------
-- Where Runs Stop
------------------------------------------------------------

namespace JointMax

section Stopping

variable {α : Type} [Scalar α]

/- Allowed sweeps that are within the tolerance. -/
def settlings
    (change : Nat → α)
    (tolerance : α)
    (budget : Nat) : Set Nat :=
  {sweeps | 1 ≤ sweeps ∧ sweeps ≤ budget ∧
    Scalar.le (change sweeps) tolerance = true}

/- The number of sweeps in a run, and whether it converged. -/
inductive Stops
    (change : Nat → α)
    (tolerance : α)
    (budget : Nat) : Nat → Bool → Prop where
  | settled {taken : Nat}
      (first :
        IsLeast (settlings change tolerance budget) taken) :
      Stops change tolerance budget taken true
  | exhausted
      (none : settlings change tolerance budget = ∅) :
      Stops change tolerance budget budget false

variable {change : Nat → α} {tolerance : α} {budget : Nat}

theorem stops_zero : Stops change tolerance 0 0 false := by
  apply Stops.exhausted
  apply Set.eq_empty_of_forall_notMem
  rintro sweeps ⟨hPos, hNone, _⟩
  omega

theorem stops_one
    (hWithin : Scalar.le (change 1) tolerance = true) :
    Stops change tolerance (budget + 1) 1 true :=
  Stops.settled
    ⟨⟨le_rfl, by omega, hWithin⟩, fun _ hOther => hOther.1⟩

/- The sweeps after a first one that is not within. -/
theorem settlings_succ
    (hAbove : Scalar.le (change 1) tolerance = false) :
    settlings change tolerance (budget + 1) =
      (· + 1) '' settlings (fun sweeps => change (sweeps + 1))
        tolerance budget := by
  ext sweeps
  constructor
  · rintro ⟨hPos, hWithin, hLe⟩
    have hLater : sweeps ≠ 1 := by
      rintro rfl
      rw [hAbove] at hLe
      cases hLe
    rcases Nat.exists_eq_succ_of_ne_zero
        (Nat.pos_iff_ne_zero.mp hPos) with
      ⟨earlier, rfl⟩
    exact ⟨earlier, ⟨by omega, by omega, hLe⟩, rfl⟩
  · rintro ⟨earlier, ⟨hPos, hWithin, hLe⟩, rfl⟩
    exact ⟨Nat.le_add_left 1 earlier,
      Nat.add_le_add_right hWithin 1, hLe⟩

theorem Stops.succ
    {taken : Nat}
    {converged : Bool}
    (hAbove : Scalar.le (change 1) tolerance = false)
    (hStops :
      Stops (fun sweeps => change (sweeps + 1)) tolerance
        budget taken converged) :
    Stops change tolerance (budget + 1) (taken + 1)
      converged := by
  cases hStops with
  | settled hFirst =>
      apply Stops.settled
      rw [settlings_succ hAbove]
      exact (add_left_mono (a := 1)).map_isLeast hFirst
  | exhausted hNone =>
      apply Stops.exhausted
      rw [settlings_succ hAbove, hNone, Set.image_empty]

end Stopping

end JointMax

------------------------------------------------------------
-- Runs along the Row
------------------------------------------------------------

namespace JointMax

namespace Solver

variable {α : Type} [Scalar α] {solver : Solver α}
variable {state : Nat → Solver α} {change : Nat → α}

/-
  A run leaves the row where it stops, and tells of each sweep
  up to there. By induction on the sweeps that are allowed:
  the run goes on as one from the first solver of the row.
-/
theorem Sweeping.run?
    (hSweeping : solver.Sweeping state change)
    (tolerance : α)
    (budget earlier : Nat) :
    ∃ taken converged,
      Stops change tolerance budget taken converged ∧
        Solver.run? tolerance budget solver
            ⟨earlier, false, change 0⟩ =
          .ok
            ⟨(state taken,
                ⟨earlier + taken, converged, change taken⟩),
              (List.range taken).map fun sweeps =>
                .swept (earlier + (sweeps + 1))
                  (change (sweeps + 1))⟩ := by
  induction budget generalizing
      solver state change earlier with
  | zero =>
      refine ⟨0, false, stops_zero, ?_⟩
      rw [hSweeping.start]
      rfl
  | succ budget ih =>
      have hSweep := hSweeping.sweep 0
      rw [hSweeping.start] at hSweep
      cases hWithin : Scalar.le (change 1) tolerance with
      | true =>
          exact ⟨1, true, stops_one hWithin,
            run?_of_le hSweep hWithin budget _⟩
      | false =>
          rcases ih hSweeping.tail (earlier + 1) with
            ⟨taken, converged, hStops, hRest⟩
          refine
            ⟨taken + 1, converged, hStops.succ hWithin, ?_⟩
          rw [run?_of_not_le hSweep hWithin hRest,
            List.range_succ_eq_map, List.map_cons,
            List.map_map]
          simp only [Function.comp_def, Nat.succ_eq_add_one,
            Nat.add_assoc, Nat.add_comm 1]

end Solver

end JointMax

------------------------------------------------------------
-- Accounts of Runs
------------------------------------------------------------

namespace JointMax

/- What is shown of an event: its level, text and fields. -/
abbrev Record (α : Type) : Type :=
  Level × String × List (String × FieldValue α)

def Event.record {α : Type} (event : Event α) : Record α :=
  (event.level, event.message, event.fields)

/-
  All that a run over some factors reports: that their graph
  is cyclic, each sweep, that the sweeps were too few, and
  the outcome.
-/
def Graph.account
    {α : Type}
    (graph : Graph α)
    (budget : Nat)
    (change : Nat → α)
    (taken : Nat)
    (converged : Bool) : List (Record α) :=
  let cyclic : List (Record α) :=
    if graph.isCyclic then
      [(.debug,
        "factor graph is cyclic, max-sum may not find the optimum",
        [])]
    else []
  let sweeps : List (Record α) :=
    (List.range taken).map fun sweep =>
      (.debug, "max-sum sweep",
        [("iteration", .count (sweep + 1)),
          ("max_delta", .number (change (sweep + 1)))])
  let warning : List (Record α) :=
    if converged then []
    else
      [(.warn, "max-sum did not converge",
        [("max_iterations", .count budget),
          ("max_delta", .number (change taken))])]
  cyclic ++ sweeps ++ warning ++
    [(.info, "max-sum done",
      [("iterations", .count taken),
        ("converged", .flag converged),
        ("factors", .count graph.factorCount),
        ("vars", .count graph.varCount)])]

theorem Graph.map_record_eq_account
    {α : Type}
    (graph : Graph α)
    (budget : Nat)
    (change : Nat → α)
    (taken : Nat)
    (converged : Bool) :
    ((if graph.isCyclic then [Event.cyclicGraph] else []) ++
        (List.range taken).map (fun sweep =>
          Event.swept (sweep + 1) (change (sweep + 1))) ++
        (if converged then []
          else [Event.notConverged budget (change taken)]) ++
        [Event.done ⟨taken, converged, change taken⟩
          graph.factorCount graph.varCount]).map
      Event.record =
        graph.account budget change taken converged := by
  rw [List.map_append, List.map_append, List.map_append,
    List.map_map, apply_ite (List.map Event.record),
    apply_ite (List.map Event.record)]
  rfl

namespace Solver

open RankedScalar

variable {α : Type} [Scalar α] [RankedScalar α]
variable {registry : Registry} {solver : Solver α}

/-
  The number returned, the statistics kept and the events all
  tell of the sweeps that a run over some factors performed.
-/
structure Accounted
    (solver : Solver α)
    (budget : Nat)
    (tolerance : α)
    (run : Logged α (Nat × Solver α))
    (state : Nat → Solver α)
    (change : Nat → α)
    (taken : Nat)
    (converged : Bool) : Prop where
  sweeping : solver.Sweeping state change
  graph_eq : ∀ sweeps, (state sweeps).graph = solver.graph
  believed : ∀ sweeps var,
    var ∈ (state (sweeps + 1)).beliefs ↔
      var ∈ solver.graph.vars
  unchanged : change 0 = Scalar.zero
  largest : ∀ sweeps,
    IsGreatest
      (insert (rank (Scalar.zero : α))
        (rank '' (state sweeps).shifts (state (sweeps + 1))))
      (rank (change (sweeps + 1)))
  stops : Stops change tolerance budget taken converged
  result_eq : run.result =
    (taken, { state taken with
      lastRun := some ⟨taken, converged, change taken⟩ })
  records_eq : run.events.map Event.record =
    solver.graph.account budget change taken converged

/- An empty graph is reported as such, and nothing is done. -/
structure Passed
    (solver : Solver α)
    (run : Logged α (Nat × Solver α)) : Prop where
  result_eq : run.result =
    (0, { solver with
      lastRun := some ⟨0, true, Scalar.zero⟩ })
  records_eq : run.events.map Event.record =
    [(.info, "max-sum on an empty factor graph", [])]

theorem Reachable.accounted
    (hReachable : solver.Reachable registry)
    (budget : Nat)
    (tolerance : α) :
    ∃ run,
      solver.optimiseWith? budget tolerance = .ok run ∧
        (solver.graph.isEmpty = true → solver.Passed run) ∧
        (solver.graph.isEmpty = false →
          ∃ state change taken converged,
            solver.Accounted budget tolerance run
              state change taken converged) := by
  have hSolver := hReachable.conforms
  cases hEmpty : solver.graph.isEmpty with
  | true =>
      refine
        ⟨_, optimiseWith?_of_isEmpty hEmpty budget tolerance,
          fun _ => ⟨rfl, rfl⟩, ?_⟩
      intro hSome
      cases hSome
  | false =>
      rcases hSolver.exists_sweeping Scalar.zero with
        ⟨state, change, hSweeping, hUnchanged⟩
      rcases hSweeping.run? tolerance budget 0 with
        ⟨taken, converged, hStops, hRun⟩
      simp only [hUnchanged, Nat.zero_add] at hRun
      refine
        ⟨_, optimiseWith?_of_run? hEmpty hRun, ?_, ?_⟩
      · intro hNone
        cases hNone
      · intro _
        exact
          ⟨state, change, taken, converged,
            { sweeping := hSweeping
              graph_eq := hSweeping.graph_eq hSolver
              believed := hSweeping.mem_beliefs hSolver
              unchanged := hUnchanged
              largest := hSweeping.isGreatest_shifts hSolver
              stops := hStops
              result_eq := rfl
              records_eq := solver.graph.map_record_eq_account
                budget change taken converged }⟩

/- Two sweeps are too few for the changes to fall to one. -/
theorem accounted_looped :
    looped.graph.isCyclic = true ∧
      looped.beliefs ≠ ∅ ∧
      ∃ run state change,
        looped.optimiseWith? 2 1 = .ok run ∧
          looped.Accounted 2 1 run state change 2 false ∧
          change 2 = 2 := by
  have hStats :
      (looped.optimiseWith? 2 1).map (fun run =>
          run.result.2.lastRun) =
        .ok (some ⟨2, false, 2⟩) := by
    decide +kernel
  rcases reachable_looped.accounted 2 1 with
    ⟨run, hRun, _, hAccounted⟩
  rcases hAccounted (by decide +kernel) with
    ⟨state, change, taken, converged, hTold⟩
  rw [hRun] at hStats
  simp only [Except.map, hTold.result_eq, Except.ok.injEq,
    Option.some.injEq, RunStats.mk.injEq] at hStats
  rcases hStats with ⟨rfl, rfl, hLast⟩
  exact ⟨isCyclic_looped, by decide +kernel, run, state,
    change, hRun, hTold, hLast⟩

end Solver

end JointMax
