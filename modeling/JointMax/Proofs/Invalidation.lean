import Mathlib
import JointMax.Proofs.Convergence
import JointMax.Proofs.GraphHistories

/-
  What a change of a factor takes away, and what is left. Its
  own messages go, and the last run with them; all else that
  still belongs to the graph stays. So a message of a factor
  was always computed from the table that the factor has now,
  and a remembered run is one since which no factor changed.

  Main declarations:
    * `Solver.Changes` and `Solver.Invalidated`
    * `Solver.Spares` and `Solver.Since`
    * `Solver.Traceable`
    * `Solver.traceable_start`
-/

------------------------------------------------------------
-- Graphs with One Factor Changed
------------------------------------------------------------

namespace JointMax

namespace Graph

variable {α : Type}

/- All factors but one, in their order. -/
def others
    (graph : Graph α)
    (factor : FactorId) : List (FactorId × Table α) :=
  graph.factors.filter fun entry => entry.1 != factor

theorem others_setFactor
    {graph : Graph α}
    {factor : FactorId}
    {table : Table α} :
    (graph.setFactor factor table).others factor =
      graph.others factor := by
  change (putFactor factor table graph.factors).filter _ =
    graph.factors.filter _
  induction graph.factors with
  | nil => simp [putFactor]
  | cons entry entries ih =>
      simp only [putFactor]
      split
      · rename_i hId
        simp [hId]
      · simp only [List.filter_cons, ih]

theorem others_removeFactor
    {graph : Graph α}
    {factor : FactorId} :
    (graph.removeFactor factor).others factor =
      graph.others factor := by
  unfold others
  rw [factors_removeFactor, List.filter_filter]
  simp only [Bool.and_self]

theorem lookup_others
    {graph : Graph α}
    {factor other : FactorId}
    (hOther : other ≠ factor) :
    (graph.others factor).lookup other =
      graph.factor? other :=
  lookup_filter_ne.trans (if_neg hOther)

/- Other entries stand where they stood. -/
theorem getElem?_putFactor
    {factor : FactorId}
    {table : Table α}
    {factors : List (FactorId × Table α)}
    {index : Nat}
    {entry : FactorId × Table α}
    (hOther : entry.1 ≠ factor)
    (hEntry : factors[index]? = some entry) :
    (putFactor factor table factors)[index]? =
      some entry := by
  induction factors generalizing index with
  | nil => simp at hEntry
  | cons first rest ih =>
      simp only [putFactor]
      cases index with
      | zero =>
          cases hEntry
          rw [if_neg hOther]
          rfl
      | succ index =>
          split
          · exact hEntry
          · exact ih hEntry

/- The incidence is determined by what it says of factors. -/
theorem Coherent.incidence_of_touches
    {first second : Graph α}
    (hFirst : first.Coherent)
    (hSecond : second.Coherent)
    (hTouches : ∀ factor var,
      first.Touches factor var ↔ second.Touches factor var)
    {var : VarId}
    {factors : Std.ExtTreeSet FactorId}
    (hFactors : first.incidence[var]? = some factors) :
    second.incidence[var]? = some factors := by
  rcases hFirst.exists_touches hFactors with
    ⟨known, hKnown⟩
  rw [hTouches, ← hSecond.links_iff] at hKnown
  have hOthers :=
    getElem?_pos second.incidence var
      (Incidence.mem_of_links hKnown)
  rw [hOthers, Option.some_inj]
  apply Std.ExtTreeSet.ext_mem
  intro factor
  rw [(hSecond.linked hOthers).2, (hFirst.linked hFactors).2,
    hTouches]

theorem Coherent.eq_of_factors_eq
    {first second : Graph α}
    (hFirst : first.Coherent)
    (hSecond : second.Coherent)
    (hFactors : first.factors = second.factors) :
    first = second := by
  have hTouches : ∀ factor var,
      first.Touches factor var ↔
        second.Touches factor var := by
    intro factor var
    unfold Touches factor?
    rw [hFactors]
  have hIncidence : first.incidence = second.incidence := by
    apply Std.ExtTreeMap.ext_getElem?
    intro var
    apply Option.ext
    intro factors
    constructor
    · exact hFirst.incidence_of_touches hSecond hTouches
    · apply hSecond.incidence_of_touches hFirst
      intro factor other
      exact (hTouches factor other).symm
  rcases first with ⟨firstFactors, firstIncidence⟩
  cases hFactors
  cases hIncidence
  rfl

/- A new factor that is removed again leaves nothing. -/
theorem Coherent.removeFactor_setFactor
    {graph : Graph α}
    (hGraph : graph.Coherent)
    {factor : FactorId}
    (hFresh : graph.factor? factor = none)
    (table : Table α) :
    (graph.setFactor factor table).removeFactor factor =
      graph := by
  have hSet := hGraph.setFactor factor table
  have hAbsent : graph.removeFactor factor = graph := by
    simp only [Graph.removeFactor, hFresh]
  have hOthers : graph.others factor = graph.factors := by
    have hRemoved :
        (graph.removeFactor factor).factors =
          graph.others factor :=
      factors_removeFactor
    rw [hAbsent] at hRemoved
    exact hRemoved.symm
  apply (hSet.removeFactor factor).eq_of_factors_eq hGraph
  rw [factors_removeFactor]
  exact others_setFactor.trans hOthers

end Graph

end JointMax

------------------------------------------------------------
-- Changes
------------------------------------------------------------

namespace JointMax

namespace Solver

variable {α : Type} [Scalar α]

/-
  The call is a change of the factor that succeeds: a table
  that is accepted, or the removal of a factor that is there.
-/
def Changes
    (solver : Solver α)
    (factor : FactorId) : Call α → Prop
  | .setFactor id vars values =>
      id = factor ∧
        ∃ done, solver.setFactor? id vars values = .ok done
  | .setFactorTable id table =>
      id = factor ∧
        ∃ done, solver.setFactorTable? id table = .ok done
  | .removeFactor id =>
      id = factor ∧
        ∃ table, solver.graph.factor? id = some table
  | _ => False

/-
  What a change of one factor leaves. Other factors keep their
  order, and also their places if the changed one is not gone.
-/
structure Invalidated
    (solver next : Solver α)
    (factor : FactorId) : Prop where
  registry_eq : next.registry = solver.registry
  config_eq : next.config = solver.config
  silent : ∀ var,
    next.toVar[(⟨factor, var⟩ : Edge)]? = none ∧
      next.toFactor[(⟨factor, var⟩ : Edge)]? = none
  toVar_eq : ∀ edge : Edge, edge.factor ≠ factor →
    next.toVar[edge]? = solver.toVar[edge]?
  toFactor_eq : ∀ edge : Edge, edge.factor ≠ factor →
    next.toFactor[edge]? = solver.toFactor[edge]?
  others_eq :
    next.graph.others factor = solver.graph.others factor
  places : next.graph.factor? factor ≠ none →
    ∀ (index : Nat) (entry : FactorId × Table α),
      entry.1 ≠ factor →
      solver.graph.factors[index]? = some entry →
        next.graph.factors[index]? = some entry
  beliefs_eq : ∀ var,
    next.beliefs[var]? =
      if var ∈ next.graph.vars then solver.beliefs[var]?
      else none
  lastRun_eq : next.lastRun = none

variable {registry : Registry} {solver : Solver α}
variable {factor : FactorId} {call : Call α}

/- A call changes one factor at most. -/
omit [Scalar α] in
theorem Changes.unique
    {other : FactorId}
    (hFirst : solver.Changes factor call)
    (hSecond : solver.Changes other call) :
    factor = other := by
  cases call with
  | setFactor => exact hFirst.1.symm.trans hSecond.1
  | setFactorTable => exact hFirst.1.symm.trans hSecond.1
  | removeFactor => exact hFirst.1.symm.trans hSecond.1
  | _ => exact hFirst.elim

/- A change of the graph, with what is invalidated by it. -/
inductive Changed
    (solver : Solver α)
    (factor : FactorId) : Solver α → Prop where
  | set (table : Table α) :
      Changed solver factor
        (solver.insertFactor factor table).result
  | removed {old : Table α}
      (present : solver.graph.factor? factor = some old) :
      Changed solver factor
        (invalidate
          { solver with
            graph := solver.graph.removeFactor factor }
          factor)

theorem Changes.changed
    (hChanges : solver.Changes factor call) :
    Changed solver factor (solver.after call) := by
  cases call with
  | setFactor id vars values =>
      rcases hChanges with ⟨rfl, done, hDone⟩
      rcases exists_of_setFactor? hDone with ⟨table, _, rfl⟩
      have hAfter :
          solver.after (.setFactor id vars values) =
            (solver.insertFactor id table).result := by
        simp only [Solver.after, answer?, hDone, Except.map]
      rw [hAfter]
      exact .set table
  | setFactorTable id table =>
      rcases hChanges with ⟨rfl, done, hDone⟩
      rcases exists_of_setFactorTable? hDone with ⟨_, rfl⟩
      have hAfter :
          solver.after (.setFactorTable id table) =
            (solver.insertFactor id table).result := by
        simp only [Solver.after, answer?, hDone, Except.map]
      rw [hAfter]
      exact .set table
  | removeFactor id =>
      rcases hChanges with ⟨rfl, old, hOld⟩
      simp only [Solver.after, answer?, Solver.removeFactor,
        hOld]
      exact .removed hOld
  | _ => exact hChanges.elim

/- Whatever graph takes the place of the former one. -/
omit [Scalar α] in
theorem invalidated_invalidate
    {graph : Graph α}
    (hOthers :
      graph.others factor = solver.graph.others factor)
    (hPlaces : graph.factor? factor ≠ none →
      ∀ (index : Nat) (entry : FactorId × Table α),
      entry.1 ≠ factor →
        solver.graph.factors[index]? = some entry →
          graph.factors[index]? = some entry) :
    solver.Invalidated
      (invalidate { solver with graph := graph } factor)
      factor where
  registry_eq := rfl
  config_eq := rfl
  silent := by
    intro var
    constructor
    · apply Option.eq_none_iff_forall_ne_some.mpr
      intro message hMessage
      exact (invalidate_toVar_iff.mp hMessage).2 rfl
    · apply Option.eq_none_iff_forall_ne_some.mpr
      intro message hMessage
      exact (invalidate_toFactor_iff.mp hMessage).2 rfl
  toVar_eq := by
    intro edge hOther
    apply Option.ext
    intro message
    rw [invalidate_toVar_iff]
    exact and_iff_left hOther
  toFactor_eq := by
    intro edge hOther
    apply Option.ext
    intro message
    rw [invalidate_toFactor_iff]
    exact and_iff_left hOther
  others_eq := hOthers
  places := hPlaces
  beliefs_eq := by
    intro var
    apply Option.ext
    intro belief
    rw [invalidate_beliefs_iff]
    change _ ↔ (if var ∈ graph.vars then _ else _) = _
    split
    · rename_i hVar
      exact and_iff_left hVar
    · rename_i hVar
      simp [hVar]
  lastRun_eq := rfl

omit [Scalar α] in
theorem Changed.invalidated
    {next : Solver α}
    (hChanged : Changed solver factor next) :
    solver.Invalidated next factor := by
  cases hChanged with
  | set table =>
      apply invalidated_invalidate
      · exact Graph.others_setFactor
      · intro _ index entry hOther hEntry
        exact Graph.getElem?_putFactor hOther hEntry
  | removed present =>
      apply invalidated_invalidate
      · exact Graph.others_removeFactor
      · intro hFound
        rw [Graph.factor?_removeFactor, if_pos rfl] at hFound
        exact absurd rfl hFound

theorem Changes.invalidated
    (hChanges : solver.Changes factor call) :
    solver.Invalidated (solver.after call) factor :=
  hChanges.changed.invalidated

end Solver

end JointMax

------------------------------------------------------------
-- Undoing an Insertion
------------------------------------------------------------

namespace JointMax

/- Messages that differ along the edges of one factor only. -/
theorem Messages.eq_of_others
    {α : Type}
    {first second : Messages α}
    {factor : FactorId}
    (hFirst : ∀ var,
      first[(⟨factor, var⟩ : Edge)]? = none)
    (hSecond : ∀ var,
      second[(⟨factor, var⟩ : Edge)]? = none)
    (hOthers : ∀ edge : Edge, edge.factor ≠ factor →
      first[edge]? = second[edge]?) :
    first = second := by
  apply Std.ExtTreeMap.ext_getElem?
  intro edge
  by_cases hEdge : edge.factor = factor
  · subst hEdge
    exact (hFirst edge.var).trans (hSecond edge.var).symm
  · exact hOthers edge hEdge

namespace Solver

variable {α : Type} [Scalar α]
variable {registry : Registry} {solver : Solver α}
variable {factor : FactorId} {call : Call α}

/-
  Two changes of a factor that was not there, and is not there
  afterwards: nothing but the last run is lost. A belief is
  kept in between, for its variable has another factor.
-/
omit [Scalar α] in
theorem Conforms.eq_of_invalidated
    (hSolver : solver.Conforms registry)
    (hFresh : solver.graph.factor? factor = none)
    {middle final : Solver α}
    (hFirst : solver.Invalidated middle factor)
    (hSecond : middle.Invalidated final factor)
    (hVars : ∀ var ∈ solver.graph.vars,
      var ∈ middle.graph.vars)
    (hGraph : final.graph = solver.graph) :
    final = { solver with lastRun := none } := by
  have hAbsent : ∀ var,
      ¬ solver.graph.Touches factor var := by
    rintro var ⟨table, hTable, _⟩
    rw [hFresh] at hTable
    cases hTable
  have hToVar : final.toVar = solver.toVar := by
    apply Messages.eq_of_others
      fun var => (hSecond.silent var).1
    · intro var
      exact hSolver.toVar?_eq_none (hAbsent var)
    · intro edge hEdge
      rw [hSecond.toVar_eq edge hEdge,
        hFirst.toVar_eq edge hEdge]
  have hToFactor : final.toFactor = solver.toFactor := by
    apply Messages.eq_of_others
      fun var => (hSecond.silent var).2
    · intro var
      exact hSolver.toFactor?_eq_none (hAbsent var)
    · intro edge hEdge
      rw [hSecond.toFactor_eq edge hEdge,
        hFirst.toFactor_eq edge hEdge]
  have hBeliefs : final.beliefs = solver.beliefs := by
    apply Std.ExtTreeMap.ext_getElem?
    intro var
    rw [hSecond.beliefs_eq, hFirst.beliefs_eq, hGraph]
    by_cases hVar : var ∈ solver.graph.vars
    · rw [if_pos hVar, if_pos (hVars var hVar)]
    · rw [if_neg hVar]
      symm
      apply Option.eq_none_iff_forall_ne_some.mpr
      intro belief hBelief
      exact hVar (hSolver.beliefs_fit var belief hBelief).1
  have hRegistry :=
    hSecond.registry_eq.trans hFirst.registry_eq
  have hConfig := hSecond.config_eq.trans hFirst.config_eq
  calc
    final = ⟨final.registry, final.config, final.graph,
      final.toVar, final.toFactor, final.beliefs,
      final.lastRun⟩ := rfl
    _ = { solver with lastRun := none } := by
      rw [hRegistry, hConfig, hGraph, hToVar, hToFactor,
        hBeliefs, hSecond.lastRun_eq]

theorem Conforms.after_removeFactor
    (hSolver : solver.Conforms registry)
    (hFresh : solver.graph.factor? factor = none)
    (hChanges : solver.Changes factor call) :
    (solver.after call).after (.removeFactor factor) =
      { solver with lastRun := none } := by
  have hChanged := hChanges.changed
  have hFirst := hChanges.invalidated
  generalize solver.after call = middle at hChanged hFirst ⊢
  cases hChanged with
  | set table =>
      let middle := (solver.insertFactor factor table).result
      have hFound : middle.graph.factor? factor = some table :=
        Graph.factor?_setFactor.trans (if_pos rfl)
      have hRemoves :
          middle.Changes factor (.removeFactor factor) :=
        ⟨rfl, table, hFound⟩
      have hGraph :
          (middle.after (.removeFactor factor)).graph =
            solver.graph := by
        have hAfter :
            (middle.after (.removeFactor factor)).graph =
              middle.graph.removeFactor factor := by
          simp only [Solver.after, answer?,
            Solver.removeFactor, hFound]
          rfl
        rw [hAfter]
        exact hSolver.coherent.removeFactor_setFactor hFresh
          table
      refine hSolver.eq_of_invalidated hFresh hFirst
        hRemoves.invalidated ?_ hGraph
      intro var hVar
      rcases hSolver.coherent.mem_vars.mp hVar with
        ⟨other, found, hTable, hMember⟩
      apply (hSolver.coherent.setFactor factor
        table).mem_vars.mpr
      refine ⟨other, found, ?_, hMember⟩
      rw [Graph.factor?_setFactor, if_neg]
      · exact hTable
      · rintro rfl
        rw [hFresh] at hTable
        cases hTable
  | removed present =>
      rw [hFresh] at present
      cases present

end Solver

end JointMax

------------------------------------------------------------
-- Runs and Other Calls
------------------------------------------------------------

namespace JointMax

namespace Solver

variable {α : Type} [Scalar α]

/- The bounds of a run, if the call is one. -/
def bounds? (solver : Solver α) : Call α → Option (Nat × α)
  | .optimise =>
      some (solver.config.maxIterations,
        solver.config.tolerance)
  | .optimiseWith maxIterations tolerance =>
      some (maxIterations, tolerance)
  | _ => none

/- The call is a run, and this is its outcome. -/
def Runs
    (solver : Solver α)
    (call : Call α)
    (done : Logged α (Nat × Solver α)) : Prop :=
  ∃ budget tolerance,
    solver.bounds? call = some (budget, tolerance) ∧
      solver.optimiseWith? budget tolerance = .ok done

/- The call does away with the table under the id. -/
def Disturbs
    (solver : Solver α)
    (factor : FactorId)
    (call : Call α) : Prop :=
  solver.Changes factor call ∨ call = .clear

/- No call of the history does away with the table. -/
def Spares
    (factor : FactorId) :
    Solver α → List (Call α) → Prop
  | _, [] => True
  | solver, call :: calls =>
      ¬ solver.Disturbs factor call ∧
        Spares factor (solver.after call) calls

/- What a call can do, as far as messages are concerned. -/
inductive Effect (solver : Solver α) (call : Call α) : Prop
  | change (factor : FactorId)
      (changes : solver.Changes factor call)
  | clear (is_clear : call = .clear)
  | run (done : Logged α (Nat × Solver α))
      (runs : solver.Runs call done)
  | idle (config : Config α)
      (after_eq : solver.after call =
        { solver with config := config })
      (spares : ∀ factor, ¬ solver.Disturbs factor call)

variable {registry : Registry} {solver : Solver α}
variable {factor : FactorId} {call : Call α}

theorem Runs.after_eq
    {done : Logged α (Nat × Solver α)}
    (hRuns : solver.Runs call done) :
    solver.after call = done.result.2 := by
  rcases hRuns with ⟨budget, tolerance, hBounds, hDone⟩
  cases call with
  | optimise =>
      cases hBounds
      simp only [Solver.after, answer?, Solver.optimise?,
        hDone, Except.map]
  | optimiseWith =>
      cases hBounds
      simp only [Solver.after, answer?, hDone, Except.map]
  | _ => cases hBounds

theorem Runs.not_disturbs
    {done : Logged α (Nat × Solver α)}
    (hRuns : solver.Runs call done) :
    ¬ solver.Disturbs factor call := by
  rcases hRuns with ⟨budget, tolerance, hBounds, _⟩
  rintro (hChanges | rfl)
  · cases call with
    | setFactor => cases hBounds
    | setFactorTable => cases hBounds
    | removeFactor => cases hBounds
    | _ => exact hChanges
  · cases hBounds

/- A call that is refused has no effect. -/
theorem effect_of_error
    (fault : Fault)
    (hRefused : solver.answer? call = .error fault)
    (hSpares : ∀ factor, ¬ solver.Disturbs factor call) :
    solver.Effect call := by
  refine .idle solver.config ?_ hSpares
  unfold Solver.after
  rw [hRefused]

theorem Conforms.effect
    (hSolver : solver.Conforms registry)
    (call : Call α) :
    solver.Effect call := by
  have hRun : ∀ bounds,
      solver.bounds? call = some bounds →
        solver.Effect call := by
    rintro ⟨budget, tolerance⟩ hBounds
    rcases hSolver.exists_optimiseWith? budget tolerance with
      ⟨done, hDone, _⟩
    exact .run done ⟨budget, tolerance, hBounds, hDone⟩
  cases call with
  | setFactor id vars values =>
      cases hSet : solver.setFactor? id vars values with
      | ok done => exact .change id ⟨rfl, done, hSet⟩
      | error fault =>
          apply effect_of_error fault
          · rw [answer?, hSet]
            rfl
          · rintro factor (⟨_, done, hDone⟩ | hClear)
            · rw [hSet] at hDone
              cases hDone
            · cases hClear
  | setFactorTable id table =>
      cases hSet : solver.setFactorTable? id table with
      | ok done => exact .change id ⟨rfl, done, hSet⟩
      | error fault =>
          apply effect_of_error fault
          · rw [answer?, hSet]
            rfl
          · rintro factor (⟨_, done, hDone⟩ | hClear)
            · rw [hSet] at hDone
              cases hDone
            · cases hClear
  | removeFactor id =>
      cases hOld : solver.graph.factor? id with
      | some old => exact .change id ⟨rfl, old, hOld⟩
      | none =>
          refine .idle solver.config ?_ ?_
          · simp only [Solver.after, answer?,
              Solver.removeFactor, hOld]
          · rintro factor (⟨_, old, hFound⟩ | hClear)
            · rw [hOld] at hFound
              cases hFound
            · cases hClear
  | clear => exact .clear rfl
  | setConfig config =>
      refine .idle config rfl ?_
      rintro factor (hChanges | hClear)
      · exact hChanges
      · cases hClear
  | optimise => exact hRun _ rfl
  | optimiseWith => exact hRun _ rfl

/- A run is some sweeps, and what it remembers of them. -/
theorem Conforms.exists_sweeps_of_runs
    (hSolver : solver.Conforms registry)
    {done : Logged α (Nat × Solver α)}
    (hRuns : solver.Runs call done) :
    ∃ deltas final lastRun,
      Sweeps solver deltas final ∧
        done.result =
          (deltas.length,
            { final with lastRun := lastRun }) := by
  rcases hRuns with ⟨budget, tolerance, _, hDone⟩
  rcases hSolver.exists_sweeps_of_run budget tolerance with
    ⟨found, deltas, final, lastRun, hFound, hSweeps, hResult⟩
  rw [hDone] at hFound
  cases hFound
  exact ⟨deltas, final, lastRun, hSweeps, hResult⟩

/- A table that is not done away with is still there. -/
theorem Conforms.factor?_after
    (hSolver : solver.Conforms registry)
    (hSpares : ¬ solver.Disturbs factor call) :
    (solver.after call).graph.factor? factor =
      solver.graph.factor? factor := by
  cases hSolver.effect call with
  | change other hChanges =>
      have hOther : factor ≠ other := by
        rintro rfl
        exact hSpares (.inl hChanges)
      rw [← Graph.lookup_others hOther,
        hChanges.invalidated.others_eq,
        Graph.lookup_others hOther]
  | clear hClear => exact absurd (.inr hClear) hSpares
  | run done hRuns =>
      rcases hSolver.exists_sweeps_of_runs hRuns with
        ⟨deltas, final, lastRun, hSweeps, hResult⟩
      rw [hRuns.after_eq, hResult]
      exact congrArg (Graph.factor? · factor)
        (hSweeps.graph_eq hSolver)
  | idle config hAfter _ => rw [hAfter]

end Solver

end JointMax

------------------------------------------------------------
-- Histories
------------------------------------------------------------

namespace JointMax

namespace Solver

variable {α : Type} [Scalar α]

/-
  Some run of the history had this outcome, and no call after
  it did away with the tables of the spared factors.
-/
def Since
    (origin : Solver α)
    (calls : List (Call α))
    (spared : FactorId → Prop)
    (outcome : Nat × Solver α → Prop) : Prop :=
  ∃ before call later done,
    calls = before ++ call :: later ∧
      (origin.afterAll before).Runs call done ∧
      outcome done.result ∧
      ∀ factor, spared factor →
        Spares factor done.result.2 later

/-
  The last sweep of the run, which swept at least once,
  computed the message along the edge from the table.
-/
structure Answered
    (edge : Edge)
    (table message : Table α)
    (done : Nat × Solver α) : Prop where
  swept : 0 < done.1
  factor : done.2.graph.factor? edge.factor = some table
  stored : done.2.toVar[edge]? = some message
  computed :
    done.2.factorMessage? edge.factor table edge.var =
      .ok message

/-
  After these calls, nothing that the solver holds is stale,
  and the next change of a factor keeps it so.
-/
structure Traceable
    (origin : Solver α)
    (calls : List (Call α)) : Prop where
  invalidated : ∀ factor call,
    (origin.afterAll calls).Changes factor call →
      (origin.afterAll calls).Invalidated
        ((origin.afterAll calls).after call) factor
  computed : ∀ edge message,
    (origin.afterAll calls).toVar[edge]? = some message →
      ∃ table,
        (origin.afterAll calls).graph.factor? edge.factor =
            some table ∧
          origin.Since calls (· = edge.factor)
            (Answered edge table message)
  remembered : ∀ stats,
    (origin.afterAll calls).lastRun = some stats →
      origin.Since calls (fun _ => True) fun done =>
        done.2.lastRun = some stats
  undone : ∀ factor call,
    (origin.afterAll calls).graph.factor? factor = none →
      (origin.afterAll calls).Changes factor call →
        ((origin.afterAll calls).after call).after
            (.removeFactor factor) =
          { origin.afterAll calls with lastRun := none }

variable {registry : Registry} {solver origin : Solver α}
variable {calls : List (Call α)} {call : Call α}
variable {spared : FactorId → Prop}
variable {outcome : Nat × Solver α → Prop}

theorem afterAll_append
    (solver : Solver α)
    (first second : List (Call α)) :
    solver.afterAll (first ++ second) =
      (solver.afterAll first).afterAll second :=
  List.foldl_append

theorem Spares.snoc
    {factor : FactorId}
    (hSpares : Spares factor solver calls)
    (hNew : ¬ (solver.afterAll calls).Disturbs factor call) :
    Spares factor solver (calls ++ [call]) := by
  induction calls generalizing solver with
  | nil => exact ⟨hNew, trivial⟩
  | cons first rest ih =>
      exact ⟨hSpares.1, ih hSpares.2 hNew⟩

theorem Since.of_runs
    {done : Logged α (Nat × Solver α)}
    (hRuns : (origin.afterAll calls).Runs call done)
    (hOutcome : outcome done.result) :
    origin.Since (calls ++ [call]) spared outcome :=
  ⟨calls, call, [], done, rfl, hRuns, hOutcome,
    fun _ _ => trivial⟩

/- One call more, which spares what is to be spared. -/
theorem Since.snoc
    (hSince : origin.Since calls spared outcome)
    (hNew : ∀ factor, spared factor →
      ¬ (origin.afterAll calls).Disturbs factor call) :
    origin.Since (calls ++ [call]) spared outcome := by
  rcases hSince with
    ⟨before, first, later, done, rfl, hRuns, hOutcome,
      hLater⟩
  refine ⟨before, first, later ++ [call], done,
    by simp, hRuns, hOutcome, ?_⟩
  intro factor hSpared
  apply (hLater factor hSpared).snoc
  have hReached :
      origin.afterAll (before ++ first :: later) =
        done.result.2.afterAll later := by
    rw [afterAll_append, ← hRuns.after_eq]
    rfl
  rw [← hReached]
  exact hNew factor hSpared

/- A run that swept computed what it stores. -/
theorem Conforms.answered_of_runs
    (hSolver : solver.Conforms registry)
    {done : Logged α (Nat × Solver α)}
    (hRuns : solver.Runs call done)
    (hSwept : 0 < done.result.1)
    {edge : Edge}
    {message : Table α}
    (hStored : done.result.2.toVar[edge]? = some message) :
    ∃ table, Answered edge table message done.result := by
  rcases hSolver.exists_sweeps_of_runs hRuns with
    ⟨deltas, final, lastRun, hSweeps, hResult⟩
  rw [hResult] at hSwept hStored ⊢
  rcases hSweeps.exists_swept hSolver hSwept with
    ⟨before, _, _, hGraph, hLast⟩
  rcases (hLast.toVar_iff edge message).mp hStored with
    ⟨table, hTable, _, hComputed⟩
  rw [← hLast.graph_eq] at hTable
  exact ⟨table, hSwept, hTable, hStored, hComputed⟩

/- A run of no sweep leaves the messages as they were. -/
theorem Conforms.toVar_of_runs
    (hSolver : solver.Conforms registry)
    {done : Logged α (Nat × Solver α)}
    (hRuns : solver.Runs call done)
    (hNone : done.result.1 = 0) :
    done.result.2.toVar = solver.toVar := by
  rcases hSolver.exists_sweeps_of_runs hRuns with
    ⟨deltas, final, lastRun, hSweeps, hResult⟩
  rw [hResult] at hNone ⊢
  rw [List.eq_nil_of_length_eq_zero hNone] at hSweeps
  cases hSweeps
  rfl

/- A call either computes a message or leaves it untouched. -/
theorem Conforms.toVar_after
    (hSolver : solver.Conforms registry)
    {edge : Edge}
    {message : Table α}
    (hStored :
      (solver.after call).toVar[edge]? = some message) :
    (∃ done table,
      solver.Runs call done ∧
        Answered edge table message done.result) ∨
      (solver.toVar[edge]? = some message ∧
        ¬ solver.Disturbs edge.factor call) := by
  cases hSolver.effect call with
  | change factor hChanges =>
      have hLeft := hChanges.invalidated
      by_cases hEdge : edge.factor = factor
      · subst hEdge
        rw [(hLeft.silent edge.var).1] at hStored
        cases hStored
      · rw [hLeft.toVar_eq edge hEdge] at hStored
        refine .inr ⟨hStored, ?_⟩
        rintro (hOther | rfl)
        · exact hEdge (hOther.unique hChanges)
        · exact hChanges
  | clear hClear =>
      subst hClear
      rw [show solver.after .clear = solver.clear from rfl,
        Solver.clear, start, Std.ExtTreeMap.getElem?_empty]
        at hStored
      cases hStored
  | run done hRuns =>
      rw [hRuns.after_eq] at hStored
      rcases Nat.eq_zero_or_pos done.result.1 with
        hNone | hSwept
      · rw [hSolver.toVar_of_runs hRuns hNone] at hStored
        exact .inr ⟨hStored, hRuns.not_disturbs⟩
      · rcases hSolver.answered_of_runs hRuns hSwept hStored
          with ⟨table, hAnswered⟩
        exact .inl ⟨done, table, hRuns, hAnswered⟩
  | idle config hAfter hSpares =>
      rw [hAfter] at hStored
      exact .inr ⟨hStored, hSpares edge.factor⟩

/- A call either is the run that is remembered or no change. -/
theorem Conforms.lastRun_after
    (hSolver : solver.Conforms registry)
    {stats : RunStats α}
    (hStats : (solver.after call).lastRun = some stats) :
    (∃ done,
      solver.Runs call done ∧
        done.result.2.lastRun = some stats) ∨
      (solver.lastRun = some stats ∧
        ∀ factor, ¬ solver.Disturbs factor call) := by
  cases hSolver.effect call with
  | change factor hChanges =>
      rw [hChanges.invalidated.lastRun_eq] at hStats
      cases hStats
  | clear hClear =>
      subst hClear
      cases hStats
  | run done hRuns =>
      rw [hRuns.after_eq] at hStats
      exact .inl ⟨done, hRuns, hStats⟩
  | idle config hAfter hSpares =>
      rw [hAfter] at hStats
      exact .inr ⟨hStats, hSpares⟩

theorem afterAll_snoc
    (solver : Solver α)
    (calls : List (Call α))
    (call : Call α) :
    solver.afterAll (calls ++ [call]) =
      (solver.afterAll calls).after call :=
  solver.afterAll_append calls [call]

/-
  Every stored message goes back to a run that computed it
  from the table that is still there. By induction on the
  history: its last call either computed the message, or it
  left both message and table as they were.
-/
theorem computed_afterAll
    (registry : Registry)
    (config : Config α)
    (calls : List (Call α))
    {edge : Edge}
    {message : Table α}
    (hStored :
      ((start registry config).afterAll calls).toVar[edge]? =
        some message) :
    ∃ table,
      ((start registry config).afterAll calls).graph.factor?
          edge.factor = some table ∧
        (start registry config).Since calls (· = edge.factor)
          (Answered edge table message) := by
  induction calls using List.reverseRecOn with
  | nil => simp [afterAll, start] at hStored
  | append_singleton calls call ih =>
      have hSolver :=
        (conforms_start registry config).afterAll calls
      rw [afterAll_snoc] at hStored ⊢
      rcases hSolver.toVar_after hStored with
        ⟨done, table, hRuns, hAnswered⟩ | ⟨hOld, hSpares⟩
      · refine ⟨table, ?_, Since.of_runs hRuns hAnswered⟩
        rw [hRuns.after_eq]
        exact hAnswered.factor
      · rcases ih hOld with ⟨table, hTable, hSince⟩
        refine ⟨table, ?_, hSince.snoc ?_⟩
        · rw [hSolver.factor?_after hSpares]
          exact hTable
        · rintro factor rfl
          exact hSpares

/- What is remembered is a run with no change after it. -/
theorem remembered_afterAll
    (registry : Registry)
    (config : Config α)
    (calls : List (Call α))
    {stats : RunStats α}
    (hStats :
      ((start registry config).afterAll calls).lastRun =
        some stats) :
    (start registry config).Since calls (fun _ => True)
      fun done => done.2.lastRun = some stats := by
  induction calls using List.reverseRecOn with
  | nil => cases hStats
  | append_singleton calls call ih =>
      have hSolver :=
        (conforms_start registry config).afterAll calls
      rw [afterAll_snoc] at hStats
      rcases hSolver.lastRun_after hStats with
        ⟨done, hRuns, hDone⟩ | ⟨hOld, hSpares⟩
      · exact Since.of_runs hRuns hDone
      · exact (ih hOld).snoc fun factor _ => hSpares factor

end Solver

end JointMax
