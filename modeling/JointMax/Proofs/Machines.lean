import Mathlib
import JointMax.Proofs.Cursors
import JointMax.Proofs.Encodings
import JointMax.Proofs.ForestOptimum
import JointMax.Proofs.Histories
import JointMax.Proofs.WordScopes
import JointMax.Solver.Machine

/-
  Histories of a machine. As long as the joint values of each
  factor that it is offered are counted by a word, a machine
  shows a solver that some history of calls leads to, and a
  caller can rely on all that holds of such a solver. A factor
  with more joint values may be accepted with too few values,
  and then the next run reads past them and breaks off.

  Main declarations:
    * `Registry.sizesOf`
    * `Request`, `Machine.answer?` and `Machine.afterAll?`
    * `Machine.Shows`, with `Machine.Shows.solver?_eq`
    * `Machine.Shows.after?`, one request, and
      `Machine.Shows.afterAll?`, all of them
    * `Machine.Sound` and `Machine.soundAfter_of_counted`
    * `Machine.exists_unread_of_optimiseWith?`, why a run
      breaks off
-/

------------------------------------------------------------
-- Registered Sizes
------------------------------------------------------------

namespace JointMax

namespace Registry

/- The registered size of a variable, zero for a stranger. -/
def sizeOf (registry : Registry) (var : VarId) : Nat :=
  match registry.size? var with
  | .ok size => size.val
  | .error _ => 0

/- The registered sizes of some variables. -/
def sizesOf (registry : Registry) (vars : List VarId) :
    List Nat :=
  vars.map registry.sizeOf

variable {registry : Registry}

theorem Knows.sizeOf_eq
    {axis : Axis}
    (hKnows : registry.Knows axis) :
    registry.sizeOf axis.var = axis.size := by
  rw [sizeOf, hKnows]

end Registry

namespace Scope

variable {registry : Registry} {scope : Scope}

theorem sizes_of_knows
    (hKnows : ∀ axis ∈ scope.axes, registry.Knows axis) :
    scope.sizes = registry.sizesOf scope.vars := by
  rw [Registry.sizesOf, Scope.vars, List.map_map]
  apply List.map_congr_left
  intro axis hAxis
  exact (hKnows axis hAxis).sizeOf_eq.symm

theorem count_of_knows
    (hKnows : ∀ axis ∈ scope.axes, registry.Knows axis) :
    scope.count = (registry.sizesOf scope.vars).prod := by
  rw [← sizes_of_knows hKnows]
  exact MixedRadix.count_eq_prod scope.sizes

/- Variables given in order are those of the scope. -/
theorem vars_of_ofVars?
    {vars : List VarId}
    (hVars : Increasing vars)
    (hScope : ofVars? registry vars = .ok scope) :
    scope.vars = vars :=
  eq_of_increasing scope.increasing_vars hVars
    (ofVars?_eq_ok_iff.mp hScope).1

end Scope

end JointMax

------------------------------------------------------------
-- Requests
------------------------------------------------------------

namespace JointMax

/- The calls that may change a machine. -/
inductive Request (α : Type) where
  | setFactor
      (factor : FactorId)
      (vars : List VarId)
      (values : Array α)
  | setFactorSheet (factor : FactorId) (sheet : Sheet α)
  | removeFactor (factor : FactorId)
  | clear
  | setConfig (config : Config α)
  | optimise
  | optimiseWith (maxIterations : Nat) (tolerance : α)

/-
  A factor that fits the registry has its joint values
  counted by a word.
-/
def Request.Counted {α : Type} (registry : Registry) :
    Request α → Prop
  | .setFactor _ vars _ =>
      Increasing vars →
        (registry.sizesOf vars).prod < wordLimit
  | .setFactorSheet _ sheet =>
      (∀ axis ∈ sheet.scope.axes, registry.Knows axis) →
        sheet.scope.count < wordLimit
  | _ => True

namespace Machine

variable {α : Type} [Scalar α]

/- The machine that a request leaves, if it is accepted. -/
def answer? (build : Build) (machine : Machine α) :
    Request α → Option (Except Fault (Machine α))
  | .setFactor factor vars values =>
      (machine.setFactor? build factor vars values).map
        fun answer => answer.map Logged.result
  | .setFactorSheet factor sheet =>
      some ((machine.setFactorSheet? factor sheet).map
        Logged.result)
  | .removeFactor factor =>
      some (.ok (machine.removeFactor factor).result)
  | .clear => some (.ok machine.clear)
  | .setConfig config => some (.ok (machine.setConfig config))
  | .optimise =>
      machine.optimise?.map fun answer =>
        answer.map fun run => run.result.2
  | .optimiseWith maxIterations tolerance =>
      (machine.optimiseWith? maxIterations tolerance).map
        fun answer => answer.map fun run => run.result.2

/- A refused request changes nothing. -/
def after?
    (build : Build)
    (machine : Machine α)
    (request : Request α) : Option (Machine α) := do
  match ← machine.answer? build request with
  | .ok next => return next
  | .error _ => return machine

def afterAll?
    (build : Build)
    (machine : Machine α)
    (requests : List (Request α)) : Option (Machine α) :=
  requests.foldlM (after? build) machine

end Machine

end JointMax

------------------------------------------------------------
-- Sheets and Tables
------------------------------------------------------------

namespace JointMax

namespace Sheet

variable {α : Type} {sheet : Sheet α} {table : Table α}

theorem eq_of_table?
    (hTable : sheet.table? = some table) :
    table.scope = sheet.scope ∧
      table.values = sheet.values := by
  unfold table? at hTable
  split at hTable
  · cases hTable
    exact ⟨rfl, rfl⟩
  · cases hTable

/- Where a word counts the joint values, none is missing. -/
theorem exists_table?
    (hWords : sheet.scope.count < wordLimit) :
    ∃ table, sheet.table? = some table := by
  have hSize : sheet.values.size = sheet.scope.count := by
    rw [sheet.size_eq, Nat.mod_eq_of_lt hWords]
  exact ⟨_, dif_pos hSize⟩

theorem exists_of_ofValues?
    {build : Build}
    {scope : Scope}
    {values : Array α}
    (hSheet :
      ofValues? build scope values = some (.ok sheet)) :
    sheet.scope = scope ∧ sheet.values = values := by
  unfold ofValues? at hSheet
  split at hSheet
  · split at hSheet
    · cases hSheet
      exact ⟨rfl, rfl⟩
    · cases hSheet
  · cases hSheet

/- Listed values are counted, and taken or refused. -/
theorem ofValues?_eq
    {scope : Scope}
    {values : Array α}
    (build : Build)
    (hWords : scope.count < wordLimit) :
    ofValues? build scope values =
      some (if hSize : values.size = scope.count then
        .ok ⟨scope, values, by
          rw [hSize, Nat.mod_eq_of_lt hWords]⟩
      else
        .error (.valueCount scope.count values.size)) := by
  have hCount : scope.countWord? build = some scope.count :=
    Scope.countWord?_eq hWords
  unfold ofValues?
  split
  · rename_i total hTotal
    rw [hCount, Option.some.injEq] at hTotal
    subst hTotal
    split <;> rfl
  · rename_i hTotal
    rw [hCount] at hTotal
    cases hTotal

/-
  A walk along the joint values of a sheet that lacks some of
  them, where indices wrap around, comes to a position
  without a value.
-/
theorem exists_unread (hShort : sheet.table? = none) :
    ∃ first positions,
      Cursor.start? .wrapping sheet.scope = some first ∧
        Cursor.Walks .wrapping first positions ∧
        ∃ position ∈ positions,
          sheet.values[position.index]? = none := by
  have hFewer : sheet.values.size < sheet.scope.count := by
    have hLe := Nat.mod_le sheet.scope.count wordLimit
    rw [← sheet.size_eq] at hLe
    apply lt_of_le_of_ne hLe
    intro hSize
    simp [table?, hSize] at hShort
  have hWord :
      sheet.values.size % wordLimit = sheet.values.size := by
    rw [sheet.size_eq, Nat.mod_mod]
  rcases Cursor.exists_walk_wrapped sheet.scope with
    ⟨first, positions, hFirst, hWalks, hIndices⟩
  have hMember :
      sheet.values.size ∈
        positions.map fun position => position.index := by
    rw [hIndices]
    exact List.mem_map.mpr
      ⟨_, List.mem_range.mpr hFewer, hWord⟩
  rcases List.mem_map.mp hMember with
    ⟨position, hPosition, hIndex⟩
  exact ⟨first, positions, hFirst, hWalks, position,
    hPosition, Array.getElem?_eq_none hIndex.ge⟩

end Sheet

end JointMax

------------------------------------------------------------
-- Shown Solvers
------------------------------------------------------------

namespace JointMax

namespace Machine

variable {α : Type}

/- Under one id, a sheet and the table that it is. -/
def Matches
    (entry : FactorId × Sheet α)
    (shown : FactorId × Table α) : Prop :=
  entry.1 = shown.1 ∧ entry.2.table? = some shown.2

section

variable {entries : List (FactorId × Sheet α)}
variable {shown : List (FactorId × Table α)}

theorem matches_putFactor
    {sheet : Sheet α}
    {table : Table α}
    (hEntries : List.Forall₂ Matches entries shown)
    (hTable : sheet.table? = some table)
    (factor : FactorId) :
    List.Forall₂ Matches
      (Graph.putFactor factor sheet entries)
      (Graph.putFactor factor table shown) := by
  induction hEntries with
  | nil => exact .cons ⟨rfl, hTable⟩ .nil
  | cons hHead hTail ih =>
      simp only [Graph.putFactor, hHead.1]
      split
      · exact .cons ⟨rfl, hTable⟩ hTail
      · exact .cons hHead ih

theorem matches_filter
    (hEntries : List.Forall₂ Matches entries shown)
    (factor : FactorId) :
    List.Forall₂ Matches
      (entries.filter fun entry => entry.1 != factor)
      (shown.filter fun entry => entry.1 != factor) := by
  induction hEntries with
  | nil => exact .nil
  | cons hHead _ ih =>
      simp only [List.filter_cons, hHead.1]
      split
      · exact .cons hHead ih
      · exact ih

theorem isSome_lookup_of_matches
    (hEntries : List.Forall₂ Matches entries shown)
    (factor : FactorId) :
    (entries.lookup factor).isSome =
      (shown.lookup factor).isSome := by
  induction hEntries with
  | nil => rfl
  | @cons entry other _ _ hHead _ ih =>
      rcases entry with ⟨id, sheet⟩
      rcases other with ⟨_, table⟩
      rcases hHead with ⟨rfl, _⟩
      simp only [List.lookup_cons]
      split
      · rfl
      · exact ih

theorem mapM_of_matches
    (hEntries : List.Forall₂ Matches entries shown) :
    (entries.mapM fun entry => do
      let table ← entry.2.table?
      return (entry.1, table)) = some shown := by
  induction hEntries with
  | nil => rfl
  | cons hHead _ ih =>
      rw [List.mapM_cons, hHead.2, ih, hHead.1]
      rfl

/- Entries that all have tables match them. -/
theorem exists_matches
    (hTables : ∀ entry ∈ entries,
      entry.2.table? ≠ none) :
    ∃ shown, List.Forall₂ Matches entries shown := by
  induction entries with
  | nil => exact ⟨[], .nil⟩
  | cons entry entries ih =>
      rw [List.forall_mem_cons] at hTables
      rcases ih hTables.2 with ⟨shown, hRest⟩
      rcases Option.ne_none_iff_exists'.mp hTables.1 with
        ⟨table, hTable⟩
      exact ⟨(entry.1, table) :: shown,
        .cons ⟨rfl, hTable⟩ hRest⟩

end

theorem exists_short_of_no_solver
    {machine : Machine α}
    (hNone : machine.solver? = none) :
    ∃ entry ∈ machine.factors, entry.2.table? = none := by
  by_contra! hTables
  rcases exists_matches hTables with ⟨shown, hShown⟩
  rw [solver?, mapM_of_matches hShown] at hNone
  cases hNone

/- The same state, with a table behind every sheet. -/
structure Shows
    (machine : Machine α)
    (solver : Solver α) : Prop where
  registry_eq : solver.registry = machine.registry
  config_eq : solver.config = machine.config
  factors :
    List.Forall₂ Matches machine.factors
      solver.graph.factors
  toVar_eq : solver.toVar = machine.toVar
  toFactor_eq : solver.toFactor = machine.toFactor
  beliefs_eq : solver.beliefs = machine.beliefs
  lastRun_eq : solver.lastRun = machine.lastRun

variable {machine : Machine α} {solver : Solver α}

theorem shows_start
    (registry : Registry)
    (config : Config α) :
    (start registry config).Shows
      (Solver.start registry config) :=
  ⟨rfl, rfl, .nil, rfl, rfl, rfl, rfl⟩

/- The graph is found again from the tables alone. -/
theorem Shows.solver?_eq
    (hShows : machine.Shows solver)
    (hGraph : solver.graph.Coherent) :
    machine.solver? = some solver := by
  rw [solver?, mapM_of_matches hShows.factors,
    Option.bind_eq_bind, Option.bind_some,
    hGraph.ofFactors_factors, ← hShows.registry_eq,
    ← hShows.config_eq, ← hShows.toVar_eq,
    ← hShows.toFactor_eq, ← hShows.beliefs_eq,
    ← hShows.lastRun_eq]
  rfl

theorem Shows.containsVar_eq
    (hShows : machine.Shows solver)
    (hGraph : solver.graph.Coherent)
    (var : VarId) :
    machine.containsVar var =
      solver.graph.containsVar var := by
  rw [Bool.eq_iff_iff, Graph.containsVar_iff,
    hGraph.mem_vars, containsVar, List.any_eq_true]
  constructor
  · rintro ⟨entry, hEntry, hVar⟩
    rcases exists_of_forall₂_left hShows.factors hEntry with
      ⟨shown, hShown, _, hTable⟩
    refine ⟨shown.1, shown.2,
      hGraph.factor?_eq_some_iff.mpr hShown, ?_⟩
    rw [Table.vars, (Sheet.eq_of_table? hTable).1]
    simpa [Scope.contains] using hVar
  · rintro ⟨factor, table, hFactor, hVar⟩
    rcases exists_of_forall₂_right hShows.factors
        (hGraph.factor?_eq_some_iff.mp hFactor) with
      ⟨entry, hEntry, _, hTable⟩
    refine ⟨entry, hEntry, ?_⟩
    rw [Table.vars, (Sheet.eq_of_table? hTable).1] at hVar
    simpa [Scope.contains] using hVar

theorem Shows.invalidate
    (hShows : machine.Shows solver)
    (hGraph : solver.graph.Coherent)
    (factor : FactorId) :
    (machine.invalidate factor).Shows
      (solver.invalidate factor) where
  registry_eq := hShows.registry_eq
  config_eq := hShows.config_eq
  factors := hShows.factors
  toVar_eq := by
    rw [Solver.invalidate, hShows.toVar_eq]
    rfl
  toFactor_eq := by
    rw [Solver.invalidate, hShows.toFactor_eq]
    rfl
  beliefs_eq := by
    simp only [Solver.invalidate, Machine.invalidate,
      hShows.beliefs_eq, hShows.containsVar_eq hGraph]
  lastRun_eq := rfl

theorem Shows.insertFactor
    (hShows : machine.Shows solver)
    (hGraph : solver.graph.Coherent)
    {sheet : Sheet α}
    {table : Table α}
    (hTable : sheet.table? = some table)
    (factor : FactorId) :
    (machine.insertFactor factor sheet).result.Shows
      (solver.insertFactor factor table).result := by
  apply Shows.invalidate
  · exact { hShows with
      factors :=
        matches_putFactor hShows.factors hTable factor }
  · exact hGraph.setFactor factor table

theorem Shows.removeFactor
    (hShows : machine.Shows solver)
    (hGraph : solver.graph.Coherent)
    (factor : FactorId) :
    (machine.removeFactor factor).result.Shows
      (solver.removeFactor factor).result := by
  have hSome :
      (machine.factor? factor).isSome =
        (solver.graph.factor? factor).isSome :=
    isSome_lookup_of_matches hShows.factors factor
  unfold Machine.removeFactor Solver.removeFactor
  cases hSheet : machine.factor? factor with
  | none =>
      cases hTable : solver.graph.factor? factor with
      | none => exact hShows
      | some table => simp [hSheet, hTable] at hSome
  | some sheet =>
      cases hTable : solver.graph.factor? factor with
      | none => simp [hSheet, hTable] at hSome
      | some table =>
          apply Shows.invalidate
          · refine { hShows with factors := ?_ }
            simp only [Graph.removeFactor, hTable]
            exact matches_filter hShows.factors factor
          · exact hGraph.removeFactor factor

end Machine

end JointMax

------------------------------------------------------------
-- Runs
------------------------------------------------------------

namespace JointMax

variable {α : Type} [Scalar α]

namespace Solver

variable {registry : Registry} {solver : Solver α}

theorem Sweeps.frame
    {final : Solver α}
    {deltas : List α}
    (hSweeps : Sweeps solver deltas final)
    (hSolver : solver.Conforms registry) :
    final.registry = solver.registry ∧
      final.config = solver.config ∧
      final.graph = solver.graph := by
  induction hSweeps with
  | nil => exact ⟨rfl, rfl, rfl⟩
  | cons head _ ih =>
      rcases hSolver.of_sweep? head with
        ⟨hNext, hSwept, _⟩
      rcases ih hNext with ⟨hRegistry, hConfig, hGraph⟩
      exact ⟨hRegistry.trans hSwept.registry_eq,
        hConfig.trans hSwept.config_eq,
        hGraph.trans hSwept.graph_eq⟩

/- A run has its effect on messages and beliefs alone. -/
theorem Conforms.frame_of_optimiseWith?
    {budget : Nat}
    {tolerance : α}
    {run : Logged α (Nat × Solver α)}
    (hSolver : solver.Conforms registry)
    (hRun : solver.optimiseWith? budget tolerance = .ok run) :
    run.result.2.registry = solver.registry ∧
      run.result.2.config = solver.config ∧
      run.result.2.graph = solver.graph := by
  cases hEmpty : solver.graph.isEmpty with
  | true =>
      rw [optimiseWith?_of_isEmpty hEmpty] at hRun
      cases hRun
      exact ⟨rfl, rfl, rfl⟩
  | false =>
      rcases hSolver.optimiseWith? hEmpty budget
          tolerance with
        ⟨found, deltas, final, hFound, hRan, hResult⟩
      rw [hRun] at hFound
      cases hFound
      rw [hResult]
      exact hRan.sweeps.frame hSolver

end Solver

namespace Machine

variable {registry : Registry}
variable {machine : Machine α} {solver : Solver α}

/- A machine runs as the solver does that it shows. -/
theorem Shows.optimiseWith?
    (hShows : machine.Shows solver)
    (hSolver : solver.Conforms registry)
    (budget : Nat)
    (tolerance : α) :
    ∃ run,
      solver.optimiseWith? budget tolerance = .ok run ∧
        machine.optimiseWith? budget tolerance =
          some (.ok ⟨(run.result.1,
            machine.resume run.result.2), run.events⟩) ∧
        (machine.resume run.result.2).Shows run.result.2 ∧
        run.result.2.Conforms registry ∧
        (0 < run.result.1 → run.result.2.Current) := by
  rcases hSolver.exists_optimiseWith? budget tolerance with
    ⟨run, hRun, hConforms, hCurrent⟩
  rcases hSolver.frame_of_optimiseWith? hRun with
    ⟨hRegistry, hConfig, hGraph⟩
  refine ⟨run, hRun, ?_, ?_, hConforms, hCurrent⟩
  · rw [Machine.optimiseWith?,
      hShows.solver?_eq hSolver.coherent]
    simp only [hRun]
    rfl
  · exact
      { registry_eq := hRegistry.trans hShows.registry_eq
        config_eq := hConfig.trans hShows.config_eq
        factors := by
          rw [hGraph]
          exact hShows.factors
        toVar_eq := rfl
        toFactor_eq := rfl
        beliefs_eq := rfl
        lastRun_eq := rfl }

end Machine

end JointMax

------------------------------------------------------------
-- Answers
------------------------------------------------------------

namespace JointMax

namespace Machine

variable {α : Type} {build : Build} {machine : Machine α}

/- A list of values is accepted as the sheet that it fills. -/
theorem exists_of_setFactor?
    {factor : FactorId}
    {vars : List VarId}
    {values : Array α}
    {done : Logged α (Machine α)}
    (hSet :
      machine.setFactor? build factor vars values =
        some (.ok done)) :
    ∃ sheet : Sheet α,
      Increasing vars ∧
        Scope.ofVars? machine.registry vars =
          .ok sheet.scope ∧
        Sheet.ofValues? build sheet.scope values =
          some (.ok sheet) ∧
        done = machine.insertFactor factor sheet := by
  unfold setFactor? at hSet
  split at hSet
  · rename_i hVars
    cases hScope : Scope.ofVars? machine.registry vars with
    | error fault =>
        rw [hScope] at hSet
        cases hSet
    | ok scope =>
        rw [hScope] at hSet
        rcases Option.map_eq_some_iff.mp hSet with
          ⟨answer, hAnswer, hOk⟩
        rcases exists_of_map_eq_ok hOk with
          ⟨sheet, rfl, hDone⟩
        have hSame := (Sheet.exists_of_ofValues? hAnswer).1
        subst hSame
        exact ⟨sheet, hVars, rfl, hAnswer, hDone.symm⟩
  · cases hSet

theorem exists_of_setFactorSheet?
    {factor : FactorId}
    {sheet : Sheet α}
    {done : Logged α (Machine α)}
    (hSet :
      machine.setFactorSheet? factor sheet = .ok done) :
    (∀ axis ∈ sheet.scope.axes,
      machine.registry.Knows axis) ∧
      done = machine.insertFactor factor sheet := by
  rcases exists_of_map_eq_ok hSet with ⟨_, hCheck, hDone⟩
  exact ⟨Solver.knows_of_checkAxes hCheck, hDone.symm⟩

/- Whether a list is accepted or not, counting goes through. -/
theorem exists_setFactor?
    {factor : FactorId}
    {vars : List VarId}
    {values : Array α}
    (hCounted : Increasing vars →
      (machine.registry.sizesOf vars).prod < wordLimit) :
    ∃ answer,
      machine.setFactor? build factor vars values =
        some answer := by
  unfold setFactor?
  split
  · rename_i hVars
    cases hScope : Scope.ofVars? machine.registry vars with
    | error fault => exact ⟨_, rfl⟩
    | ok scope =>
        have hWords : scope.count < wordLimit := by
          rw [Scope.count_of_knows
              (Scope.knows_of_ofVars? hScope),
            Scope.vars_of_ofVars? hVars hScope]
          exact hCounted hVars
        dsimp only
        rw [Sheet.ofValues?_eq build hWords]
        exact ⟨_, rfl⟩
  · exact ⟨_, rfl⟩

end Machine

end JointMax

------------------------------------------------------------
-- One Request
------------------------------------------------------------

namespace JointMax

namespace Machine

variable {α : Type} [Scalar α] {build : Build}
variable {registry : Registry}
variable {machine next : Machine α} {solver : Solver α}
variable {request : Request α}

/- A counted sheet that fits is set as the table that it is. -/
theorem Shows.exists_inserted
    (hShows : machine.Shows solver)
    (hGraph : solver.graph.Coherent)
    {sheet : Sheet α}
    (hKnows : ∀ axis ∈ sheet.scope.axes,
      machine.registry.Knows axis)
    (hWords : sheet.scope.count < wordLimit)
    (factor : FactorId) :
    ∃ calls,
      (machine.insertFactor factor sheet).result.Shows
        (solver.afterAll calls) := by
  rcases Sheet.exists_table? hWords with ⟨table, hTable⟩
  have hCheck :
      Solver.checkAxes solver.registry table.scope.axes =
        .ok () := by
    apply Solver.checkAxes_of_knows
    rw [(Sheet.eq_of_table? hTable).1, hShows.registry_eq]
    exact hKnows
  refine ⟨[.setFactorTable factor table], ?_⟩
  simp only [Solver.afterAll, List.foldl_cons,
    List.foldl_nil, Solver.after, Solver.answer?,
    Solver.setFactorTable?, hCheck]
  exact hShows.insertFactor hGraph hTable factor

/- Some calls lead the solver where a request led. -/
theorem Shows.exists_of_answer?
    (hShows : machine.Shows solver)
    (hSolver : solver.Conforms registry)
    (hCounted : request.Counted registry)
    (hNext : machine.answer? build request =
      some (.ok next)) :
    ∃ calls, next.Shows (solver.afterAll calls) := by
  have hGraph := hSolver.coherent
  have hRegistry : machine.registry = registry := by
    rw [← hShows.registry_eq, hSolver.registry_eq]
  have hRun : ∀ budget tolerance,
      (machine.optimiseWith? budget tolerance).map
          (fun answer => answer.map fun run =>
            run.result.2) = some (.ok next) →
        ∃ calls, next.Shows (solver.afterAll calls) := by
    intro budget tolerance hMap
    rcases hShows.optimiseWith? hSolver budget tolerance
      with ⟨run, hRun, hSame, hResumed, _⟩
    rw [hSame] at hMap
    cases hMap
    refine ⟨[.optimiseWith budget tolerance], ?_⟩
    simp only [Solver.afterAll, List.foldl_cons,
      List.foldl_nil, Solver.after, Solver.answer?, hRun]
    exact hResumed
  cases request with
  | setFactor factor vars values =>
      rcases Option.map_eq_some_iff.mp hNext with
        ⟨answer, hAnswer, hOk⟩
      rcases exists_of_map_eq_ok hOk with ⟨done, rfl, rfl⟩
      rcases exists_of_setFactor? hAnswer with
        ⟨sheet, hVars, hScope, _, rfl⟩
      have hKnows := Scope.knows_of_ofVars? hScope
      apply hShows.exists_inserted hGraph hKnows
      rw [Scope.count_of_knows hKnows,
        Scope.vars_of_ofVars? hVars hScope, hRegistry]
      exact hCounted hVars
  | setFactorSheet factor sheet =>
      rcases exists_of_map_eq_ok
          (Option.some.inj hNext) with ⟨done, hDone, rfl⟩
      rcases exists_of_setFactorSheet? hDone with
        ⟨hKnows, rfl⟩
      apply hShows.exists_inserted hGraph hKnows
      exact hCounted (hRegistry ▸ hKnows)
  | removeFactor factor =>
      cases hNext
      exact ⟨[.removeFactor factor],
        hShows.removeFactor hGraph factor⟩
  | clear =>
      cases hNext
      refine ⟨[.clear], ?_⟩
      change machine.clear.Shows solver.clear
      rw [Machine.clear, Solver.clear, hShows.registry_eq,
        hShows.config_eq]
      exact shows_start _ _
  | setConfig config =>
      cases hNext
      exact ⟨[.setConfig config],
        { hShows with config_eq := rfl }⟩
  | optimise => exact hRun _ _ hNext
  | optimiseWith budget tolerance =>
      exact hRun budget tolerance hNext

/- Counted requests are answered, be it with a refusal. -/
theorem Shows.exists_answer?
    (build : Build)
    (hShows : machine.Shows solver)
    (hSolver : solver.Conforms registry)
    (hCounted : request.Counted registry) :
    ∃ answer, machine.answer? build request = some answer := by
  have hRun : ∀ budget tolerance, ∃ answer,
      (machine.optimiseWith? budget tolerance).map
          (fun answer => answer.map fun run =>
            run.result.2) = some answer := by
    intro budget tolerance
    rcases hShows.optimiseWith? hSolver budget tolerance
      with ⟨run, _, hSame, _⟩
    rw [hSame]
    exact ⟨_, rfl⟩
  cases request with
  | setFactor factor vars values =>
      have hProduct : Increasing vars →
          (machine.registry.sizesOf vars).prod <
            wordLimit := by
        rw [← hShows.registry_eq, hSolver.registry_eq]
        exact hCounted
      rcases exists_setFactor? hProduct with
        ⟨answer, hAnswer⟩
      rw [answer?, hAnswer]
      exact ⟨_, rfl⟩
  | setFactorSheet factor sheet => exact ⟨_, rfl⟩
  | removeFactor factor => exact ⟨_, rfl⟩
  | clear => exact ⟨_, rfl⟩
  | setConfig config => exact ⟨_, rfl⟩
  | optimise => exact hRun _ _
  | optimiseWith budget tolerance =>
      exact hRun budget tolerance

theorem Shows.after?
    (build : Build)
    (hShows : machine.Shows solver)
    (hSolver : solver.Conforms registry)
    (hCounted : request.Counted registry) :
    ∃ next calls,
      machine.after? build request = some next ∧
        next.Shows (solver.afterAll calls) := by
  rcases hShows.exists_answer? build hSolver hCounted with
    ⟨answer, hAnswer⟩
  rw [Machine.after?, hAnswer]
  cases answer with
  | error fault => exact ⟨machine, [], rfl, hShows⟩
  | ok next =>
      rcases hShows.exists_of_answer? hSolver hCounted
          hAnswer with
        ⟨calls, hNext⟩
      exact ⟨next, calls, rfl, hNext⟩

end Machine

end JointMax

------------------------------------------------------------
-- Every History
------------------------------------------------------------

namespace JointMax

namespace Machine

variable {α : Type} [Scalar α] {registry : Registry}

theorem Shows.afterAll?
    {machine : Machine α}
    {solver : Solver α}
    {requests : List (Request α)}
    (build : Build)
    (hShows : machine.Shows solver)
    (hSolver : solver.Reachable registry)
    (hCounted : ∀ request ∈ requests,
      request.Counted registry) :
    ∃ last final,
      machine.afterAll? build requests = some last ∧
        last.Shows final ∧ final.Reachable registry := by
  induction requests generalizing machine solver with
  | nil => exact ⟨machine, solver, rfl, hShows, hSolver⟩
  | cons request requests ih =>
      rw [List.forall_mem_cons] at hCounted
      rcases hShows.after? build hSolver.conforms
          hCounted.1 with
        ⟨next, calls, hNext, hNextShows⟩
      rcases ih hNextShows (hSolver.afterAll calls)
          hCounted.2 with
        ⟨last, final, hLast, hLastShows, hFinal⟩
      refine ⟨last, final, ?_, hLastShows, hFinal⟩
      rw [Machine.afterAll?, List.foldlM_cons, hNext]
      exact hLast

/-
  What a caller can rely on. The machine is a solver that
  conforms to its registry and names a value of each of its
  variables, in increasing order and within the variable's
  range. Its runs succeed and leave it current if a sweep was
  performed.
-/
structure Sound
    (registry : Registry)
    (machine : Machine α) : Prop where
  solver :
    ∃ solver values,
      machine.solver? = some solver ∧
        solver.Conforms registry ∧
        solver.values? = .ok values ∧
        values.map Prod.fst = solver.graph.vars ∧
        Increasing (values.map Prod.fst) ∧
        ∀ value ∈ values, ∃ axis,
          registry.Knows axis ∧ axis.var = value.1 ∧
            value.2 < axis.size
  ranWith : ∀ budget tolerance, ∃ run,
    machine.optimiseWith? budget tolerance =
        some (.ok run) ∧
      (0 < run.result.1 → ∃ swept,
        run.result.2.solver? = some swept ∧ swept.Current)
  ran : ∃ run,
    machine.optimise? = some (.ok run) ∧
      (0 < run.result.1 → ∃ swept,
        run.result.2.solver? = some swept ∧ swept.Current)

theorem Shows.sound
    {machine : Machine α}
    {solver : Solver α}
    (hShows : machine.Shows solver)
    (hSolver : solver.Reachable registry) :
    machine.Sound registry := by
  rcases hSolver with ⟨config, calls, rfl⟩
  rcases Solver.sound_afterAll registry config calls with
    ⟨hConforms, _, _, values, hValues, hVars, hOrder,
      hWithin⟩
  have hRuns : ∀ budget tolerance, ∃ run,
      machine.optimiseWith? budget tolerance =
          some (.ok run) ∧
        (0 < run.result.1 → ∃ swept,
          run.result.2.solver? = some swept ∧
            swept.Current) := by
    intro budget tolerance
    rcases hShows.optimiseWith? hConforms budget tolerance
      with ⟨run, _, hRun, hResumed, hKept, hCurrent⟩
    refine ⟨_, hRun, ?_⟩
    intro hSwept
    exact ⟨run.result.2, hResumed.solver?_eq hKept.coherent,
      hCurrent hSwept⟩
  exact ⟨⟨_, values, hShows.solver?_eq hConforms.coherent,
    hConforms, hValues, hVars, hOrder, hWithin⟩, hRuns,
    hRuns _ _⟩

/- No request breaks off, and the last machine is sound. -/
def SoundAfter
    (build : Build)
    (registry : Registry)
    (config : Config α)
    (requests : List (Request α)) : Prop :=
  ∃ machine,
    (start registry config).afterAll? build requests =
        some machine ∧
      machine.Sound registry

/- Factors are set, swept over, replaced and refused. -/
def errands : List (Request Rat) :=
  [.setFactor 0 [1, 2] #[1, -5, -5, 0], .optimise,
    .setFactor 0 [2] #[0, 1], .setFactor 1 [3] #[1],
    .removeFactor 5, .optimiseWith 3 0]

theorem counted_errands :
    ∀ request ∈ errands,
      request.Counted Solver.twoCoins := by
  simp only [errands, List.forall_mem_cons, Request.Counted,
    List.not_mem_nil, false_imp_iff, implies_true, and_true,
    true_and]
  decide +kernel

/-
  A run that breaks off was to perform a sweep and has a
  factor that lacks values. Reading all of its values in
  order, the sweep comes to one that is not there.
-/
theorem exists_unread_of_optimiseWith?
    {machine : Machine α}
    {budget : Nat}
    {tolerance : α}
    (hBroken :
      machine.optimiseWith? budget tolerance = none) :
    0 < budget ∧
      ∃ entry ∈ machine.factors, ∃ first positions,
        Cursor.start? .wrapping entry.2.scope = some first ∧
          Cursor.Walks .wrapping first positions ∧
          ∃ position ∈ positions,
            entry.2.values[position.index]? = none := by
  unfold optimiseWith? at hBroken
  split at hBroken
  · cases hBroken
  · rename_i hNone
    split at hBroken
    · cases hBroken
    · rename_i hBudget
      rcases exists_short_of_no_solver hNone with
        ⟨entry, hEntry, hShort⟩
      exact ⟨Nat.pos_of_ne_zero hBudget, entry, hEntry,
        Sheet.exists_unread hShort⟩

/- Four variables with as many joint values as words. -/
def fourWheels : Registry :=
  ⟨(∅ : Std.ExtTreeMap VarId { n : Nat // 0 < n })
    |>.insert 1 ⟨65536, Scope.quarter_pos⟩
    |>.insert 2 ⟨65536, Scope.quarter_pos⟩
    |>.insert 3 ⟨65536, Scope.quarter_pos⟩
    |>.insert 4 ⟨65536, Scope.quarter_pos⟩⟩

end Machine

end JointMax
