import Mathlib
import JointMax.Proofs.Atomicity
import JointMax.Proofs.GuardedScopes
import JointMax.Proofs.Machines

/-
  Acceptance of factors. A factor is given as a list of
  variables with values or as a sheet, and each form has its
  own checks. Each of them accepts just the factors that fit
  the registry and tells the first reason against another
  one. They accept the same factors and leave the same state.
  Written as programs that change a machine and its log piece
  by piece, both check everything before the first change.

  The number of values is compared with a product in words. A
  list of variables with more joint values than words may be
  accepted with too few values.

  Main declarations:
    * `Machine.setFactorInPlace` and
      `Machine.setFactorSheetInPlace`
    * `Machine.Acceptance`
    * `Machine.acceptance_of_afterAll?`
-/

------------------------------------------------------------
-- Listed Variables
------------------------------------------------------------

namespace JointMax

namespace Scope

variable {registry : Registry} {scope : Scope}
variable {vars before later : List VarId} {stranger : VarId}

/- Registered variables in order are those of a scope. -/
theorem exists_ofVars?_iff
    (hVars : Increasing vars) :
    (∃ scope, ofVars? registry vars = .ok scope) ↔
      ∀ var ∈ vars, registry.isRegistered var = true := by
  constructor
  · rintro ⟨scope, hScope⟩ var hVar
    rw [← vars_of_ofVars? hVars hScope] at hVar
    rcases mem_vars_iff.mp hVar with ⟨axis, hAxis, rfl⟩
    exact Registry.isRegistered_of_knows
      (knows_of_ofVars? hScope axis hAxis)
  · intro hRegistered
    rcases ofVars?_cases registry vars with
      ⟨scope, hScope, _⟩ |
        ⟨before, stranger, later, hSplit, hStranger, _⟩
    · exact ⟨scope, hScope⟩
    · have hMember : stranger ∈ vars := by
        rw [← mem_sortVars, hSplit]
        simp
      rw [hRegistered stranger hMember] at hStranger
      cases hStranger

/- Their scope is the one that has the registered sizes. -/
theorem ofParts?_of_ofVars?
    (hVars : Increasing vars)
    (hScope : ofVars? registry vars = .ok scope) :
    ofParts? vars (registry.sizesOf vars) = .ok scope := by
  rw [← vars_of_ofVars? hVars hScope,
    ← sizes_of_knows (knows_of_ofVars? hScope)]
  exact ofParts?_vars scope

theorem count_of_ofVars?
    (hVars : Increasing vars)
    (hScope : ofVars? registry vars = .ok scope) :
    scope.count = (registry.sizesOf vars).prod := by
  rw [count_of_knows (knows_of_ofVars? hScope),
    vars_of_ofVars? hVars hScope]

/- The first stranger of an increasing list is named. -/
theorem ofVars?_of_stranger
    (hVars : Increasing (before ++ stranger :: later))
    (hBefore : ∀ known ∈ before,
      registry.isRegistered known = true)
    (hStranger : registry.isRegistered stranger = false) :
    ofVars? registry (before ++ stranger :: later) =
      .error (.unknownVariable stranger) := by
  apply ofVars?_eq_error_iff.mpr
  refine ⟨stranger, rfl, by simp, hStranger, ?_⟩
  intro other hOther hUnknown
  rcases List.mem_append.mp hOther with hEarly | hLate
  · rw [hBefore other hEarly] at hUnknown
    cases hUnknown
  · rcases List.mem_cons.mp hLate with rfl | hLater
    · exact UInt32.le_refl _
    · have hTail := (List.pairwise_append.mp hVars).2.1
      exact UInt32.le_of_lt
        ((List.pairwise_cons.mp hTail).1 other hLater)

end Scope

namespace Sheet

theorem ofValues?_self
    {α : Type}
    {sheet : Sheet α}
    (build : Build)
    (hWords : sheet.scope.count < wordLimit) :
    ofValues? build sheet.scope sheet.values =
      some (.ok sheet) := by
  have hSize : sheet.values.size = sheet.scope.count := by
    rw [sheet.size_eq, Nat.mod_eq_of_lt hWords]
  rw [ofValues?_eq build hWords, dif_pos hSize]

end Sheet

end JointMax

------------------------------------------------------------
-- The Checks of Both Forms
------------------------------------------------------------

namespace JointMax

namespace Solver

/- The axes before the first misfit do not matter. -/
theorem checkAxes_append
    {registry : Registry}
    {before later : List Axis}
    (hBefore : ∀ axis ∈ before, registry.Knows axis) :
    checkAxes registry (before ++ later) =
      checkAxes registry later := by
  induction before with
  | nil => rfl
  | cons axis before ih =>
      rw [List.cons_append, checkAxes,
        hBefore axis (by simp)]
      dsimp only
      rw [if_pos rfl]
      exact ih fun other hOther =>
        hBefore other (by simp [hOther])

end Solver

namespace Machine

variable {α : Type} {build : Build} {machine : Machine α}
variable {factor : FactorId} {vars : List VarId}
variable {values : Array α} {sheet : Sheet α}

theorem setFactorSheet?_of_knows
    (hKnows : ∀ axis ∈ sheet.scope.axes,
      machine.registry.Knows axis) :
    machine.setFactorSheet? factor sheet =
      .ok (machine.insertFactor factor sheet) := by
  rw [setFactorSheet?, Solver.checkAxes_of_knows hKnows]
  rfl

theorem exists_setFactorSheet?_iff :
    (∃ done, machine.setFactorSheet? factor sheet =
        .ok done) ↔
      ∀ axis ∈ sheet.scope.axes,
        machine.registry.Knows axis := by
  constructor
  · rintro ⟨done, hDone⟩
    exact (exists_of_setFactorSheet? hDone).1
  · intro hKnows
    exact ⟨_, setFactorSheet?_of_knows hKnows⟩

/- What becomes of a list depends on how it is counted. -/
theorem setFactor?_of_scope
    {scope : Scope}
    (hVars : Increasing vars)
    (hScope :
      Scope.ofVars? machine.registry vars = .ok scope) :
    machine.setFactor? build factor vars values =
      (Sheet.ofValues? build scope values).map fun answer =>
        answer.map (machine.insertFactor factor) := by
  rw [setFactor?, if_pos hVars, hScope]

theorem setFactor?_of_unsorted
    (hVars : ¬ Increasing vars) :
    machine.setFactor? build factor vars values =
      some (.error (.badScope (.notIncreasing vars))) := by
  rw [setFactor?, if_neg hVars]

theorem setFactor?_of_stranger
    {before later : List VarId}
    {stranger : VarId}
    (hVars : Increasing (before ++ stranger :: later))
    (hBefore : ∀ known ∈ before,
      machine.registry.isRegistered known = true)
    (hStranger :
      machine.registry.isRegistered stranger = false) :
    machine.setFactor? build factor
        (before ++ stranger :: later) values =
      some (.error (.unknownVariable stranger)) := by
  rw [setFactor?, if_pos hVars,
    Scope.ofVars?_of_stranger hVars hBefore hStranger]

theorem setFactor?_of_miscounted
    (hVars : Increasing vars)
    (hRegistered : ∀ var ∈ vars,
      machine.registry.isRegistered var = true)
    (hWords :
      (machine.registry.sizesOf vars).prod < wordLimit)
    (hCount :
      values.size ≠ (machine.registry.sizesOf vars).prod) :
    machine.setFactor? build factor vars values =
      some (.error (.valueCount
        (machine.registry.sizesOf vars).prod
        values.size)) := by
  rcases (Scope.exists_ofVars?_iff hVars).mpr hRegistered
    with ⟨scope, hScope⟩
  rw [← Scope.count_of_ofVars? hVars hScope]
    at hWords hCount ⊢
  rw [setFactor?_of_scope hVars hScope,
    Sheet.ofValues?_eq build hWords, dif_neg hCount]
  rfl

/-
  Every list fits, or fails one of the three checks of which
  the earlier ones succeed.
-/
theorem exists_setFactor?_iff
    (hWords :
      (machine.registry.sizesOf vars).prod < wordLimit) :
    (∃ done,
      machine.setFactor? build factor vars values =
        some (.ok done)) ↔
      Increasing vars ∧
        (∀ var ∈ vars,
          machine.registry.isRegistered var = true) ∧
        values.size =
          (machine.registry.sizesOf vars).prod := by
  constructor
  · rintro ⟨done, hDone⟩
    rcases exists_of_setFactor? hDone with
      ⟨sheet, hVars, hScope, hSheet, _⟩
    have hCount := Scope.count_of_ofVars? hVars hScope
    refine ⟨hVars, (Scope.exists_ofVars?_iff hVars).mp
      ⟨_, hScope⟩, ?_⟩
    rw [← (Sheet.exists_of_ofValues? hSheet).2,
      sheet.size_eq, hCount, Nat.mod_eq_of_lt hWords]
  · rintro ⟨hVars, hRegistered, hSize⟩
    rcases (Scope.exists_ofVars?_iff hVars).mpr hRegistered
      with ⟨scope, hScope⟩
    rw [← Scope.count_of_ofVars? hVars hScope]
      at hWords hSize
    rw [setFactor?_of_scope hVars hScope,
      Sheet.ofValues?_eq build hWords, dif_pos hSize]
    exact ⟨_, rfl⟩

/- An accepted list is accepted as the sheet that it fills. -/
theorem exists_sheet_of_setFactor?
    {done : Logged α (Machine α)}
    (hDone :
      machine.setFactor? build factor vars values =
        some (.ok done)) :
    ∃ scope sheet,
      Scope.ofParts? vars (machine.registry.sizesOf vars) =
          .ok scope ∧
        Sheet.ofValues? build scope values =
          some (.ok sheet) ∧
        machine.setFactorSheet? factor sheet = .ok done := by
  rcases exists_of_setFactor? hDone with
    ⟨sheet, hVars, hScope, hSheet, rfl⟩
  exact ⟨sheet.scope, sheet,
    Scope.ofParts?_of_ofVars? hVars hScope, hSheet,
    setFactorSheet?_of_knows
      (Scope.knows_of_ofVars? hScope)⟩

/- What both forms accept, they accept as the same factor. -/
theorem setFactor?_of_sheet
    (hKnows : ∀ axis ∈ sheet.scope.axes,
      machine.registry.Knows axis)
    (hWords : sheet.scope.count < wordLimit) :
    machine.setFactor? build factor sheet.vars sheet.values =
      some (machine.setFactorSheet? factor sheet) := by
  have hScope :
      Scope.ofVars? machine.registry sheet.vars =
        .ok sheet.scope :=
    Scope.ofVars?_eq_ok_iff.mpr ⟨fun _ => Iff.rfl, hKnows⟩
  have hVars : Increasing sheet.vars :=
    sheet.scope.increasing_vars
  rw [setFactorSheet?_of_knows hKnows,
    setFactor?_of_scope hVars hScope,
    Sheet.ofValues?_self build hWords]
  rfl

/- The first axis that does not fit is named. -/
theorem setFactorSheet?_of_stranger
    {before later : List Axis}
    {axis : Axis}
    (hAxes : sheet.scope.axes = before ++ axis :: later)
    (hBefore : ∀ known ∈ before,
      machine.registry.Knows known)
    (hStranger :
      machine.registry.isRegistered axis.var = false) :
    machine.setFactorSheet? factor sheet =
      .error (.unknownVariable axis.var) := by
  have hSize :
      machine.registry.size? axis.var =
        .error (.unknownVariable axis.var) :=
    Registry.size?_eq_error_iff.mpr ⟨rfl, hStranger⟩
  rw [setFactorSheet?, hAxes,
    Solver.checkAxes_append hBefore, Solver.checkAxes, hSize]
  rfl

theorem setFactorSheet?_of_conflict
    {before later : List Axis}
    {axis : Axis}
    {size : { n : Nat // 0 < n }}
    (hAxes : sheet.scope.axes = before ++ axis :: later)
    (hBefore : ∀ known ∈ before,
      machine.registry.Knows known)
    (hSize : machine.registry.size? axis.var = .ok size)
    (hConflict : size.val ≠ axis.size) :
    machine.setFactorSheet? factor sheet =
      .error (.sizeConflict axis.var size.val axis.size) := by
  rw [setFactorSheet?, hAxes,
    Solver.checkAxes_append hBefore, Solver.checkAxes, hSize]
  dsimp only
  rw [if_neg hConflict]
  rfl

end Machine

end JointMax

------------------------------------------------------------
-- Changes in Place
------------------------------------------------------------

namespace JointMax

namespace Machine

open InWords

variable {α : Type}

/- A machine and what has been logged so far. -/
abbrev Session (α : Type) := Logged α (Machine α)

def report (event : Event α) : InWords (Session α) Unit :=
  change fun here =>
    { here with events := here.events ++ [event] }

def alter (f : Machine α → Machine α) :
    InWords (Session α) Unit :=
  change fun here => { here with result := f here.result }

def invalidateInPlace (factor : FactorId) :
    InWords (Session α) Unit := do
  alter fun machine =>
    { machine with
      toVar :=
        machine.toVar.filter fun edge _ =>
          edge.factor != factor }
  alter fun machine =>
    { machine with
      toFactor :=
        machine.toFactor.filter fun edge _ =>
          edge.factor != factor }
  alter fun machine =>
    { machine with
      beliefs :=
        machine.beliefs.filter fun var _ =>
          machine.containsVar var }
  alter fun machine => { machine with lastRun := none }

def insertFactorInPlace
    (factor : FactorId)
    (sheet : Sheet α) : InWords (Session α) Unit := do
  report (.factorSet factor sheet.vars)
  alter fun machine =>
    { machine with
      factors :=
        Graph.putFactor factor sheet machine.factors }
  invalidateInPlace factor

def setFactorInPlace
    (build : Build)
    (factor : FactorId)
    (vars : List VarId)
    (values : Array α) : InWords (Session α) Unit := do
  if Increasing vars then
    let here ← get
    let scope ← Scope.ofVars? here.result.registry vars
    let sheet ← counted (Sheet.ofValues? build scope values)
    insertFactorInPlace factor sheet
  else
    throw (.badScope (.notIncreasing vars))

def checkAxesInPlace : List Axis → InWords (Session α) Unit
  | [] => pure ()
  | axis :: axes => do
      let here ← get
      let size ← here.result.registry.size? axis.var
      if size.val = axis.size then
        checkAxesInPlace axes
      else
        throw (.sizeConflict axis.var size.val axis.size)

def setFactorSheetInPlace
    (factor : FactorId)
    (sheet : Sheet α) : InWords (Session α) Unit := do
  checkAxesInPlace sheet.scope.axes
  insertFactorInPlace factor sheet

/- The new machine, with its events after the earlier ones. -/
def continued (here done : Session α) : Session α :=
  ⟨done.result, here.events ++ done.events⟩

variable {factor : FactorId} {sheet : Sheet α}

theorem outcome_insertFactorInPlace
    (here : Session α) :
    outcome (insertFactorInPlace factor sheet) here =
      some (.ok (), continued here
        (here.result.insertFactor factor sheet)) :=
  rfl

theorem outcome_setFactorInPlace
    (build : Build)
    (factor : FactorId)
    (vars : List VarId)
    (values : Array α)
    (here : Session α) :
    outcome (setFactorInPlace build factor vars values)
        here =
      (here.result.setFactor? build factor vars values).map
        fun answer =>
          InPlace.concluded here
            (answer.map (continued here)) := by
  unfold setFactorInPlace setFactor?
  split
  · rw [outcome_get_bind, outcome_lift_bind]
    cases Scope.ofVars? here.result.registry vars with
    | error fault => rfl
    | ok scope =>
        dsimp only
        rw [outcome_counted_bind]
        rcases Sheet.ofValues? build scope values with
          _ | _ | sheet
        · rfl
        · rfl
        · exact outcome_insertFactorInPlace here
  · rfl

/- The checks in place read the registry and change nothing. -/
theorem outcome_checkAxesInPlace
    (axes : List Axis)
    (here : Session α) :
    outcome (checkAxesInPlace axes) here =
      some (Solver.checkAxes here.result.registry axes,
        here) := by
  induction axes with
  | nil => rfl
  | cons axis axes ih =>
      rw [checkAxesInPlace, Solver.checkAxes,
        outcome_get_bind, outcome_lift_bind]
      cases here.result.registry.size? axis.var with
      | error fault => rfl
      | ok size =>
          dsimp only
          split
          · exact ih
          · rfl

theorem outcome_setFactorSheetInPlace
    (factor : FactorId)
    (sheet : Sheet α)
    (here : Session α) :
    outcome (setFactorSheetInPlace factor sheet) here =
      some (InPlace.concluded here
        ((here.result.setFactorSheet? factor sheet).map
          (continued here))) := by
  rw [setFactorSheetInPlace, outcome_bind,
    outcome_checkAxesInPlace, setFactorSheet?]
  cases Solver.checkAxes here.result.registry
      sheet.scope.axes with
  | ok _ => exact outcome_insertFactorInPlace here
  | error fault => rfl

end Machine

end JointMax

------------------------------------------------------------
-- Every Machine
------------------------------------------------------------

namespace JointMax

namespace Machine

open InWords

variable {α : Type}

/-
  Which factors a machine accepts, and what becomes of it. An
  increasing list of registered variables is looked at as
  long as its joint values are counted by a word.
-/
structure Acceptance
    (build : Build)
    (machine : Machine α) : Prop where
  listed :
    ∀ factor vars (values : Array α),
      (machine.registry.sizesOf vars).prod < wordLimit →
        ((∃ done,
          machine.setFactor? build factor vars values =
            some (.ok done)) ↔
          Increasing vars ∧
            (∀ var ∈ vars,
              machine.registry.isRegistered var = true) ∧
            values.size =
              (machine.registry.sizesOf vars).prod)
  unsorted :
    ∀ factor vars (values : Array α),
      ¬ Increasing vars →
        machine.setFactor? build factor vars values =
          some (.error (.badScope (.notIncreasing vars)))
  stranger :
    ∀ factor before stranger later (values : Array α),
      Increasing (before ++ stranger :: later) →
      (∀ known ∈ before,
        machine.registry.isRegistered known = true) →
      machine.registry.isRegistered stranger = false →
        machine.setFactor? build factor
            (before ++ stranger :: later) values =
          some (.error (.unknownVariable stranger))
  miscounted :
    ∀ factor vars (values : Array α),
      Increasing vars →
      (∀ var ∈ vars,
        machine.registry.isRegistered var = true) →
      (machine.registry.sizesOf vars).prod < wordLimit →
      values.size ≠ (machine.registry.sizesOf vars).prod →
        machine.setFactor? build factor vars values =
          some (.error (.valueCount
            (machine.registry.sizesOf vars).prod
            values.size))
  tabled :
    ∀ factor (sheet : Sheet α),
      (∃ done,
        machine.setFactorSheet? factor sheet = .ok done) ↔
        ∀ axis ∈ sheet.scope.axes,
          machine.registry.Knows axis
  tabledStranger :
    ∀ factor (sheet : Sheet α) before axis later,
      sheet.scope.axes = before ++ axis :: later →
      (∀ known ∈ before, machine.registry.Knows known) →
      machine.registry.isRegistered axis.var = false →
        machine.setFactorSheet? factor sheet =
          .error (.unknownVariable axis.var)
  tabledConflict :
    ∀ factor (sheet : Sheet α) before axis later size,
      sheet.scope.axes = before ++ axis :: later →
      (∀ known ∈ before, machine.registry.Knows known) →
      machine.registry.size? axis.var = .ok size →
      size.val ≠ axis.size →
        machine.setFactorSheet? factor sheet =
          .error
            (.sizeConflict axis.var size.val axis.size)
  same :
    ∀ factor vars (values : Array α) done,
      machine.setFactor? build factor vars values =
          some (.ok done) →
        ∃ scope sheet,
          Scope.ofParts? vars
              (machine.registry.sizesOf vars) = .ok scope ∧
            Sheet.ofValues? build scope values =
              some (.ok sheet) ∧
            machine.setFactorSheet? factor sheet = .ok done
  agreed :
    ∀ factor (sheet : Sheet α),
      (∀ axis ∈ sheet.scope.axes,
        machine.registry.Knows axis) →
      sheet.scope.count < wordLimit →
        machine.setFactor? build factor sheet.vars
            sheet.values =
          some (machine.setFactorSheet? factor sheet)
  listedInPlace :
    ∀ factor vars (values : Array α) events,
      outcome (setFactorInPlace build factor vars values)
          ⟨machine, events⟩ =
        (machine.setFactor? build factor vars values).map
          fun answer =>
            InPlace.concluded ⟨machine, events⟩
              (answer.map (continued ⟨machine, events⟩))
  tabledInPlace :
    ∀ factor (sheet : Sheet α) events,
      outcome (setFactorSheetInPlace factor sheet)
          ⟨machine, events⟩ =
        some (InPlace.concluded ⟨machine, events⟩
          ((machine.setFactorSheet? factor sheet).map
            (continued ⟨machine, events⟩)))

theorem acceptance (build : Build) (machine : Machine α) :
    machine.Acceptance build where
  listed _ _ _ := exists_setFactor?_iff
  unsorted _ _ _ := setFactor?_of_unsorted
  stranger _ _ _ _ _ := setFactor?_of_stranger
  miscounted _ _ _ := setFactor?_of_miscounted
  tabled _ _ := exists_setFactorSheet?_iff
  tabledStranger _ _ _ _ _ := setFactorSheet?_of_stranger
  tabledConflict _ _ _ _ _ _ := setFactorSheet?_of_conflict
  same _ _ _ _ := exists_sheet_of_setFactor?
  agreed _ _ := setFactor?_of_sheet
  listedInPlace factor vars values events :=
    outcome_setFactorInPlace build factor vars values
      ⟨machine, events⟩
  tabledInPlace factor sheet events :=
    outcome_setFactorSheetInPlace factor sheet
      ⟨machine, events⟩

variable [Scalar α] {build : Build} {registry : Registry}

/- No request changes the registry. -/
theorem registry_of_answer?
    {machine next : Machine α}
    {request : Request α}
    (hNext : machine.answer? build request =
      some (.ok next)) :
    next.registry = machine.registry := by
  have hRun : ∀ budget tolerance,
      (machine.optimiseWith? budget tolerance).map
          (fun answer => answer.map fun run =>
            run.result.2) = some (.ok next) →
        next.registry = machine.registry := by
    intro budget tolerance hMap
    rcases Option.map_eq_some_iff.mp hMap with
      ⟨answer, hAnswer, hOk⟩
    rcases exists_of_map_eq_ok hOk with ⟨run, rfl, rfl⟩
    unfold optimiseWith? at hAnswer
    split at hAnswer
    · rcases exists_of_map_eq_ok
          (Option.some.inj hAnswer) with ⟨_, _, rfl⟩
      rfl
    · split at hAnswer
      · cases hAnswer
        rfl
      · cases hAnswer
  cases request with
  | setFactor factor vars values =>
      rcases Option.map_eq_some_iff.mp hNext with
        ⟨answer, hAnswer, hOk⟩
      rcases exists_of_map_eq_ok hOk with ⟨done, rfl, rfl⟩
      rcases exists_of_setFactor? hAnswer with
        ⟨_, _, _, _, rfl⟩
      rfl
  | setFactorSheet factor sheet =>
      rcases exists_of_map_eq_ok
          (Option.some.inj hNext) with ⟨done, hDone, rfl⟩
      rw [(exists_of_setFactorSheet? hDone).2]
      rfl
  | removeFactor factor =>
      cases hNext
      unfold removeFactor
      split <;> rfl
  | clear =>
      cases hNext
      rfl
  | setConfig config =>
      cases hNext
      rfl
  | optimise => exact hRun _ _ hNext
  | optimiseWith budget tolerance =>
      exact hRun budget tolerance hNext

theorem registry_of_afterAll?
    {machine last : Machine α}
    {requests : List (Request α)}
    (hLast :
      machine.afterAll? build requests = some last) :
    last.registry = machine.registry := by
  induction requests generalizing machine with
  | nil =>
      cases hLast
      rfl
  | cons request requests ih =>
      rw [afterAll?, List.foldlM_cons,
        Option.bind_eq_bind] at hLast
      rcases Option.bind_eq_some_iff.mp hLast with
        ⟨next, hNext, hLater⟩
      rw [after?, Option.bind_eq_bind] at hNext
      rcases Option.bind_eq_some_iff.mp hNext with
        ⟨answer, hAnswer, hKept⟩
      rw [ih hLater]
      cases answer with
      | error fault =>
          cases hKept
          rfl
      | ok found =>
          cases hKept
          exact registry_of_answer? hAnswer

end Machine

end JointMax
