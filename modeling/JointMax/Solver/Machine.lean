import JointMax.Solver.Run
import JointMax.Table.Sheet

/-
  Solvers whose factors are counted in machine words. Where
  the number of joint values wraps around, a factor with too
  few values is accepted. The sweeps are those of a solver as
  long as every factor is a table. The first sweep over a
  factor that is not reads past its values and breaks off.

  Key definitions include:
    * `Machine` and `Machine.solver?`
    * `Machine.setFactor?` and `Machine.setFactorSheet?`
    * `Machine.removeFactor` and `Machine.clear`
    * `Machine.optimiseWith?` and `Machine.optimise?`
-/

------------------------------------------------------------
-- State
------------------------------------------------------------

namespace JointMax

/-
  The state of a solver, with sheets for factors. Which
  variables have which factors is read off the sheets.
-/
structure Machine (α : Type) where
  registry : Registry
  config : Config α
  factors : List (FactorId × Sheet α)
  toVar : Messages α
  toFactor : Messages α
  beliefs : Std.ExtTreeMap VarId (Table α)
  lastRun : Option (RunStats α)

namespace Machine

variable {α : Type}

def start (registry : Registry) (config : Config α) :
    Machine α where
  registry := registry
  config := config
  factors := []
  toVar := ∅
  toFactor := ∅
  beliefs := ∅
  lastRun := none

def setConfig (machine : Machine α) (config : Config α) :
    Machine α :=
  { machine with config := config }

/- The sheet under an id. -/
def factor? (machine : Machine α) (factor : FactorId) :
    Option (Sheet α) :=
  machine.factors.lookup factor

def containsVar (machine : Machine α) (var : VarId) : Bool :=
  machine.factors.any fun entry =>
    entry.2.scope.contains var

/- The solver that a machine is, if its sheets are tables. -/
def solver? (machine : Machine α) : Option (Solver α) := do
  let tables ← machine.factors.mapM fun entry => do
    let table ← entry.2.table?
    return (entry.1, table)
  return {
    registry := machine.registry
    config := machine.config
    graph := Graph.ofFactors tables
    toVar := machine.toVar
    toFactor := machine.toFactor
    beliefs := machine.beliefs
    lastRun := machine.lastRun }

end Machine

end JointMax

------------------------------------------------------------
-- Changes
------------------------------------------------------------

namespace JointMax

namespace Machine

variable {α : Type}

/-
  Drop the messages on the edges of a factor, the beliefs of
  variables without a factor, and the last run.
-/
def invalidate (machine : Machine α) (factor : FactorId) :
    Machine α :=
  { machine with
    toVar :=
      machine.toVar.filter fun edge _ =>
        edge.factor != factor
    toFactor :=
      machine.toFactor.filter fun edge _ =>
        edge.factor != factor
    beliefs :=
      machine.beliefs.filter fun var _ =>
        machine.containsVar var
    lastRun := none }

/- Insert or replace a factor that fits the registry. -/
def insertFactor
    (machine : Machine α)
    (factor : FactorId)
    (sheet : Sheet α) : Logged α (Machine α) where
  result :=
    invalidate
      { machine with
        factors :=
          Graph.putFactor factor sheet machine.factors }
      factor
  events := [.factorSet factor sheet.vars]

/-
  Insert or replace a factor, given by an increasing list of
  registered variables and as many values as a word counts.
-/
def setFactor?
    (build : Build)
    (machine : Machine α)
    (factor : FactorId)
    (vars : List VarId)
    (values : Array α) :
    Option (Except Fault (Logged α (Machine α))) :=
  if Increasing vars then
    match Scope.ofVars? machine.registry vars with
    | .ok scope =>
        (Sheet.ofValues? build scope values).map fun answer =>
          answer.map (machine.insertFactor factor)
    | .error fault => some (.error fault)
  else
    some (.error (.badScope (.notIncreasing vars)))

/- Insert or replace a factor, given as a sheet. -/
def setFactorSheet?
    (machine : Machine α)
    (factor : FactorId)
    (sheet : Sheet α) :
    Except Fault (Logged α (Machine α)) :=
  (Solver.checkAxes machine.registry sheet.scope.axes).map
    fun _ => machine.insertFactor factor sheet

/- Remove a factor. Nothing happens if it is not there. -/
def removeFactor
    (machine : Machine α)
    (factor : FactorId) : Logged α (Machine α) :=
  match machine.factor? factor with
  | some _ =>
      { result :=
          invalidate
            { machine with
              factors :=
                machine.factors.filter fun entry =>
                  entry.1 != factor }
            factor
        events := [.factorRemoved factor] }
  | none => ⟨machine, []⟩

/- Remove all factors, messages and beliefs. -/
def clear (machine : Machine α) : Machine α :=
  start machine.registry machine.config

end Machine

end JointMax

------------------------------------------------------------
-- Runs
------------------------------------------------------------

namespace JointMax

namespace Scope

/- The same variables, each with a single value. -/
def flat (scope : Scope) : Scope where
  axes :=
    scope.axes.map fun axis => ⟨axis.var, 1, Nat.one_pos⟩
  sorted := List.pairwise_map.mpr scope.sorted

end Scope

namespace Machine

variable {α : Type} [Scalar α]

/- What a run has made of the solver, taken over. -/
def resume (machine : Machine α) (solver : Solver α) :
    Machine α :=
  { machine with
    toVar := solver.toVar
    toFactor := solver.toFactor
    beliefs := solver.beliefs
    lastRun := solver.lastRun }

/- Which variables the factors have, whatever their values. -/
def outline (machine : Machine α) : Graph Unit :=
  Graph.ofFactors (machine.factors.map fun entry =>
    (entry.1, Table.filled entry.2.scope.flat ()))

/- A run without a sweep. No value of a factor is read. -/
def idle (machine : Machine α) :
    Logged α (Nat × Machine α) :=
  let stats : RunStats α := ⟨0, false, Scalar.zero⟩
  let cyclic :=
    if machine.outline.isCyclic then [Event.cyclicGraph]
    else []
  { result := (0, { machine with lastRun := some stats })
    events :=
      cyclic ++ [.notConverged 0 Scalar.zero,
        .done stats machine.outline.factorCount
          machine.outline.varCount] }

/-
  Run within the given bounds. In the first sweep every value
  of every factor is read, so that it breaks off unless all
  factors are tables.
-/
def optimiseWith?
    (machine : Machine α)
    (maxIterations : Nat)
    (tolerance : α) :
    Option (Except Fault (Logged α (Nat × Machine α))) :=
  match machine.solver? with
  | some solver =>
      some ((solver.optimiseWith? maxIterations
        tolerance).map fun run =>
          ⟨(run.result.1, machine.resume run.result.2),
            run.events⟩)
  | none =>
      if maxIterations = 0 then some (.ok machine.idle)
      else none

/- Run within the bounds of the configuration. -/
def optimise? (machine : Machine α) :
    Option (Except Fault (Logged α (Nat × Machine α))) :=
  machine.optimiseWith? machine.config.maxIterations
    machine.config.tolerance

end Machine

end JointMax
