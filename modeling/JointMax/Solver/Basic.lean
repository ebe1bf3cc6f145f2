import JointMax.Graph.Cycle
import JointMax.Solver.Event
import JointMax.Table.Combine

/-
  The state of a solver, and the changes of its factors.
  Messages outlive a change, except on the edges of the
  factor that is set or removed. Every factor is a table,
  with one value for each of its joint values.
  `JointMax.Solver.Machine` counts them in machine words.

  Key definitions include:
    * `Messages` and `Solver`
    * `Solver.setFactor?` and `Solver.setFactorTable?`
    * `Solver.removeFactor` and `Solver.clear`
-/

------------------------------------------------------------
-- State
------------------------------------------------------------

namespace JointMax

/- One table for each edge that has a message. -/
abbrev Messages (α : Type) :=
  Std.ExtTreeMap Edge (Table α) Edge.order

/-
  Factors with the messages along their edges. `toVar` holds
  what factors send to variables, `toFactor` what variables
  send to factors, and `beliefs` what was computed of each
  variable in the last sweep.
-/
structure Solver (α : Type) where
  registry : Registry
  config : Config α
  graph : Graph α
  toVar : Messages α
  toFactor : Messages α
  beliefs : Std.ExtTreeMap VarId (Table α)
  lastRun : Option (RunStats α)

namespace Solver

variable {α : Type}

def start (registry : Registry) (config : Config α) :
    Solver α where
  registry := registry
  config := config
  graph := Graph.empty
  toVar := ∅
  toFactor := ∅
  beliefs := ∅
  lastRun := none

def setConfig (solver : Solver α) (config : Config α) :
    Solver α :=
  { solver with config := config }

/- What a factor sends to a variable. -/
def messageToVar?
    (solver : Solver α)
    (factor : FactorId)
    (var : VarId) : Option (Table α) :=
  solver.toVar[(⟨factor, var⟩ : Edge)]?

/- What a variable sends to a factor. -/
def messageToFactor?
    (solver : Solver α)
    (var : VarId)
    (factor : FactorId) : Option (Table α) :=
  solver.toFactor[(⟨factor, var⟩ : Edge)]?

end Solver

end JointMax

------------------------------------------------------------
-- Changes
------------------------------------------------------------

namespace JointMax

namespace Solver

variable {α : Type}

/-
  Drop the messages on the edges of a factor, the beliefs of
  variables that have left the graph, and the last run.
-/
def invalidate (solver : Solver α) (factor : FactorId) :
    Solver α :=
  { solver with
    toVar :=
      solver.toVar.filter fun edge _ => edge.factor != factor
    toFactor :=
      solver.toFactor.filter fun edge _ =>
        edge.factor != factor
    beliefs :=
      solver.beliefs.filter fun var _ =>
        solver.graph.containsVar var
    lastRun := none }

/- Insert or replace a factor that fits the registry. -/
def insertFactor
    (solver : Solver α)
    (factor : FactorId)
    (table : Table α) : Logged α (Solver α) where
  result :=
    invalidate
      { solver with
        graph := solver.graph.setFactor factor table }
      factor
  events := [.factorSet factor table.vars]

/-
  Insert or replace a factor, given by an increasing list of
  registered variables and one value for each joint value.
-/
def setFactor?
    (solver : Solver α)
    (factor : FactorId)
    (vars : List VarId)
    (values : Array α) :
    Except Fault (Logged α (Solver α)) :=
  if Increasing vars then do
    let scope ← Scope.ofVars? solver.registry vars
    let table ← Table.ofValues? scope values
    return solver.insertFactor factor table
  else
    .error (.badScope (.notIncreasing vars))

/- Refuse the first axis that the registry does not know so. -/
def checkAxes (registry : Registry) :
    List Axis → Except Fault Unit
  | [] => .ok ()
  | axis :: axes =>
      match registry.size? axis.var with
      | .ok size =>
          if size.val = axis.size then
            checkAxes registry axes
          else
            .error
              (.sizeConflict axis.var size.val axis.size)
      | .error fault => .error fault

/- Insert or replace a factor, given as a table. -/
def setFactorTable?
    (solver : Solver α)
    (factor : FactorId)
    (table : Table α) :
    Except Fault (Logged α (Solver α)) :=
  (checkAxes solver.registry table.scope.axes).map fun _ =>
    solver.insertFactor factor table

/- Remove a factor. Nothing happens if it is not there. -/
def removeFactor
    (solver : Solver α)
    (factor : FactorId) : Logged α (Solver α) :=
  match solver.graph.factor? factor with
  | some _ =>
      { result :=
          invalidate
            { solver with
              graph := solver.graph.removeFactor factor }
            factor
        events := [.factorRemoved factor] }
  | none => ⟨solver, []⟩

/- Remove all factors, messages and beliefs. -/
def clear (solver : Solver α) : Solver α :=
  start solver.registry solver.config

end Solver

end JointMax
