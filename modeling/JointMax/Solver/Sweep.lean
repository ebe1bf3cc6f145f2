import JointMax.Solver.Basic
import JointMax.Table.Marginal
import JointMax.Table.Reduce

/-
  One sweep of message passing. First every variable sends to
  each of its factors the sum of what its other factors have
  sent, less the mean of that sum; then every factor sends to
  each of its variables the max-marginal of its own table
  plus what its other variables have just sent. The belief of
  a variable is the sum of all that it has received.

  Key definitions include:
    * `Solver.varMessage?` and `Solver.factorMessage?`
    * `Solver.belief?` and `Solver.values?`
    * `Solver.sweep?`
-/

------------------------------------------------------------
-- Sums of Messages
------------------------------------------------------------

namespace JointMax

namespace Solver

variable {α : Type} [Scalar α]

/-
  Sum, from zero, of the messages that a variable has
  received from some factors. Factors without a message are
  passed over.
-/
def received?
    (solver : Solver α)
    (axis : Axis)
    (factors : List FactorId) :
    Except Fault (Table α) :=
  (Table.filled (Scope.ofAxis axis) Scalar.zero).addEach?
    (factors.filterMap fun factor =>
      solver.messageToVar? factor axis.var)

/- Sum of all messages that a variable of the graph received. -/
def belief? (solver : Solver α) (var : VarId) :
    Except Fault (Option (Table α)) :=
  match solver.graph.axis? var with
  | some axis =>
      (solver.received? axis
        (solver.graph.factorsOf var)).map some
  | none => .ok none

/- Beliefs of the graph's variables, in increasing order. -/
def currentBeliefs? (solver : Solver α) :
    Except Fault (List (VarId × Table α)) := do
  let found ← solver.graph.vars.mapM fun var => do
    let belief ← solver.belief? var
    return belief.map fun table => (var, table)
  return found.filterMap id

/- The best value of each variable, by increasing variable. -/
def values? (solver : Solver α) :
    Except Fault (List (VarId × Nat)) :=
  solver.currentBeliefs?.map fun beliefs =>
    beliefs.map fun belief => (belief.1, belief.2.argmax)

end Solver

end JointMax

------------------------------------------------------------
-- Messages of Variables
------------------------------------------------------------

namespace JointMax

namespace Solver

variable {α : Type} [Scalar α]

/- What the variable of an edge sends to its factor. -/
def varMessage? (solver : Solver α) (edge : Edge) :
    Except Fault (Table α) :=
  match solver.graph.axis? edge.var with
  | some axis =>
      (solver.received? axis
        ((solver.graph.factorsOf edge.var).filter
          (· != edge.factor))).map fun total =>
            total.withScalar .sub total.mean
  | none => .error (.unknownVariable edge.var)

def varPhase? (solver : Solver α) :
    Except Fault (Messages α) := do
  let messages ← solver.graph.edges.mapM fun edge => do
    let message ← solver.varMessage? edge
    return (edge, message)
  return Std.ExtTreeMap.ofList messages Edge.order

end Solver

end JointMax

------------------------------------------------------------
-- Messages of Factors
------------------------------------------------------------

namespace JointMax

namespace Solver

variable {α : Type} [Scalar α]

/- What a factor sends to one of its variables. -/
def factorMessage?
    (solver : Solver α)
    (factor : FactorId)
    (table : Table α)
    (var : VarId) :
    Except Fault (Table α) := do
  let others := table.vars.filter (· != var)
  let total ←
    table.addEach?
      (others.filterMap fun other =>
        solver.messageToFactor? other factor)
  Table.maxMarginal? total
    (Table.filled (table.scope.filter (· == var))
      Scalar.zero)

def factorPhase? (solver : Solver α) :
    Except Fault (Messages α) := do
  let messages ← solver.graph.factors.mapM fun entry =>
    entry.2.vars.mapM fun var => do
      let message ←
        solver.factorMessage? entry.1 entry.2 var
      return ((⟨entry.1, var⟩ : Edge), message)
  return Std.ExtTreeMap.ofList messages.flatten Edge.order

end Solver

end JointMax

------------------------------------------------------------
-- Sweeps
------------------------------------------------------------

namespace JointMax

namespace Solver

variable {α : Type} [Scalar α]

/- How far a belief is from the one of the last sweep. -/
def change?
    (solver : Solver α)
    (var : VarId)
    (belief : Table α) : Except Fault α :=
  match solver.beliefs[var]? with
  | some old =>
      (Table.zipWith? Op.sub.apply belief old).map
        Table.maxNorm
  | none => .ok belief.maxNorm

/-
  One sweep, with the largest change of a belief. Messages of
  variables are computed from the factors' messages of the
  sweep before, and those of factors from this sweep's.
-/
def sweep? (solver : Solver α) :
    Except Fault (Solver α × α) := do
  let toFactor ← solver.varPhase?
  let sent := { solver with toFactor := toFactor }
  let toVar ← sent.factorPhase?
  let answered := { sent with toVar := toVar }
  let beliefs ← answered.currentBeliefs?
  let changes ← beliefs.mapM fun belief =>
    solver.change? belief.1 belief.2
  let settled :=
    { answered with
      beliefs := Std.ExtTreeMap.ofList beliefs }
  return (settled, changes.foldl Scalar.larger Scalar.zero)

end Solver

end JointMax
