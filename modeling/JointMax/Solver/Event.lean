import JointMax.Solver.Config
import JointMax.Fault

/-
  What a solver reports while it works. An event is a value;
  its level, text and fields are derived from it.

  Key definitions include:
    * `Event`
    * `Event.level`, `Event.message` and `Event.fields`
    * `Logged`, a result with the events on the way to it
-/

------------------------------------------------------------
-- Events
------------------------------------------------------------

namespace JointMax

inductive Event (α : Type) where
  | factorSet (factor : FactorId) (vars : List VarId)
  | factorRemoved (factor : FactorId)
  | emptyGraph
  | cyclicGraph
  | swept (iteration : Nat) (maxDelta : α)
  | notConverged (maxIterations : Nat) (maxDelta : α)
  | done (stats : RunStats α) (factors vars : Nat)
deriving DecidableEq

/- A result with the events on the way to it, in order. -/
structure Logged (α β : Type) where
  result : β
  events : List (Event α)

end JointMax

------------------------------------------------------------
-- Presentation
------------------------------------------------------------

namespace JointMax

/- How urgent an event is. -/
inductive Level where
  | debug
  | info
  | warn
deriving DecidableEq, Repr

/- A value that is reported beside the text of an event. -/
inductive FieldValue (α : Type) where
  | count (n : Nat)
  | flag (b : Bool)
  | number (x : α)
  | text (s : String)
deriving DecidableEq

def Level.name : Level → String
  | debug => "DEBUG"
  | info => "INFO"
  | warn => "WARN"

namespace Event

variable {α : Type}

def level : Event α → Level
  | factorSet .. => .debug
  | factorRemoved .. => .debug
  | emptyGraph => .info
  | cyclicGraph => .debug
  | swept .. => .debug
  | notConverged .. => .warn
  | done .. => .info

def message : Event α → String
  | factorSet .. => "set factor"
  | factorRemoved .. => "remove factor"
  | emptyGraph => "max-sum on an empty factor graph"
  | cyclicGraph =>
      "factor graph is cyclic, max-sum may not find the optimum"
  | swept .. => "max-sum sweep"
  | notConverged .. => "max-sum did not converge"
  | done .. => "max-sum done"

def fields : Event α → List (String × FieldValue α)
  | factorSet factor vars =>
      [("factor", .count factor.toNat),
        ("vars", .text (showVars vars))]
  | factorRemoved factor =>
      [("factor", .count factor.toNat)]
  | emptyGraph => []
  | cyclicGraph => []
  | swept iteration maxDelta =>
      [("iteration", .count iteration),
        ("max_delta", .number maxDelta)]
  | notConverged maxIterations maxDelta =>
      [("max_iterations", .count maxIterations),
        ("max_delta", .number maxDelta)]
  | done stats factors vars =>
      [("iterations", .count stats.iterations),
        ("converged", .flag stats.converged),
        ("factors", .count factors),
        ("vars", .count vars)]

end Event

end JointMax
