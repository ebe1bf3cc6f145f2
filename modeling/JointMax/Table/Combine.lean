import JointMax.Table.Basic
import JointMax.Scope.Union

/-
  Pointwise operations. Two tables are combined over the
  union of their scopes, each read at the part of the joint
  value that concerns it.

  Key definitions include:
    * `Table.map`
    * `Table.zipWith?` and `Table.zipInto?`
    * `Op`, with `Table.combine?` and `Table.combineInto?`
    * `Table.expand?`
    * `Table.addAll?`
-/

------------------------------------------------------------
-- Pointwise Functions
------------------------------------------------------------

namespace JointMax

namespace Table

variable {α : Type}

def map (f : α → α) (table : Table α) : Table α where
  scope := table.scope
  values := table.values.map f
  size_eq := by simp [table.size_eq]

/- Combine two tables of one scope, cell by cell. -/
def zipCells
    (op : α → α → α)
    (left right : Table α)
    (hScope : left.scope = right.scope) : Table α where
  scope := left.scope
  values := Array.zipWith op left.values right.values
  size_eq := by
    simp [left.size_eq, right.size_eq, hScope]

variable [Scalar α]

/-
  Combine two tables over the union of their scopes. Refused
  if a shared variable has two sizes.
-/
def zipWith?
    (op : α → α → α)
    (left right : Table α) :
    Except Fault (Table α) :=
  if hScope : left.scope = right.scope then
    .ok (zipCells op left right hScope)
  else
    (left.scope.union? right.scope).map fun union =>
      tabulate union fun digits =>
        op (left.along union.vars digits)
          (right.along union.vars digits)

/- Combine every cell with a table of an included scope. -/
def zipIncluded
    (op : α → α → α)
    (left right : Table α) : Table α where
  scope := left.scope
  values :=
    left.values.mapIdx fun index value =>
      op value
        (right.along left.vars (left.scope.decode index))
  size_eq := by simp [left.size_eq]

/-
  Combine a second table into the first, whose scope grows
  only if it has to.
-/
def zipInto?
    (op : α → α → α)
    (left right : Table α) :
    Except Fault (Table α) :=
  if hScope : left.scope = right.scope then
    .ok (zipCells op left right hScope)
  else if left.scope.includes right.scope then
    .ok (zipIncluded op left right)
  else
    zipWith? op left right

end Table

end JointMax

------------------------------------------------------------
-- Arithmetic
------------------------------------------------------------

namespace JointMax

/- The four operations of arithmetic. -/
inductive Op where
  | add
  | sub
  | mul
  | div
deriving DecidableEq, Repr

/- Operands of an arithmetic operation that do not fit. -/
structure Incompatible where
  cause : Fault
deriving DecidableEq, Repr

namespace Op

def apply {α : Type} [Scalar α] : Op → α → α → α
  | add, a, b => a + b
  | sub, a, b => a - b
  | mul, a, b => a * b
  | div, a, b => a / b

end Op

namespace Incompatible

def message (incompatible : Incompatible) : String :=
  "Cannot combine functions: " ++ incompatible.cause.message

end Incompatible

namespace Table

variable {α : Type} [Scalar α]

/- The operation on two tables. -/
def combine?
    (op : Op)
    (left right : Table α) :
    Except Incompatible (Table α) :=
  (zipWith? op.apply left right).mapError Incompatible.mk

/- The operation, done in the place of its first operand. -/
def combineInto?
    (op : Op)
    (left right : Table α) :
    Except Incompatible (Table α) :=
  (zipInto? op.apply left right).mapError Incompatible.mk

/- The operation with a scalar as second operand. -/
def withScalar (op : Op) (table : Table α) (scalar : α) :
    Table α :=
  table.map fun value => op.apply value scalar

/- The operation with a scalar as first operand. -/
def scalarWith (op : Op) (scalar : α) (table : Table α) :
    Table α :=
  table.map fun value => op.apply scalar value

def neg (table : Table α) : Table α :=
  table.map fun value => -value

def abs (table : Table α) : Table α :=
  table.map Scalar.abs

/- Every value, or the scalar where that is larger. -/
def maxWith (table : Table α) (scalar : α) : Table α :=
  table.map fun value => Scalar.larger value scalar

end Table

end JointMax

------------------------------------------------------------
-- Expansion
------------------------------------------------------------

namespace JointMax

namespace Table

variable {α : Type} [Scalar α]

/- Copy a table over a scope that includes its own. -/
def broadcast (table : Table α) (target : Scope) : Table α :=
  tabulate target fun digits =>
    table.along target.vars digits

/- Let the scope grow to include another one. -/
def expand?
    (table : Table α)
    (scope : Scope) :
    Except Fault (Table α) :=
  (table.scope.union? scope).map fun union =>
    if union.length = table.scope.length then table
    else table.broadcast union

/- Let the scope grow to include registered variables. -/
def expandVars?
    (table : Table α)
    (registry : Registry)
    (vars : List VarId) :
    Except Fault (Table α) :=
  match Scope.ofVars? registry vars with
  | .ok scope => table.expand? scope
  | .error fault => .error fault

/-
  Let the scope grow by one registered variable. The registry
  is not read if the table depends on the variable already.
-/
def expandVar?
    (table : Table α)
    (registry : Registry)
    (var : VarId) :
    Except Fault (Table α) :=
  if table.dependsOn var then
    .ok table
  else
    match Scope.ofVar? registry var with
    | .ok scope => table.expand? scope
    | .error fault => .error fault

end Table

end JointMax

------------------------------------------------------------
-- Sums of Several Tables
------------------------------------------------------------

namespace JointMax

namespace Table

variable {α : Type} [Scalar α]

/- Add tables into the first one, one after another. -/
def addEach? :
    Table α → List (Table α) → Except Fault (Table α)
  | total, [] => .ok total
  | total, table :: tables =>
      match zipInto? (· + ·) total table with
      | .ok next => next.addEach? tables
      | .error fault => .error fault

/-
  Add several tables. The union of all scopes is formed
  first, so that a refusal comes before any addition.
-/
def addAll?
    (total : Table α)
    (tables : List (Table α)) :
    Except Fault (Table α) :=
  match total.scope.unionAll? (tables.map Table.scope) with
  | .ok union =>
      match total.expand? union with
      | .ok expanded => expanded.addEach? tables
      | .error fault => .error fault
  | .error fault => .error fault

end Table

end JointMax
