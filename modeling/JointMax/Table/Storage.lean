import JointMax.Table.Elementary

/-
  Tables within the bounds of storage. A value takes eight
  bytes and a block of storage holds less than `2 ^ 63` of
  them, so that no table of `2 ^ 60` values is ever made. The
  operations below ask for the size of their result first,
  and then are the operations of the same names on tables,
  which know no such bound.

  Key definitions include:
    * `Storage.limit` and `Storage.admits`
    * `Storage.Failure` and `Storage.within`
    * `Storage.filled?` and `Storage.tabulate?`
    * `Storage.expand?`, `Storage.zipWith?` and
      `Storage.addAll?`
-/

------------------------------------------------------------
-- The Bound
------------------------------------------------------------

namespace JointMax

namespace Storage

/- No table has so many values. -/
def limit : Nat := Nat.pow 2 60

def admits (scope : Scope) : Bool :=
  decide (scope.count < limit)

/- Why a table is not made. -/
inductive Failure (ε : Type) where
  | tooLarge (required : Nat)
  | refused (cause : ε)
deriving DecidableEq, Repr

/-
  Make a table over a scope that can be stored. If there is
  no such scope, the operation has its own reason to refuse.
-/
def within
    {ε β : Type}
    (scope : Except Fault Scope)
    (make : Unit → Except ε β) :
    Except (Failure ε) β :=
  match scope with
  | .ok scope =>
      if admits scope then
        (make ()).mapError .refused
      else
        .error (.tooLarge scope.count)
  | .error _ => (make ()).mapError .refused

end Storage

end JointMax

------------------------------------------------------------
-- New Tables
------------------------------------------------------------

namespace JointMax

namespace Storage

variable {α : Type}

def filled? (scope : Scope) (value : α) :
    Except (Failure Fault) (Table α) :=
  within (.ok scope) fun _ => .ok (Table.filled scope value)

def tabulate? (scope : Scope) (f : List Nat → α) :
    Except (Failure Fault) (Table α) :=
  within (.ok scope) fun _ => .ok (Table.tabulate scope f)

def over?
    (registry : Registry)
    (vars : List VarId)
    (value : α) :
    Except (Failure Fault) (Table α) :=
  within (Scope.ofVars? registry vars) fun _ =>
    Table.over? registry vars value

def overVar?
    (registry : Registry)
    (var : VarId)
    (value : α) :
    Except (Failure Fault) (Table α) :=
  within (Scope.ofVar? registry var) fun _ =>
    Table.overVar? registry var value

end Storage

end JointMax

------------------------------------------------------------
-- Expansion
------------------------------------------------------------

namespace JointMax

namespace Storage

variable {α : Type} [Scalar α]

def expand? (table : Table α) (scope : Scope) :
    Except (Failure Fault) (Table α) :=
  within (table.scope.union? scope) fun _ =>
    table.expand? scope

def expandVars?
    (table : Table α)
    (registry : Registry)
    (vars : List VarId) :
    Except (Failure Fault) (Table α) :=
  within
    (Scope.ofVars? registry vars >>= table.scope.union?)
    fun _ => table.expandVars? registry vars

def expandVar?
    (table : Table α)
    (registry : Registry)
    (var : VarId) :
    Except (Failure Fault) (Table α) :=
  within
    (Scope.ofVar? registry var >>= table.scope.union?)
    fun _ => table.expandVar? registry var

end Storage

end JointMax

------------------------------------------------------------
-- Combination
------------------------------------------------------------

namespace JointMax

namespace Storage

variable {α : Type} [Scalar α]

def zipWith?
    (op : α → α → α)
    (left right : Table α) :
    Except (Failure Fault) (Table α) :=
  within (left.scope.union? right.scope) fun _ =>
    Table.zipWith? op left right

def zipInto?
    (op : α → α → α)
    (left right : Table α) :
    Except (Failure Fault) (Table α) :=
  within (left.scope.union? right.scope) fun _ =>
    Table.zipInto? op left right

def combine? (op : Op) (left right : Table α) :
    Except (Failure Incompatible) (Table α) :=
  within (left.scope.union? right.scope) fun _ =>
    Table.combine? op left right

def combineInto? (op : Op) (left right : Table α) :
    Except (Failure Incompatible) (Table α) :=
  within (left.scope.union? right.scope) fun _ =>
    Table.combineInto? op left right

def pow? (base exponent : Table Float) :
    Except (Failure Fault) (Table Float) :=
  within (base.scope.union? exponent.scope) fun _ =>
    base.pow? exponent

def addAll?
    (total : Table α)
    (tables : List (Table α)) :
    Except (Failure Fault) (Table α) :=
  within
    (total.scope.unionAll? (tables.map Table.scope))
    fun _ => total.addAll? tables

end Storage

end JointMax
