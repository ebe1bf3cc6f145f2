import JointMax.Scalar
import JointMax.Odometer

/-
  Tables: functions of finitely many variables, stored as one
  value for each joint value of their scope. No value is
  missing. `JointMax.Table.Sheet` has the functions whose
  values are only as many as a machine word tells.

  Key definitions include:
    * `Table`
    * `Table.constant`, `Table.filled`, `Table.tabulate`,
      `Table.ofValues?`
    * `Table.eval`, the value at an assignment
    * `Table.at?` and `Table.setAt?` with their variants
-/

------------------------------------------------------------
-- Tables
------------------------------------------------------------

namespace JointMax

/- One value for each joint value of a scope, by its number. -/
@[ext] structure Table (α : Type) where
  scope : Scope
  values : Array α
  size_eq : values.size = scope.count
deriving DecidableEq

namespace Table

variable {α : Type}

/- A table over no variable. -/
def constant (value : α) : Table α where
  scope := Scope.empty
  values := #[value]
  size_eq := rfl

/- The same value everywhere. -/
def filled (scope : Scope) (value : α) : Table α where
  scope := scope
  values := Array.replicate scope.count value
  size_eq := Array.size_replicate

/- Values computed from the digits of each joint value. -/
def tabulate
    (scope : Scope)
    (f : List Nat → α) : Table α where
  scope := scope
  values :=
    Array.ofFn fun index : Fin scope.count =>
      f (scope.decode index)
  size_eq := Array.size_ofFn

/- Listed values, as many as the scope has joint values. -/
def ofValues?
    (scope : Scope)
    (values : Array α) :
    Except Fault (Table α) :=
  if hSize : values.size = scope.count then
    .ok ⟨scope, values, hSize⟩
  else
    .error (.valueCount scope.count values.size)

/- The same value everywhere, over registered variables. -/
def over?
    (registry : Registry)
    (vars : List VarId)
    (value : α) :
    Except Fault (Table α) :=
  (Scope.ofVars? registry vars).map (filled · value)

/- The same value everywhere, over one registered variable. -/
def overVar?
    (registry : Registry)
    (var : VarId)
    (value : α) :
    Except Fault (Table α) :=
  (Scope.ofVar? registry var).map (filled · value)

def vars (table : Table α) : List VarId :=
  table.scope.vars

def sizes (table : Table α) : List Nat :=
  table.scope.sizes

def dependsOn (table : Table α) (var : VarId) : Bool :=
  table.scope.contains var

end Table

end JointMax

------------------------------------------------------------
-- Reading
------------------------------------------------------------

namespace JointMax

namespace Table

variable {α : Type} [Scalar α]

/- The value under a number, if there is one. -/
def get? (table : Table α) (index : Nat) : Option α :=
  table.values[index]?

/- The value under a number known to be in range. -/
def cell (table : Table α) (index : Nat) : α :=
  table.values.getD index Scalar.zero

/-
  The value at digits aligned with a list that holds all the
  table's variables.
-/
def along
    (table : Table α)
    (vars : List VarId)
    (digits : List Nat) : α :=
  table.cell (table.scope.locate vars digits)

/- The value at an assignment of digits to all variables. -/
def eval (table : Table α) (choice : VarId → Nat) : α :=
  table.cell
    (MixedRadix.encode table.sizes (table.vars.map choice))

/- The value at one digit for each variable of the table. -/
def at?
    (table : Table α)
    (digits : List Nat) :
    Except Fault α :=
  (table.scope.encode? digits).map table.cell

/- The value at digits given over more variables. -/
def atVars?
    (table : Table α)
    (vars : List VarId)
    (digits : List Nat) :
    Except Fault α :=
  (table.scope.select? vars digits).map table.cell

/- The value at a partial assignment. -/
def atAssignment?
    (table : Table α)
    (assignment : Assignment) :
    Except Fault α :=
  (table.scope.indexOf? assignment).map table.cell

/- The value at the position of an odometer. -/
def atOdometer?
    (table : Table α)
    (odometer : Odometer) :
    Except Fault α :=
  table.atVars? odometer.vars odometer.digits

end Table

end JointMax

------------------------------------------------------------
-- Writing
------------------------------------------------------------

namespace JointMax

namespace Table

variable {α : Type}

/- Replace the value under a number; no cell is added. -/
def put (table : Table α) (index : Nat) (value : α) :
    Table α where
  scope := table.scope
  values := table.values.setIfInBounds index value
  size_eq := by simp [table.size_eq]

/- Replace the value under a number, if there is one. -/
def set?
    (table : Table α)
    (index : Nat)
    (value : α) :
    Option (Table α) :=
  if index < table.values.size then
    some (table.put index value)
  else
    none

def setAt?
    (table : Table α)
    (digits : List Nat)
    (value : α) :
    Except Fault (Table α) :=
  (table.scope.encode? digits).map (table.put · value)

def setAtVars?
    (table : Table α)
    (vars : List VarId)
    (digits : List Nat)
    (value : α) :
    Except Fault (Table α) :=
  (table.scope.select? vars digits).map (table.put · value)

def setAtAssignment?
    (table : Table α)
    (assignment : Assignment)
    (value : α) :
    Except Fault (Table α) :=
  (table.scope.indexOf? assignment).map (table.put · value)

def setAtOdometer?
    (table : Table α)
    (odometer : Odometer)
    (value : α) :
    Except Fault (Table α) :=
  table.setAtVars? odometer.vars odometer.digits value

/- Set every value, keeping the scope. -/
def fill (table : Table α) (value : α) : Table α :=
  filled table.scope value

/- Replace the first values by those of a list. -/
def overwrite (table : Table α) (values : Array α) :
    Table α where
  scope := table.scope
  values :=
    table.values.mapIdx fun index value =>
      values.getD index value
  size_eq := by simp [table.size_eq]

end Table

end JointMax
