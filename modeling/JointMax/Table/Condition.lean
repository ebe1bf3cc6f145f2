import JointMax.Table.Basic

/-
  Conditioning: fix some variables of a table and drop them
  from its scope.

  Key definitions include:
    * `Wheel.weave`, free digits put between the pinned ones
    * `Table.slice`
    * `Table.condition?` and `Table.conditionOn?`
-/

------------------------------------------------------------
-- Slices
------------------------------------------------------------

namespace JointMax

namespace Wheel

/-
  Digits of all wheels: pinned wheels keep their own, free
  wheels take the given digits in order.
-/
def weave : List Wheel → List Nat → List Nat
  | [], _ => []
  | wheel :: wheels, digits =>
      if wheel.pinned then
        wheel.digit :: weave wheels digits
      else
        digits.headD 0 :: weave wheels digits.tail

end Wheel

namespace Table

variable {α : Type} [Scalar α]

/-
  The values that an odometer over the table's scope passes,
  as a table over the free variables. With no pinned wheel
  this is the table itself.
-/
def slice (table : Table α) (odometer : Odometer) :
    Table α :=
  if odometer.pinnedCount = 0 then
    table
  else
    tabulate odometer.freeScope fun digits =>
      table.cell
        (MixedRadix.encode odometer.scope.sizes
          (Wheel.weave odometer.wheels digits))

end Table

end JointMax

------------------------------------------------------------
-- Conditioning
------------------------------------------------------------

namespace JointMax

namespace Table

variable {α : Type} [Scalar α]

/-
  Fix an increasing list of variables at aligned digits.
  Variables outside the scope are not looked at.
-/
def condition?
    (table : Table α)
    (vars : List VarId)
    (digits : List Nat) :
    Except Fault (Table α) :=
  ((Odometer.start table.scope).condition? vars digits).map
    table.slice

/- Fix the variables that an assignment chooses. -/
def conditionOn?
    (table : Table α)
    (assignment : Assignment) :
    Except Fault (Table α) :=
  ((Odometer.start table.scope).conditionOn? assignment).map
    table.slice

end Table

end JointMax
