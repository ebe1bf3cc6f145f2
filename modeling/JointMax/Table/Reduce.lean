import JointMax.Table.Combine

/-
  Whole-table questions: extreme values and their places,
  sums, comparisons with a scalar and between tables.

  Key definitions include:
    * `Table.maximum`, `Table.minimum`, `Table.sum`,
      `Table.mean`, `Table.maxNorm`
    * `Table.argmax` and `Table.runnerUp`
    * `Table.allBelow` and its variants
    * `Table.equalWithin`
-/

------------------------------------------------------------
-- Folds over All Values
------------------------------------------------------------

namespace JointMax

namespace Table

variable {α : Type}

/- The largest value that is a number. -/
def maximum [Scalar α] [Extremes α] (table : Table α) : α :=
  table.values.foldl Scalar.larger Extremes.bottom

/- The smallest value that is a number. -/
def minimum [Scalar α] [Extremes α] (table : Table α) : α :=
  table.values.foldl Scalar.smaller Extremes.top

variable [Scalar α]

def sum (table : Table α) : α :=
  laneSum table.values.toList

def mean (table : Table α) : α :=
  table.sum / Scalar.ofNat table.values.size

/- The largest absolute value. -/
def maxNorm (table : Table α) : α :=
  table.values.foldl
    (fun norm value => Scalar.larger norm (Scalar.abs value))
    Scalar.zero

end Table

end JointMax

------------------------------------------------------------
-- Places of the Largest Values
------------------------------------------------------------

namespace JointMax

namespace Table

variable {α : Type} [Scalar α]

/-
  Keep the better of the best place so far and one more. A
  value that is not a number is passed over, and an equal
  value does not replace an earlier one.
-/
def better
    (table : Table α)
    (best : Option Nat)
    (index : Nat) : Option Nat :=
  if Scalar.isNaN (table.cell index) then
    best
  else
    match best with
    | none => some index
    | some leader =>
        if Scalar.lt (table.cell leader) (table.cell index)
        then some index
        else best

/-
  The least place of the largest value among the given
  places; their first if none holds a number.
-/
def argmaxAmong
    (table : Table α)
    (places : List Nat) : Nat :=
  match places.foldl table.better none with
  | some index => index
  | none => places.headD 0

def argmax (table : Table α) : Nat :=
  table.argmaxAmong (List.range table.values.size)

/-
  The place of the largest value outside one place. The only
  place of a constant is its own runner-up.
-/
def runnerUp (table : Table α) (excluded : Nat) : Nat :=
  if table.values.size < 2 then
    excluded
  else
    table.argmaxAmong
      ((List.range table.values.size).filter (· != excluded))

end Table

end JointMax

------------------------------------------------------------
-- Comparisons
------------------------------------------------------------

namespace JointMax

namespace Table

variable {α : Type} [Scalar α]

def allBelow (table : Table α) (bound : α) : Bool :=
  table.values.all fun value => Scalar.lt value bound

def allAtMost (table : Table α) (bound : α) : Bool :=
  table.values.all fun value => Scalar.le value bound

def allAbove (table : Table α) (bound : α) : Bool :=
  table.values.all fun value => Scalar.lt bound value

def allAtLeast (table : Table α) (bound : α) : Bool :=
  table.values.all fun value => Scalar.le bound value

/- Both tables depend on the same variables. -/
def sameVars (left right : Table α) : Bool :=
  left.vars == right.vars

end Table

/- The tolerance to compare doubles with by default. -/
def defaultTolerance : Float := 1e-6

/- Equal, or with a quotient within the tolerance of one. -/
def close {α : Type} [Scalar α] (tolerance a b : α) : Bool :=
  Scalar.same a b ||
    Scalar.lt (Scalar.abs (Scalar.one - a / b)) tolerance

namespace Table

variable {α : Type} [Scalar α]

/-
  Whether the tables are close at every joint value of the
  union of their scopes. Tables that give a shared variable
  two sizes are not.
-/
def equalWithin
    (tolerance : α)
    (left right : Table α) : Bool :=
  if left.scope = right.scope then
    (left.values.zip right.values).all fun pair =>
      close tolerance pair.1 pair.2
  else
    match left.scope.union? right.scope with
    | .ok union =>
        Nat.all union.count fun index _ =>
          let digits := union.decode index
          close tolerance
            (left.along union.vars digits)
            (right.along union.vars digits)
    | .error _ => false

/- Closeness of tables with the same variables. -/
def strictlyEqualWithin
    (tolerance : α)
    (left right : Table α) : Bool :=
  left.sameVars right && equalWithin tolerance left right

/- Equality at every joint value of both scopes. -/
def same (left right : Table α) : Bool :=
  equalWithin Scalar.zero left right

end Table

end JointMax
