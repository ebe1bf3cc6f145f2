import JointMax.Odometer
import JointMax.Scope.Words

/-
  Odometers in machine words. The weights of the digits are
  computed once, at the start, and every index is computed
  from them.

  Key definitions include:
    * `Cursor`
    * `Cursor.start?` and `Cursor.step?`
    * `Cursor.pin?`, `Cursor.condition?`,
      `Cursor.conditionOn?` and `Cursor.follow?`
    * `Cursor.trail?`, the positions still to come
-/

------------------------------------------------------------
-- Wheels
------------------------------------------------------------

namespace JointMax

namespace Wheel

/-
  Turn the first free wheel that has a further digit, and
  reset the free wheels before it. A further digit is below a
  size and so a word.
-/
def turnWord? (build : Build) :
    List Axis → List Nat → List Wheel → Nat →
      Option (List Wheel × Nat × Bool)
  | axis :: axes, stride :: strides, wheel :: wheels,
      index =>
      if wheel.pinned then do
        let later ←
          turnWord? build axes strides wheels index
        return ⟨wheel :: later.1, later.2⟩
      else if wheel.digit + 1 < axis.size then do
        let next ← build.fit (index + stride)
        return (⟨wheel.digit + 1, false⟩ :: wheels, next,
          false)
      else do
        let share ← build.fit (wheel.digit * stride)
        let rest ← build.minus index share
        let later ← turnWord? build axes strides wheels rest
        return ⟨⟨0, false⟩ :: later.1, later.2⟩
  | _, _, wheels, index => some (wheels, index, true)

end Wheel

end JointMax

------------------------------------------------------------
-- Walking
------------------------------------------------------------

namespace JointMax

/-
  An odometer with the weight of each digit. Its index is a
  word.
-/
structure Cursor extends Odometer where
  strides : List Nat
deriving DecidableEq

namespace Cursor

/- The first joint value, with every wheel free. -/
def start? (build : Build) (scope : Scope) :
    Option Cursor := do
  let strides ←
    MixedRadix.weights? build.fit 1 scope.sizes
  return ⟨Odometer.start scope, strides⟩

/- The next joint value of the free variables. -/
def step? (build : Build) (cursor : Cursor) :
    Option Cursor :=
  if cursor.finished then
    some cursor
  else do
    let (wheels, index, wrapped) ←
      Wheel.turnWord? build cursor.scope.axes cursor.strides
        cursor.wheels cursor.index
    return { cursor with
      wheels := wheels
      index := index
      finished := wrapped }

/- Several steps, none of them past the end. -/
def steps? (build : Build) : Nat → Cursor → Option Cursor
  | 0, cursor => some cursor
  | n + 1, cursor =>
      if cursor.finished then
        some cursor
      else do
        let next ← cursor.step? build
        steps? build n next

/- At most so many positions, from the current one on. -/
def walk? (build : Build) :
    Nat → Cursor → Option (List Cursor)
  | 0, _ => some []
  | n + 1, cursor =>
      if cursor.finished then
        some []
      else do
        let next ← cursor.step? build
        let rest ← walk? build n next
        return cursor :: rest

/- Every position from the current one to the end. -/
def trail? (build : Build) (cursor : Cursor) :
    Option (List Cursor) :=
  walk? build cursor.scope.count cursor

end Cursor

end JointMax

------------------------------------------------------------
-- Pinning
------------------------------------------------------------

namespace JointMax

namespace Cursor

/-
  Pin the variables with a chosen digit and restart the walk
  at the first joint value of the others. All refusals come
  before the new index.
-/
def pin?
    (build : Build)
    (cursor : Cursor)
    (choice : VarId → Option Nat) :
    Option (Except Fault Cursor) :=
  match
    Wheel.pin? choice cursor.scope.axes cursor.wheels
  with
  | .ok wheels => do
      let index ←
        MixedRadix.weigh? build.fit 0
          (wheels.map Wheel.digit) cursor.strides
      return .ok { cursor with
        wheels := wheels
        index := index
        finished := false }
  | .error fault => some (.error fault)

/- Pin an increasing list of variables at aligned digits. -/
def condition?
    (build : Build)
    (cursor : Cursor)
    (vars : List VarId)
    (digits : List Nat) :
    Option (Except Fault Cursor) :=
  if vars.length = digits.length then
    if Increasing vars then
      cursor.pin? build (aligned vars digits)
    else
      some (.error (.badScope (.notIncreasing vars)))
  else
    some (.error (.badScope
      (.conditionCount vars.length digits.length)))

/- Pin the variables that an assignment chooses. -/
def conditionOn?
    (build : Build)
    (cursor : Cursor)
    (assignment : Assignment) :
    Option (Except Fault Cursor) :=
  cursor.pin? build assignment.choice

/- Pin the variables shared with another odometer there. -/
def follow?
    (build : Build)
    (cursor : Cursor)
    (other : Odometer) :
    Option (Except Fault Cursor) :=
  cursor.pin? build (aligned other.vars other.digits)

end Cursor

end JointMax
