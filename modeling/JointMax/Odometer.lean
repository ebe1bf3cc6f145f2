import JointMax.Scope.Index

/-
  A cursor over the joint values of a scope, in increasing
  order of their numbers. Wheels may be pinned, which
  restricts the walk to a slice of the scope. The index is
  exact. `JointMax.Cursor` keeps it in a machine word.

  Key definitions include:
    * `Wheel` and `Odometer`
    * `Odometer.start` and `Odometer.step`
    * `Odometer.pin?`, `Odometer.condition?` and
      `Odometer.follow?`
    * `Odometer.trail`, the positions still to come
-/

------------------------------------------------------------
-- Wheels
------------------------------------------------------------

namespace JointMax

/- The current digit of one variable. -/
structure Wheel where
  digit : Nat
  pinned : Bool
deriving DecidableEq

/-
  A position in a scope. There is one wheel for each
  variable; `index` is the number of the joint value that
  the wheels show, kept up to date from step to step.
-/
structure Odometer where
  scope : Scope
  wheels : List Wheel
  index : Nat
  finished : Bool
deriving DecidableEq

namespace Wheel

/-
  Turn the first free wheel that has a further digit, and
  reset the free wheels before it. `stride` is the weight of
  the first digit. The last component tells that every free
  wheel was reset.
-/
def turn :
    List Axis → List Wheel → Nat → Nat →
      List Wheel × Nat × Bool
  | axis :: axes, wheel :: wheels, stride, index =>
      if wheel.pinned then
        let later := turn axes wheels (stride * axis.size) index
        ⟨wheel :: later.1, later.2⟩
      else if wheel.digit + 1 < axis.size then
        (⟨wheel.digit + 1, false⟩ :: wheels,
          index + stride, false)
      else
        let later :=
          turn axes wheels (stride * axis.size)
            (index - wheel.digit * stride)
        ⟨⟨0, false⟩ :: later.1, later.2⟩
  | _, wheels, _, index => (wheels, index, true)

/-
  Pin the wheels whose variable has a chosen digit, and reset
  the wheels that stay free. Refuses the first chosen digit
  that is out of range.
-/
def pin?
    (choice : VarId → Option Nat) :
    List Axis → List Wheel → Except Fault (List Wheel)
  | axis :: axes, wheel :: wheels =>
      match choice axis.var with
      | some digit =>
          if digit < axis.size then do
            let rest ← pin? choice axes wheels
            return ⟨digit, true⟩ :: rest
          else
            .error (.digitOutOfRange axis.var digit axis.size)
      | none => do
          let rest ← pin? choice axes wheels
          let kept :=
            if wheel.pinned then wheel else ⟨0, false⟩
          return kept :: rest
  | _, wheels => .ok wheels

end Wheel

end JointMax

------------------------------------------------------------
-- Walking
------------------------------------------------------------

namespace JointMax

namespace Odometer

/- The first joint value, with every wheel free. -/
def start (scope : Scope) : Odometer where
  scope := scope
  wheels := List.replicate scope.length ⟨0, false⟩
  index := 0
  finished := false

/- Digits shown by the wheels. -/
def digits (odometer : Odometer) : List Nat :=
  odometer.wheels.map Wheel.digit

def vars (odometer : Odometer) : List VarId :=
  odometer.scope.vars

def hasNext (odometer : Odometer) : Bool :=
  !odometer.finished

/- The next joint value of the free variables. -/
def step (odometer : Odometer) : Odometer :=
  if odometer.finished then
    odometer
  else
    let (wheels, index, wrapped) :=
      Wheel.turn odometer.scope.axes odometer.wheels 1
        odometer.index
    { odometer with
      wheels := wheels
      index := index
      finished := wrapped }

/- Several steps, none of them past the end. -/
def steps : Nat → Odometer → Odometer
  | 0, odometer => odometer
  | n + 1, odometer =>
      if odometer.finished then odometer
      else steps n odometer.step

/- At most so many positions, from the current one on. -/
def walk : Nat → Odometer → List Odometer
  | 0, _ => []
  | n + 1, odometer =>
      if odometer.finished then []
      else odometer :: walk n odometer.step

/-
  Every position from the current one to the end. There are
  never more of them than joint values.
-/
def trail (odometer : Odometer) : List Odometer :=
  walk odometer.scope.count odometer

end Odometer

end JointMax

------------------------------------------------------------
-- Pinning
------------------------------------------------------------

namespace JointMax

namespace Odometer

/-
  Pin the variables with a chosen digit and restart the walk
  at the first joint value of the others. Choices for
  variables outside the scope are not looked at. A refusal
  leaves nothing changed, for it returns no odometer.
-/
def pin?
    (odometer : Odometer)
    (choice : VarId → Option Nat) :
    Except Fault Odometer :=
  match
    Wheel.pin? choice odometer.scope.axes odometer.wheels
  with
  | .ok wheels =>
      .ok
        { odometer with
          wheels := wheels
          index :=
            MixedRadix.encode odometer.scope.sizes
              (wheels.map Wheel.digit)
          finished := false }
  | .error fault => .error fault

/- Pin an increasing list of variables at aligned digits. -/
def condition?
    (odometer : Odometer)
    (vars : List VarId)
    (digits : List Nat) :
    Except Fault Odometer :=
  if vars.length = digits.length then
    if Increasing vars then
      odometer.pin? (aligned vars digits)
    else
      .error (.badScope (.notIncreasing vars))
  else
    .error (.badScope
      (.conditionCount vars.length digits.length))

/- Pin the variables that an assignment chooses. -/
def conditionOn?
    (odometer : Odometer)
    (assignment : Assignment) :
    Except Fault Odometer :=
  odometer.pin? assignment.choice

/- Pin the variables shared with another odometer there. -/
def follow?
    (odometer other : Odometer) :
    Except Fault Odometer :=
  odometer.pin? (aligned other.vars other.digits)

/- Number of pinned variables. -/
def pinnedCount (odometer : Odometer) : Nat :=
  odometer.wheels.countP Wheel.pinned

def isPinned (odometer : Odometer) (var : VarId) : Bool :=
  match aligned odometer.vars odometer.wheels var with
  | some wheel => wheel.pinned
  | none => false

/- The scope of the free variables. -/
def freeScope (odometer : Odometer) : Scope :=
  odometer.scope.filter fun var => !odometer.isPinned var

end Odometer

end JointMax
