import JointMax.Scope.Index
import JointMax.Words

/-
  Numbering of the joint values of a scope in machine words.
  Each route to an index is a loop of its own, with a running
  index and a running weight.

  Key definitions include:
    * `Scope.countWord?`
    * `Scope.encodeWord?` and `Scope.decodeWord?`
    * `Scope.selectWord?`, `Scope.indexWord?` and
      `Scope.locateWord?`
-/

------------------------------------------------------------
-- Walks over Axes
------------------------------------------------------------

namespace JointMax

namespace Axis

variable (build : Build)

/- Aligned digits, up to the first one out of range. -/
def encodeWord? :
    Nat → Nat → List Axis → List Nat →
      Option (Except Fault Nat)
  | index, weight, axis :: axes, digit :: digits =>
      if digit < axis.size then do
        let (next, heavier) ←
          MixedRadix.carry? build.fit index weight digit
            axis.size
        encodeWord? next heavier axes digits
      else
        some (.error
          (.digitOutOfRange axis.var digit axis.size))
  | index, _, _, _ => some (.ok index)

/- Digits picked from a list in one walk along both lists. -/
def selectWord? :
    Nat → Nat → List Axis → List VarId → List Nat →
      Option (Except Fault Nat)
  | index, _, [], _, _ => some (.ok index)
  | index, weight, axis :: axes, var :: vars,
      digit :: digits =>
      if axis.var < var then
        some (.error (.badScope (.missing axis.var)))
      else if axis.var = var then
        if digit < axis.size then do
          let (next, heavier) ←
            MixedRadix.carry? build.fit index weight digit
              axis.size
          selectWord? next heavier axes vars digits
        else
          some (.error (.digitOutOfRange var digit axis.size))
      else
        selectWord? index weight (axis :: axes) vars digits
  | _, _, axis :: _, _, _ =>
      some (.error (.badScope (.missing axis.var)))

/- Digits that a partial assignment chooses. -/
def indexWord? (choice : VarId → Option Nat) :
    Nat → Nat → List Axis → Option (Except Fault Nat)
  | index, _, [] => some (.ok index)
  | index, weight, axis :: axes =>
      match choice axis.var with
      | some digit =>
          if digit < axis.size then do
            let (next, heavier) ←
              MixedRadix.carry? build.fit index weight digit
                axis.size
            indexWord? choice next heavier axes
          else
            some (.error
              (.digitOutOfRange axis.var digit axis.size))
      | none =>
          some (.error (.badScope (.missing axis.var)))

/-
  Digits picked without a refusal. That they are in range and
  that every axis is met is no more than asserted.
-/
def locateWord? :
    Nat → Nat → List Axis → List VarId → List Nat →
      Option Nat
  | index, _, [], _, _ => some index
  | index, weight, axis :: axes, var :: vars,
      digit :: digits =>
      if axis.var = var then do
        build.holds (digit < axis.size)
        let (next, heavier) ←
          MixedRadix.carry? build.fit index weight digit
            axis.size
        locateWord? next heavier axes vars digits
      else
        locateWord? index weight (axis :: axes) vars digits
  | index, _, _ :: _, _, _ => do
      build.holds false
      return index

end Axis

end JointMax

------------------------------------------------------------
-- Scopes
------------------------------------------------------------

namespace JointMax

namespace Scope

/- Number of joint values. -/
def countWord? (build : Build) (scope : Scope) : Option Nat :=
  MixedRadix.multiplyUp? build.fit 1 scope.sizes

/- Number of the joint value with one digit per variable. -/
def encodeWord?
    (build : Build)
    (scope : Scope)
    (digits : List Nat) :
    Option (Except Fault Nat) :=
  if digits.length = scope.length then
    Axis.encodeWord? build 0 1 scope.axes digits
  else
    some (.error (.badScope
      (.scopeDigitCount digits.length scope.length)))

/- Digits of a joint value, one for each variable. -/
def decodeWord?
    (build : Build)
    (scope : Scope)
    (index : Nat) :
    Option (Except Fault (List Nat)) :=
  MixedRadix.digitsOf? build.fit scope.sizes index

/- Number of the joint value that a longer list gives. -/
def selectWord?
    (build : Build)
    (scope : Scope)
    (vars : List VarId)
    (digits : List Nat) :
    Option (Except Fault Nat) :=
  if vars.length = digits.length then
    Axis.selectWord? build 0 1 scope.axes vars digits
  else
    some (.error (.badScope
      (.digitCount vars.length digits.length)))

/- Number of the joint value that an assignment chooses. -/
def indexWord?
    (build : Build)
    (scope : Scope)
    (assignment : Assignment) :
    Option (Except Fault Nat) :=
  Axis.indexWord? build assignment.choice 0 1 scope.axes

/- Unchecked form of `selectWord?`. -/
def locateWord?
    (build : Build)
    (scope : Scope)
    (vars : List VarId)
    (digits : List Nat) : Option Nat := do
  build.holds (vars.length = digits.length)
  Axis.locateWord? build 0 1 scope.axes vars digits

/- Whatever is left of the count is the count in words. -/
theorem eq_mod_of_countWord?
    {build : Build}
    {scope : Scope}
    {total : Nat}
    (hTotal : scope.countWord? build = some total) :
    total = scope.count % wordLimit := by
  rw [MixedRadix.eq_mod_of_multiplyUp?
    (Nat.one_lt_two_pow (by omega)) hTotal, Nat.one_mul]
  rfl

end Scope

end JointMax
