import JointMax.Scope.Basic

/-
  Numbering of the joint values of a scope: digits are listed
  in the order of the variables, and the first variable
  varies fastest. Numbers are exact, as they are in machine
  words while there are fewer joint values than words. The
  walks in words are those of `JointMax.Scope.Words`.

  Key definitions include:
    * `Scope.encode?`, `Scope.decode` and `Scope.decode?`
    * `Scope.select?`, for digits given over more variables
    * `Scope.indexOf?`, for a partial assignment
    * `Scope.locate`, the unchecked form of `Scope.select?`
-/

------------------------------------------------------------
-- Assignments
------------------------------------------------------------

namespace JointMax

/- The item that stands beside a variable's first place. -/
def aligned
    {β : Type}
    (vars : List VarId)
    (items : List β)
    (var : VarId) : Option β :=
  List.lookup var (vars.zip items)

/- Values chosen for some variables. -/
abbrev Assignment := Std.ExtTreeMap VarId Nat

namespace Assignment

/- The last of several choices for one variable counts. -/
def ofPairs (pairs : List (VarId × Nat)) : Assignment :=
  Std.ExtTreeMap.ofList pairs

def choice (assignment : Assignment) (var : VarId) :
    Option Nat :=
  assignment[var]?

end Assignment

end JointMax

------------------------------------------------------------
-- Digits of the Scope's Own Variables
------------------------------------------------------------

namespace JointMax

namespace Axis

/- Number of aligned digits, refusing the first excess. -/
def encode? : List Axis → List Nat → Except Fault Nat
  | axis :: axes, digit :: digits =>
      if digit < axis.size then do
        let high ← encode? axes digits
        return digit + axis.size * high
      else
        .error (.digitOutOfRange axis.var digit axis.size)
  | _, _ => .ok 0

end Axis

namespace Scope

/- Number of the joint value with one digit per variable. -/
def encode?
    (scope : Scope)
    (digits : List Nat) :
    Except Fault Nat :=
  if digits.length = scope.length then
    Axis.encode? scope.axes digits
  else
    .error (.badScope
      (.scopeDigitCount digits.length scope.length))

/- Digits of a joint value, one for each variable. -/
def decode (scope : Scope) (index : Nat) : List Nat :=
  MixedRadix.decode scope.sizes index

def decode?
    (scope : Scope)
    (index : Nat) :
    Except Fault (List Nat) :=
  MixedRadix.decode? scope.sizes index

end Scope

end JointMax

------------------------------------------------------------
-- Digits Given over More Variables
------------------------------------------------------------

namespace JointMax

namespace Axis

/-
  Number of the axes' digits, picked from a list that may
  hold further variables. One walk goes along both lists; a
  variable that the walk has passed counts as missing.
-/
def select? :
    List Axis → List VarId → List Nat → Except Fault Nat
  | [], _, _ => .ok 0
  | axis :: axes, var :: vars, digit :: digits =>
      if axis.var < var then
        .error (.badScope (.missing axis.var))
      else if axis.var = var then
        if digit < axis.size then do
          let high ← select? axes vars digits
          return digit + axis.size * high
        else
          .error (.digitOutOfRange var digit axis.size)
      else
        select? (axis :: axes) vars digits
  | axis :: _, _, _ => .error (.badScope (.missing axis.var))

/- Number of the digits that a partial assignment chooses. -/
def indexOf?
    (choice : VarId → Option Nat) :
    List Axis → Except Fault Nat
  | [] => .ok 0
  | axis :: axes =>
      match choice axis.var with
      | some digit =>
          if digit < axis.size then do
            let high ← indexOf? choice axes
            return digit + axis.size * high
          else
            .error (.digitOutOfRange axis.var digit axis.size)
      | none => .error (.badScope (.missing axis.var))

/-
  The walk of `select?` without its checks, for lists known
  to hold every axis with a digit in range.
-/
def locate : List Axis → List VarId → List Nat → Nat
  | [], _, _ => 0
  | axis :: axes, var :: vars, digit :: digits =>
      if axis.var = var then
        digit + axis.size * locate axes vars digits
      else
        locate (axis :: axes) vars digits
  | _ :: _, _, _ => 0

end Axis

namespace Scope

/-
  Number of the joint value that aligned digits give to this
  scope's variables. Further variables are passed over.
-/
def select?
    (scope : Scope)
    (vars : List VarId)
    (digits : List Nat) :
    Except Fault Nat :=
  if vars.length = digits.length then
    Axis.select? scope.axes vars digits
  else
    .error (.badScope
      (.digitCount vars.length digits.length))

/- Number of the joint value that an assignment chooses. -/
def indexOf?
    (scope : Scope)
    (assignment : Assignment) :
    Except Fault Nat :=
  Axis.indexOf? assignment.choice scope.axes

/- Unchecked form of `select?`. -/
def locate
    (scope : Scope)
    (vars : List VarId)
    (digits : List Nat) : Nat :=
  Axis.locate scope.axes vars digits

end Scope

end JointMax
