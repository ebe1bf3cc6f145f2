import JointMax.Fault
import Std.Data.ExtTreeMap

/-
  The table of variable sizes. A size is written once: a
  variable may be registered again with the same size, and
  never with another.

  Key definitions include:
    * `Registry`, positive sizes by variable
    * `Registry.register` and `Registry.registerAll`
    * `Registry.size?`
-/

------------------------------------------------------------
-- Registration
------------------------------------------------------------

namespace JointMax

/- Sizes of variables, all positive. -/
structure Registry where
  sizes : Std.ExtTreeMap VarId { n : Nat // 0 < n }

namespace Registry

def empty : Registry := ⟨∅⟩

/-
  Record the size of one variable. An empty range is refused
  before the recorded size is looked at.
-/
def register
    (registry : Registry)
    (var : VarId)
    (size : Nat) :
    Except Fault Registry :=
  if hPos : 0 < size then
    match registry.sizes[var]? with
    | some registered =>
        if registered.val = size then
          .ok registry
        else
          .error (.sizeConflict var registered.val size)
    | none =>
        .ok ⟨registry.sizes.insert var ⟨size, hPos⟩⟩
  else
    .error (.zeroSize var)

/-
  Register pairs in order up to the first refusal. The pairs
  before it stay registered.
-/
def registerAll :
    Registry → List (VarId × Nat) → Registry × Option Fault
  | registry, [] => (registry, none)
  | registry, (var, size) :: pairs =>
      match registry.register var size with
      | .ok extended => extended.registerAll pairs
      | .error fault => (registry, some fault)

/- A registry of exactly these pairs, or the first refusal. -/
def ofPairs?
    (pairs : List (VarId × Nat)) :
    Except Fault Registry :=
  match empty.registerAll pairs with
  | (registry, none) => .ok registry
  | (_, some fault) => .error fault

end Registry

end JointMax

------------------------------------------------------------
-- Queries
------------------------------------------------------------

namespace JointMax

namespace Registry

/- The size of a registered variable. -/
def size?
    (registry : Registry)
    (var : VarId) :
    Except Fault { n : Nat // 0 < n } :=
  match registry.sizes[var]? with
  | some size => .ok size
  | none => .error (.unknownVariable var)

def isRegistered (registry : Registry) (var : VarId) : Bool :=
  registry.sizes.contains var

def length (registry : Registry) : Nat :=
  registry.sizes.size

def isEmpty (registry : Registry) : Bool :=
  registry.sizes.isEmpty

/- Registered variables with their sizes, in increasing order. -/
def toList (registry : Registry) : List (VarId × Nat) :=
  registry.sizes.toList.map fun pair => (pair.1, pair.2.val)

end Registry

end JointMax
