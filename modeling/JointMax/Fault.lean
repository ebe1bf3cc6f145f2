/-
  What can be refused, by cause. Every refusal carries the
  data that its text names; the wording is in
  `Fault.message` alone.

  Key definitions include:
    * `VarId`, `FactorId`
    * `Mismatch`, the ways in which lists and scopes fail to
      fit each other
    * `Fault` and `Fault.message`
-/

------------------------------------------------------------
-- Identifiers
------------------------------------------------------------

namespace JointMax

/- Names of variables, in 32 bits. -/
abbrev VarId := UInt32

/- Names of factors, in 32 bits. -/
abbrev FactorId := UInt32

end JointMax

------------------------------------------------------------
-- Causes
------------------------------------------------------------

namespace JointMax

/- Lists or scopes that do not fit each other. -/
inductive Mismatch where
  | sizeCount (vars sizes : Nat)
  | notIncreasing (vars : List VarId)
  | unionConflict (var : VarId) (first second : Nat)
  | scopeDigitCount (digits vars : Nat)
  | digitCount (vars digits : Nat)
  | missing (var : VarId)
  | dimensionCount (digits dimensions : Nat)
  | conditionCount (vars digits : Nat)
  | notSubset (output input : List VarId)
deriving DecidableEq, Repr

/- Why an operation is refused. -/
inductive Fault where
  | unknownVariable (var : VarId)
  | sizeConflict (var : VarId) (registered requested : Nat)
  | zeroSize (var : VarId)
  | badScope (mismatch : Mismatch)
  | digitOutOfRange (var : VarId) (digit size : Nat)
  | dimensionOutOfRange (dimension digit size : Nat)
  | indexOutOfRange (index size : Nat)
  | valueCount (expected got : Nat)
deriving DecidableEq, Repr

end JointMax

------------------------------------------------------------
-- Wording
------------------------------------------------------------

namespace JointMax

/- A list in square brackets, separated by commas. -/
def bracketed (items : List String) : String :=
  "[" ++ ", ".intercalate items ++ "]"

def showVars (vars : List VarId) : String :=
  bracketed (vars.map toString)

def showSizes (sizes : List Nat) : String :=
  bracketed (sizes.map toString)

namespace Mismatch

def message : Mismatch → String
  | sizeCount vars sizes =>
      s!"{vars} variables but {sizes} domain sizes"
  | notIncreasing vars =>
      "variable list " ++ showVars vars ++
        " is not strictly increasing"
  | unionConflict var first second =>
      s!"variable {var} has domain size {first} in one function and {second} in the other"
  | scopeDigitCount digits vars =>
      s!"{digits} sub-indices for a domain of {vars} variables"
  | digitCount vars digits =>
      s!"{vars} variables but {digits} sub-indices"
  | missing var =>
      s!"no index given for variable {var}"
  | dimensionCount digits dimensions =>
      s!"{digits} sub-indices for {dimensions} dimensions"
  | conditionCount vars digits =>
      s!"{vars} variables but {digits} values to condition on"
  | notSubset output input =>
      "output domain " ++ showVars output ++
        " is not a subset of input domain " ++ showVars input

end Mismatch

namespace Fault

def message : Fault → String
  | unknownVariable var =>
      s!"Variable {var} is not registered."
  | sizeConflict var registered requested =>
      s!"Variable {var} is registered with domain size {registered}, cannot re-register it with size {requested}."
  | zeroSize var =>
      s!"Variable {var} cannot have an empty domain."
  | badScope mismatch =>
      "Bad domain: " ++ mismatch.message
  | digitOutOfRange var digit size =>
      s!"Sub-index {digit} out of range for variable {var} (domain size {size})."
  | dimensionOutOfRange dimension digit size =>
      s!"Sub-index {digit} out of range for dimension {dimension} (size {size})."
  | indexOutOfRange index size =>
      s!"Linear index {index} out of range (domain size {size})."
  | valueCount expected got =>
      s!"Wrong number of values: got {got}, expected {expected}."

end Fault

end JointMax

------------------------------------------------------------
-- Accepted Results
------------------------------------------------------------

namespace JointMax

theorem eq_ok_of_mapError
    {ε δ β : Type}
    {result : Except ε β}
    {f : ε → δ}
    {value : β}
    (hResult : result.mapError f = .ok value) :
    result = .ok value := by
  cases result with
  | error cause => cases hResult
  | ok found =>
      cases hResult
      rfl

theorem exists_of_map_eq_ok
    {ε β γ : Type}
    {result : Except ε β}
    {f : β → γ}
    {value : γ}
    (hResult : result.map f = .ok value) :
    ∃ found, result = .ok found ∧ f found = value := by
  cases result with
  | error fault => cases hResult
  | ok found =>
      cases hResult
      exact ⟨found, rfl, rfl⟩

theorem exists_of_bind_eq_ok
    {ε β γ : Type}
    {first : Except ε β}
    {next : β → Except ε γ}
    {value : γ}
    (hResult : first >>= next = .ok value) :
    ∃ found, first = .ok found ∧ next found = .ok value := by
  cases first with
  | error cause => cases hResult
  | ok found => exact ⟨found, rfl, hResult⟩

end JointMax
