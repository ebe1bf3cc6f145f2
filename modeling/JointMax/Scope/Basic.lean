import JointMax.MixedRadix
import JointMax.Registry

/-
  Scopes: the variables that a function depends on, in
  strictly increasing order, each with its positive number
  of values.

  Key definitions include:
    * `Axis` and `Scope`
    * `Scope.ofParts?`, from a variable list and its sizes
    * `Scope.ofVars?`, sizes read from a registry
    * `Scope.filter`
-/

------------------------------------------------------------
-- Axes
------------------------------------------------------------

namespace JointMax

/- One variable of a scope, with its number of values. -/
structure Axis where
  var : VarId
  size : Nat
  size_pos : 0 < size
deriving DecidableEq

/- Variable lists without repetition, in increasing order. -/
abbrev Increasing (vars : List VarId) : Prop :=
  vars.Pairwise (· < ·)

namespace Axis

/- Axes in the increasing order of their variables. -/
abbrev Sorted (axes : List Axis) : Prop :=
  axes.Pairwise fun a b => a.var < b.var

theorem sorted_iff {axes : List Axis} :
    Sorted axes ↔ Increasing (axes.map Axis.var) := by
  simp [List.pairwise_map]

/- Pair variables with sizes, refusing the first zero size. -/
def ofParts? : List VarId → List Nat → Except Fault (List Axis)
  | var :: vars, size :: sizes =>
      if hPos : 0 < size then do
        let rest ← ofParts? vars sizes
        return ⟨var, size, hPos⟩ :: rest
      else
        .error (.zeroSize var)
  | _, _ => .ok []

/- Read sizes from a registry, refusing the first stranger. -/
def resolve?
    (registry : Registry) :
    List VarId → Except Fault (List Axis)
  | [] => .ok []
  | var :: vars =>
      match registry.size? var with
      | .ok size => do
          let rest ← resolve? registry vars
          return ⟨var, size.val, size.property⟩ :: rest
      | .error fault => .error fault

theorem map_var_ofParts?
    {vars : List VarId}
    {sizes : List Nat}
    {axes : List Axis}
    (hLength : vars.length = sizes.length)
    (hAxes : ofParts? vars sizes = .ok axes) :
    axes.map Axis.var = vars := by
  induction vars generalizing sizes axes with
  | nil =>
      cases hAxes
      rfl
  | cons var vars ih =>
      cases sizes with
      | nil => simp at hLength
      | cons size sizes =>
          simp only [ofParts?] at hAxes
          split at hAxes
          · cases hRest : ofParts? vars sizes with
            | error fault =>
                rw [hRest] at hAxes
                cases hAxes
            | ok rest =>
                rw [hRest] at hAxes
                cases hAxes
                simp [ih (by simpa using hLength) hRest]
          · cases hAxes

theorem map_var_resolve?
    {registry : Registry}
    {vars : List VarId}
    {axes : List Axis}
    (hAxes : resolve? registry vars = .ok axes) :
    axes.map Axis.var = vars := by
  induction vars generalizing axes with
  | nil =>
      cases hAxes
      rfl
  | cons var vars ih =>
      simp only [resolve?] at hAxes
      split at hAxes
      · cases hRest : resolve? registry vars with
        | error fault =>
            rw [hRest] at hAxes
            cases hAxes
        | ok rest =>
            rw [hRest] at hAxes
            cases hAxes
            simp [ih hRest]
      · cases hAxes

end Axis

end JointMax

------------------------------------------------------------
-- Sorted Variable Lists
------------------------------------------------------------

namespace JointMax

/- Put a variable into its place, unless it is there. -/
def insertVar (var : VarId) : List VarId → List VarId
  | [] => [var]
  | head :: tail =>
      if var < head then var :: head :: tail
      else if var = head then head :: tail
      else head :: insertVar var tail

/- Sort a variable list and drop repetitions. -/
def sortVars (vars : List VarId) : List VarId :=
  vars.foldr insertVar []

theorem mem_insertVar
    {var other : VarId}
    {vars : List VarId} :
    other ∈ insertVar var vars ↔
      other = var ∨ other ∈ vars := by
  induction vars with
  | nil => simp [insertVar]
  | cons head tail ih => grind [insertVar]

theorem increasing_insertVar
    {var : VarId}
    {vars : List VarId}
    (hVars : Increasing vars) :
    Increasing (insertVar var vars) := by
  induction vars with
  | nil => simp [insertVar]
  | cons head tail ih =>
      rcases List.pairwise_cons.mp hVars with
        ⟨hHead, hTail⟩
      simp only [insertVar]
      split
      · rename_i hBelow
        refine List.pairwise_cons.mpr ⟨?_, hVars⟩
        intro other hOther
        rcases List.mem_cons.mp hOther with rfl | hOther
        · exact hBelow
        · exact UInt32.lt_trans hBelow (hHead other hOther)
      · split
        · exact hVars
        · rename_i hNotBelow hNe
          refine List.pairwise_cons.mpr ⟨?_, ih hTail⟩
          intro other hOther
          rcases mem_insertVar.mp hOther with rfl | hOther
          · exact UInt32.lt_of_le_of_ne
              (UInt32.not_lt.mp hNotBelow) (Ne.symm hNe)
          · exact hHead other hOther

theorem increasing_sortVars (vars : List VarId) :
    Increasing (sortVars vars) := by
  induction vars with
  | nil => exact List.Pairwise.nil
  | cons var vars ih => exact increasing_insertVar ih

theorem mem_sortVars
    {var : VarId}
    {vars : List VarId} :
    var ∈ sortVars vars ↔ var ∈ vars := by
  induction vars with
  | nil => simp [sortVars]
  | cons head tail ih =>
      simp only [sortVars, List.foldr_cons] at ih ⊢
      simp [mem_insertVar, ih]

end JointMax

------------------------------------------------------------
-- Scopes
------------------------------------------------------------

namespace JointMax

/- Axes in the strictly increasing order of their variables. -/
@[ext] structure Scope where
  axes : List Axis
  sorted : Axis.Sorted axes
deriving DecidableEq

namespace Scope

/- The scope of a constant. -/
def empty : Scope := ⟨[], List.Pairwise.nil⟩

def ofAxis (axis : Axis) : Scope :=
  ⟨[axis], List.pairwise_singleton ..⟩

/-
  Scope of an increasing variable list with aligned sizes.
  The lengths are compared first, then the order is checked,
  then the sizes.
-/
def ofParts?
    (vars : List VarId)
    (sizes : List Nat) :
    Except Fault Scope :=
  if hLength : vars.length = sizes.length then
    if hSorted : Increasing vars then
      match hAxes : Axis.ofParts? vars sizes with
      | .ok axes =>
          .ok ⟨axes, Axis.sorted_iff.mpr (by
            rwa [Axis.map_var_ofParts? hLength hAxes])⟩
      | .error fault => .error fault
    else
      .error (.badScope (.notIncreasing vars))
  else
    .error (.badScope
      (.sizeCount vars.length sizes.length))

/-
  Scope of registered variables, given in any order and with
  any repetition.
-/
def ofVars?
    (registry : Registry)
    (vars : List VarId) :
    Except Fault Scope :=
  match hAxes : Axis.resolve? registry (sortVars vars) with
  | .ok axes =>
      .ok ⟨axes, Axis.sorted_iff.mpr (by
        rw [Axis.map_var_resolve? hAxes]
        exact increasing_sortVars vars)⟩
  | .error fault => .error fault

/- Scope of one registered variable. -/
def ofVar?
    (registry : Registry)
    (var : VarId) :
    Except Fault Scope :=
  (registry.size? var).map fun size =>
    ofAxis ⟨var, size.val, size.property⟩

/- The axes that a test on variables keeps. -/
def filter (scope : Scope) (keep : VarId → Bool) : Scope :=
  ⟨scope.axes.filter fun axis => keep axis.var,
    scope.sorted.filter _⟩

end Scope

end JointMax

------------------------------------------------------------
-- Queries
------------------------------------------------------------

namespace JointMax

namespace Scope

def vars (scope : Scope) : List VarId :=
  scope.axes.map Axis.var

def sizes (scope : Scope) : List Nat :=
  scope.axes.map Axis.size

/- Number of variables. -/
def length (scope : Scope) : Nat :=
  scope.axes.length

def isEmpty (scope : Scope) : Bool :=
  scope.axes.isEmpty

/- Number of joint values. -/
def count (scope : Scope) : Nat :=
  MixedRadix.count scope.sizes

def axis? (scope : Scope) (var : VarId) : Option Axis :=
  scope.axes.find? fun axis => axis.var == var

def position? (scope : Scope) (var : VarId) : Option Nat :=
  scope.vars.idxOf? var

def contains (scope : Scope) (var : VarId) : Bool :=
  scope.vars.contains var

def sizeOf? (scope : Scope) (var : VarId) : Option Nat :=
  (scope.axis? var).map Axis.size

theorem increasing_vars (scope : Scope) :
    Increasing scope.vars :=
  Axis.sorted_iff.mp scope.sorted

theorem count_pos (scope : Scope) : 0 < scope.count := by
  apply MixedRadix.count_pos
  intro size hSize
  rcases List.mem_map.mp hSize with ⟨axis, _, rfl⟩
  exact axis.size_pos

end Scope

end JointMax
