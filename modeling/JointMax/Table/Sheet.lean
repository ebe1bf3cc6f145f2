import JointMax.Scope.Words
import JointMax.Table.Basic

/-
  Values listed over a scope, counted in machine words. The
  number of joint values may wrap around, so that a sheet may
  have fewer values than its scope has joint values. It is a
  table just if it has as many.

  Key definitions include:
    * `Sheet`
    * `Sheet.ofValues?`
    * `Sheet.table?` and `Sheet.ofTable?`
-/

------------------------------------------------------------
-- Sheets
------------------------------------------------------------

namespace JointMax

/- As many values as a word can tell that there should be. -/
@[ext] structure Sheet (α : Type) where
  scope : Scope
  values : Array α
  size_eq : values.size = scope.count % wordLimit
deriving DecidableEq

namespace Sheet

variable {α : Type}

/- Listed values, as many as the scope has joint values. -/
def ofValues?
    (build : Build)
    (scope : Scope)
    (values : Array α) :
    Option (Except Fault (Sheet α)) :=
  match hTotal : scope.countWord? build with
  | some total =>
      if hSize : values.size = total then
        some (.ok ⟨scope, values,
          hSize.trans (Scope.eq_mod_of_countWord? hTotal)⟩)
      else
        some (.error (.valueCount total values.size))
  | none => none

/- The table that a sheet is, if no value is missing. -/
def table? (sheet : Sheet α) : Option (Table α) :=
  if hSize : sheet.values.size = sheet.scope.count then
    some ⟨sheet.scope, sheet.values, hSize⟩
  else
    none

/- A table whose joint values are counted by a word. -/
def ofTable? (table : Table α) : Option (Sheet α) :=
  if hWords : table.scope.count < wordLimit then
    some ⟨table.scope, table.values, by
      rw [Nat.mod_eq_of_lt hWords]
      exact table.size_eq⟩
  else
    none

def vars (sheet : Sheet α) : List VarId :=
  sheet.scope.vars

end Sheet

end JointMax
