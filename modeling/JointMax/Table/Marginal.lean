import JointMax.Table.Combine

/-
  Marginals: eliminate variables from a table by folding an
  aggregate over them.

  Key definitions include:
    * `Table.scatter`, one pass that folds each value into
      the cell it belongs to
    * `Table.marginal?`
    * `Table.maxMarginal?`, `Table.minMarginal?` and
      `Table.meanMarginal?`
-/

------------------------------------------------------------
-- One Pass
------------------------------------------------------------

namespace JointMax

namespace Table

variable {α : Type} [Scalar α]

/- Fold the next value into a cell; the first one seeds it. -/
def absorb
    (aggregate : α → α → α)
    (next : α) : Option α → Option α
  | none => some next
  | some previous => some (aggregate previous next)

/-
  Cells of the output scope after the values of the input
  have been absorbed in the order of their numbers.
-/
def scatter
    (aggregate : α → α → α)
    (input : Table α)
    (output : Scope) : Array (Option α) :=
  (List.range input.scope.count).foldl
    (fun cells index =>
      cells.modify
        (output.locate input.vars (input.scope.decode index))
        (absorb aggregate (input.cell index)))
    (Array.replicate output.count none)

/-
  Marginal of a table over the scope of another. A cell that
  absorbs nothing keeps the value of the second table.
-/
def marginal?
    (aggregate : α → α → α)
    (input output : Table α) :
    Except Fault (Table α) :=
  if input.scope.includes output.scope then
    if input.scope = output.scope then
      .ok input
    else
      let cells := scatter aggregate input output.scope
      .ok
        { scope := output.scope
          values :=
            output.values.mapIdx fun index old =>
              (cells.getD index none).getD old
          size_eq := by simp [output.size_eq] }
  else
    .error (.badScope (.notSubset output.vars input.vars))

theorem scope_of_marginal?
    {aggregate : α → α → α}
    {input output result : Table α}
    (hResult :
      marginal? aggregate input output = .ok result) :
    result.scope = output.scope := by
  unfold marginal? at hResult
  split at hResult
  · split at hResult
    · rename_i hScope
      cases hResult
      exact hScope
    · cases hResult
      rfl
  · cases hResult

end Table

end JointMax

------------------------------------------------------------
-- Common Aggregates
------------------------------------------------------------

namespace JointMax

namespace Table

variable {α : Type} [Scalar α]

def maxMarginal? (input output : Table α) :
    Except Fault (Table α) :=
  marginal? Scalar.larger input output

def minMarginal? (input output : Table α) :
    Except Fault (Table α) :=
  marginal? Scalar.smaller input output

/-
  Average over the eliminated variables: the values are added
  in order and divided by the number of values in a slice.
-/
def meanMarginal? (input output : Table α) :
    Except Fault (Table α) :=
  (marginal? (· + ·) input output).map fun total =>
    total.withScalar .div
      (Scalar.ofNat (input.values.size / output.values.size))

end Table

end JointMax
