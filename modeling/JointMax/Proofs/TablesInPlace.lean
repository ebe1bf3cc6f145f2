import Mathlib
import JointMax.Proofs.Atomicity
import JointMax.Proofs.GuardedSlices

/-
  Operations that change a table piece by piece. Cells are
  written one after another, and a new scope comes with its
  values. What can be refused is refused before the first
  write, and so each program does to the table what the
  operation does that returns a table or a fault.

  Main declarations:
    * `Table.amendEach`, one write after another
    * `Table.zipInPlace` and `Table.outcome_zipInPlace`
    * `Table.marginalInPlace` and `Table.meanInPlace`, with
      their outcomes
    * `Table.conditionInPlace` and `Table.expandInPlace`,
      with their outcomes
-/

------------------------------------------------------------
-- Single Cells
------------------------------------------------------------

namespace JointMax

namespace Table

open InPlace

variable {α : Type}

/- Change the value of one cell. -/
def amend
    (table : Table α)
    (index : Nat)
    (change : α → α) : Table α where
  scope := table.scope
  values := table.values.modify index change
  size_eq := by rw [Array.size_modify, table.size_eq]

/- Change the cells under the given numbers in turn. -/
def amendEach (change : Nat → α → α) :
    List Nat → InPlace (Table α) Unit
  | [] => pure ()
  | index :: indices => do
      InPlace.change fun here =>
        here.amend index (change index)
      amendEach change indices

theorem outcome_amendEach
    (change : Nat → α → α)
    (indices : List Nat)
    (here : Table α) :
    ∃ last,
      outcome (amendEach change indices) here =
          (.ok (), last) ∧
        last.scope = here.scope ∧
        last.values =
          indices.foldl (fun cells index =>
            cells.modify index (change index))
            here.values := by
  induction indices generalizing here with
  | nil => exact ⟨here, rfl, rfl, rfl⟩
  | cons index indices ih =>
      exact ih (here.amend index (change index))

/- When every cell has had its turn, all are changed. -/
theorem outcome_amendAll
    (change : Nat → α → α)
    (here : Table α) :
    ∃ last,
      outcome
          (amendEach change (List.range here.scope.count))
          here = (.ok (), last) ∧
        last.scope = here.scope ∧
        last.values = here.values.mapIdx change := by
  rcases outcome_amendEach change
      (List.range here.scope.count) here with
    ⟨last, hOutcome, hScope, hValues⟩
  rw [foldl_modify_range change here.size_eq] at hValues
  exact ⟨last, hOutcome, hScope, hValues⟩

end Table

end JointMax

------------------------------------------------------------
-- Combination
------------------------------------------------------------

namespace JointMax

namespace Table

open InPlace

variable {α : Type} [Scalar α]

/-
  Combine another table into the one that is there. If its
  scope has to grow, the combination takes its place.
-/
def zipInPlace
    (op : α → α → α)
    (right : Table α) : InPlace (Table α) Unit := do
  let here ← get
  if here.scope = right.scope then
    amendEach (fun index value => op value (right.cell index))
      (List.range here.scope.count)
  else if here.scope.includes right.scope then
    amendEach
      (fun index value =>
        op value
          (right.along here.vars (here.scope.decode index)))
      (List.range here.scope.count)
  else
    let union ← zipWith? op here right
    set union

theorem zipWith_eq_mapIdx
    {op : α → α → α}
    {left right : Table α}
    (hScope : left.scope = right.scope) :
    Array.zipWith op left.values right.values =
      left.values.mapIdx fun index value =>
        op value (right.cell index) := by
  have hSizes : left.values.size = right.values.size := by
    rw [left.size_eq, right.size_eq, hScope]
  apply Array.ext
  · simp [hSizes]
  · intro index hIndex hOther
    have hInside : index < right.values.size := by
      rw [← hSizes]
      simpa using hOther
    simp [Table.cell, hInside]

theorem outcome_zipInPlace
    (op : α → α → α)
    (right here : Table α) :
    outcome (zipInPlace op right) here =
      concluded here (zipInto? op here right) := by
  unfold zipInPlace zipInto?
  rw [outcome_get_bind]
  split
  · rename_i hScope
    rcases outcome_amendAll
        (fun index value => op value (right.cell index))
        here with
      ⟨last, hOutcome, hSame, hValues⟩
    rw [hOutcome, concluded]
    refine Prod.ext rfl (Table.ext hSame ?_)
    rw [hValues]
    exact (zipWith_eq_mapIdx hScope).symm
  · split
    · rcases outcome_amendAll
          (fun index value =>
            op value
              (right.along here.vars
                (here.scope.decode index)))
          here with
        ⟨last, hOutcome, hSame, hValues⟩
      rw [hOutcome, concluded]
      exact Prod.ext rfl (Table.ext hSame hValues)
    · rw [outcome_lift_bind]
      cases zipWith? op here right <;> rfl

end Table

end JointMax

------------------------------------------------------------
-- Marginals
------------------------------------------------------------

namespace JointMax

namespace Table

open InPlace

variable {α : Type} [Scalar α]

/-
  Fold the values of an input, in the given order, into the
  cells that they belong to. Cells that have been seeded are
  marked; they are no part of the table.
-/
def absorbEach
    (aggregate : α → α → α)
    (input : Table α) :
    List Nat → Array Bool → InPlace (Table α) Unit
  | [], _ => pure ()
  | index :: indices, seeded => do
      let here ← get
      let place :=
        here.scope.locate input.vars
          (input.scope.decode index)
      let value := input.cell index
      if seeded.getD place false then
        InPlace.change fun here =>
          here.amend place (aggregate · value)
        absorbEach aggregate input indices seeded
      else
        InPlace.change fun here =>
          here.amend place fun _ => value
        absorbEach aggregate input indices
          (seeded.modify place fun _ => true)

/- The marginal of an input, over the scope that is there. -/
def marginalInPlace
    (aggregate : α → α → α)
    (input : Table α) : InPlace (Table α) Unit := do
  let here ← get
  if input.scope.includes here.scope then
    if input.scope = here.scope then
      amendEach (fun index _ => input.cell index)
        (List.range here.scope.count)
    else
      absorbEach aggregate input
        (List.range input.scope.count)
        (Array.replicate here.scope.count false)
  else
    throw (.badScope (.notSubset here.vars input.vars))

/- Each sum is divided where it stands. -/
def meanInPlace (input : Table α) :
    InPlace (Table α) Unit := do
  marginalInPlace (· + ·) input
  let here ← get
  let share : α :=
    Scalar.ofNat (input.values.size / here.values.size)
  amendEach (fun _ value => Op.div.apply value share)
    (List.range here.scope.count)

/- Cells that are all replaced are those of the other table. -/
theorem mapIdx_cell
    {table other : Table α}
    (hScope : table.scope = other.scope) :
    (table.values.mapIdx fun index _ => other.cell index) =
      other.values := by
  have hSizes : table.values.size = other.values.size := by
    rw [table.size_eq, other.size_eq, hScope]
  apply Array.ext
  · simpa using hSizes
  · intro index _ hInside
    simp [Table.cell, hInside]

/-
  While values are absorbed, the cells of the table are those
  that the pass over the input has so far.
-/
theorem outcome_absorbEach
    (aggregate : α → α → α)
    {input here : Table α}
    {old : Array α}
    {indices : List Nat}
    {seeded : Array Bool}
    {cells : Array (Option α)}
    (hInside : ∀ index ∈ indices,
      here.scope.locate input.vars
        (input.scope.decode index) < old.size)
    (hAbsorbed :
      Guarded.Absorbed old (seeded, here.values) cells) :
    ∃ last,
      outcome (absorbEach aggregate input indices seeded)
          here = (.ok (), last) ∧
        last.scope = here.scope ∧
        last.values =
          Guarded.settle old
            (indices.foldl (fun cells index =>
              cells.modify
                (here.scope.locate input.vars
                  (input.scope.decode index))
                (absorb aggregate (input.cell index)))
              cells) := by
  induction indices generalizing here seeded cells with
  | nil => exact ⟨here, rfl, rfl, hAbsorbed.values_eq⟩
  | cons index indices ih =>
      rw [List.forall_mem_cons] at hInside
      let place :=
        here.scope.locate input.vars
          (input.scope.decode index)
      have hPlace : place < cells.size := by
        rw [hAbsorbed.size_eq]
        exact hInside.1
      have hCell : cells[place]? = some cells[place] :=
        Array.getElem?_eq_getElem hPlace
      have hSeen : seeded.getD place false =
          cells[place].isSome := by
        rw [Array.getD_eq_getD_getElem?,
          hAbsorbed.seeded_at hCell]
        rfl
      simp only [absorbEach, List.foldl_cons]
      rw [outcome_get_bind]
      change ∃ last,
        outcome (if seeded.getD place false then _ else _)
          here = _ ∧ _
      rw [hSeen]
      cases hFound : cells[place] with
      | none =>
          rw [hFound] at hCell
          exact ih hInside.2 (hAbsorbed.seed hCell)
      | some previous =>
          rw [hFound] at hCell
          exact ih hInside.2 (hAbsorbed.fold hCell)

theorem outcome_marginalInPlace
    (aggregate : α → α → α)
    (input here : Table α) :
    outcome (marginalInPlace aggregate input) here =
      concluded here (marginal? aggregate input here) := by
  unfold marginalInPlace marginal?
  rw [outcome_get_bind]
  by_cases hIncludes :
      input.scope.includes here.scope = true
  · rw [if_pos hIncludes, if_pos hIncludes]
    split
    · rename_i hScope
      rcases outcome_amendAll
          (fun index _ => input.cell index) here with
        ⟨last, hOutcome, hSame, hValues⟩
      rw [hOutcome, concluded]
      refine Prod.ext rfl
        (Table.ext (hSame.trans hScope.symm) ?_)
      rw [hValues]
      exact mapIdx_cell hScope.symm
    · have hInside : ∀ index ∈ List.range input.scope.count,
          here.scope.locate input.vars
            (input.scope.decode index) <
              here.values.size := by
        intro index hIndex
        rw [here.size_eq]
        exact Scope.locate_decode_lt hIncludes
          (List.mem_range.mp hIndex)
      have hStart :=
        Guarded.Absorbed.start here.values
      rw [here.size_eq] at hStart
      rcases outcome_absorbEach aggregate hInside hStart with
        ⟨last, hOutcome, hSame, hValues⟩
      rw [hOutcome]
      exact Prod.ext rfl (Table.ext hSame hValues)
  · rw [if_neg hIncludes, if_neg hIncludes]
    rfl

theorem outcome_meanInPlace (input here : Table α) :
    outcome (meanInPlace input) here =
      concluded here (meanMarginal? input here) := by
  rw [meanInPlace, outcome_bind, outcome_marginalInPlace,
    meanMarginal?]
  cases hTotal : marginal? (· + ·) input here with
  | error fault => rfl
  | ok total =>
      have hSizes : total.values.size = here.values.size := by
        rw [total.size_eq, here.size_eq,
          scope_of_marginal? hTotal]
      let share : α :=
        Scalar.ofNat (input.values.size / total.values.size)
      rcases outcome_amendAll
          (fun _ value => Op.div.apply value share) total with
        ⟨last, hOutcome, hSame, hValues⟩
      dsimp only [concluded]
      rw [outcome_get_bind, hOutcome, ← hSizes]
      refine Prod.ext rfl (Table.ext hSame ?_)
      rw [hValues]
      change _ = (total.withScalar .div share).values
      apply Array.ext_getElem?
      intro index
      simp [withScalar, map]

end Table

end JointMax

------------------------------------------------------------
-- Slices and Expansions
------------------------------------------------------------

namespace JointMax

namespace Table

open InPlace

variable {α : Type} [Scalar α]

/- Where nothing is pinned, nothing is put in the place. -/
def conditionInPlace (condition : Odometer.Condition) :
    InPlace (Table α) Unit := do
  let here ← get
  let odometer ←
    (Odometer.start here.scope).meet? condition
  if odometer.pinnedCount ≠ 0 then
    set (here.slice odometer)

def expandInPlace (scope : Scope) :
    InPlace (Table α) Unit := do
  let here ← get
  let union ← here.scope.union? scope
  if union.length ≠ here.scope.length then
    set (here.broadcast union)

theorem outcome_conditionInPlace
    (condition : Odometer.Condition)
    (here : Table α) :
    outcome (conditionInPlace condition) here =
      concluded here
        (((Odometer.start here.scope).meet? condition).map
          here.slice) := by
  rw [conditionInPlace, outcome_get_bind, outcome_lift_bind]
  cases (Odometer.start here.scope).meet? condition with
  | error fault => rfl
  | ok odometer =>
      by_cases hNone : odometer.pinnedCount = 0
      · simp only [Except.map, concluded, slice, hNone,
          ne_eq, not_true_eq_false, if_false, if_true]
        rfl
      · simp only [ne_eq, hNone, not_false_eq_true, if_true]
        rfl

theorem outcome_expandInPlace
    (scope : Scope)
    (here : Table α) :
    outcome (expandInPlace scope) here =
      concluded here (here.expand? scope) := by
  rw [expandInPlace, outcome_get_bind, outcome_lift_bind,
    expand?]
  cases here.scope.union? scope with
  | error fault => rfl
  | ok union =>
      by_cases hSame : union.length = here.scope.length
      · simp only [Except.map, concluded, hSame, ne_eq,
          not_true_eq_false, if_false, if_true]
        rfl
      · simp only [Except.map, concluded, hSame, ne_eq,
          not_false_eq_true, if_true, if_false]
        rfl

end Table

end JointMax
