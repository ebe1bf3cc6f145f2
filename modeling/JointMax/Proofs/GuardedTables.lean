import Mathlib
import JointMax.Proofs.GuardedScopes
import JointMax.Proofs.Loops

/-
  The operations on tables with everything checked that they
  take for granted: that a cell is there when it is read or
  written, that a scope includes another one, that arrays are
  of one length, that numbers are machine words, and that as
  many values come out as the scope has joint values. Each
  one breaks off at a failed check. None of them does, and
  they do what the operations of the same names do.

  Main declarations:
    * `Guarded.pack` and `Guarded.gather`
    * `Guarded.filled`, `Guarded.ofValues` and
      `Guarded.tabulate`
    * `Guarded.zipWith` and `Guarded.zipInto`
    * `Guarded.broadcast` and `Guarded.expand`
    * `Guarded.addAll`
-/

------------------------------------------------------------
-- Cells of Tables
------------------------------------------------------------

namespace JointMax

namespace Guarded

variable {α : Type} [Scalar α]

/- A table, if there is one value for each joint value. -/
def pack (scope : Scope) (values : Array α) :
    Option (Table α) :=
  if hSize : values.size = scope.count then
    some ⟨scope, values, hSize⟩
  else
    none

omit [Scalar α] in
theorem pack_eq (table : Table α) :
    pack table.scope table.values = some table := by
  rw [pack, dif_pos table.size_eq]

omit [Scalar α] in
theorem pack_of_eq
    {table : Table α}
    {values : Array α}
    (hValues : values = table.values) :
    pack table.scope values = some table := by
  rw [hValues, pack_eq]

theorem getElem?_values
    {table : Table α}
    {index : Nat}
    (hIndex : index < table.scope.count) :
    table.values[index]? = some (table.cell index) := by
  have hInside : index < table.values.size := by
    rwa [table.size_eq]
  rw [Table.cell_eq_getElem hInside]
  exact Array.getElem?_eq_getElem hInside

/- Read a table where an odometer over more variables is. -/
def valueAt (table : Table α) (position : Odometer) :
    Option α := do
  let index ←
    table.scope.locate? position.vars position.digits
  table.values[index]?

theorem valueAt_eq
    {table : Table α}
    {position : Odometer}
    (hIncludes :
      position.scope.includes table.scope = true)
    (hWords : position.scope.count < wordLimit)
    (hIndex : position.index < position.scope.count)
    (hDigits :
      position.digits =
        position.scope.decode position.index) :
    valueAt table position =
      some (table.along position.vars position.digits) := by
  have hPart :=
    (Scope.count_le_of_includes hIncludes).trans_lt hWords
  rcases Scope.locate?_decode hIncludes hPart hIndex with
    ⟨hLocate, hInside⟩
  rw [← hDigits] at hLocate hInside
  rw [valueAt, Odometer.vars, hLocate]
  exact getElem?_values hInside

/- Put a value into the cell of a position. -/
def deposit
    (value : Odometer → Option α)
    (position : Odometer)
    (values : Array α) : Option (Array α) := do
  let found ← value position
  amend? values position.index fun _ => found

/- Values put into the cells of a fresh table one by one. -/
def gather
    (scope : Scope)
    (value : Odometer → Option α) : Option (Table α) := do
  let count ← scope.product?
  let values ← Odometer.loopOver? scope (deposit value)
    (Array.replicate count Scalar.zero)
  pack scope values

theorem gather_eq
    {scope : Scope}
    {value : Odometer → Option α}
    {f : List Nat → α}
    (hWords : scope.count < wordLimit)
    (hValue : ∀ position : Odometer,
      position.scope = scope →
      position.index < scope.count →
      position.digits = scope.decode position.index →
        value position = some (f position.digits)) :
    gather scope value = some (Table.tabulate scope f) := by
  let change : Nat → α → α :=
    fun index _ => f (scope.decode index)
  have hLoop :
      Odometer.loopOver? scope (deposit value)
          (Array.replicate scope.count Scalar.zero) =
        some ((Array.replicate scope.count
          Scalar.zero).mapIdx change) := by
    apply Odometer.loopOver?_amend hWords Array.size_replicate
    intro position hScope hIndex hDigits values
    rw [deposit, hValue position hScope hIndex hDigits,
      hDigits]
    rfl
  simp only [gather, Scope.product?_eq hWords,
    Option.bind_eq_bind, Option.bind_some, hLoop]
  apply @pack_of_eq _ (Table.tabulate scope f)
  apply Array.ext
  · simp [Table.tabulate]
  · intro index hFirst hSecond
    simp [Table.tabulate, change]

end Guarded

end JointMax

------------------------------------------------------------
-- Constructors
------------------------------------------------------------

namespace JointMax

namespace Guarded

variable {α : Type} [Scalar α]

def filled (scope : Scope) (value : α) :
    Option (Table α) := do
  let count ← scope.product?
  pack scope (Array.replicate count value)

def ofValues (scope : Scope) (values : Array α) :
    Option (Except Fault (Table α)) := do
  let count ← scope.product?
  if values.size = count then
    (pack scope values).map .ok
  else
    return .error (.valueCount count values.size)

def tabulate (scope : Scope) (f : List Nat → α) :
    Option (Table α) :=
  gather scope fun position => some (f position.digits)

variable {scope : Scope}

omit [Scalar α] in
theorem filled_eq
    (hWords : scope.count < wordLimit)
    (value : α) :
    filled scope value = some (Table.filled scope value) := by
  simp only [filled, Scope.product?_eq hWords,
    Option.bind_eq_bind, Option.bind_some]
  exact pack_eq (Table.filled scope value)

omit [Scalar α] in
theorem ofValues_eq
    (hWords : scope.count < wordLimit)
    (values : Array α) :
    ofValues scope values =
      some (Table.ofValues? scope values) := by
  simp only [ofValues, Scope.product?_eq hWords,
    Option.bind_eq_bind, Option.bind_some,
    Table.ofValues?]
  split
  · rename_i hSize
    rw [pack, dif_pos hSize]
    rfl
  · rfl

theorem tabulate_eq
    (hWords : scope.count < wordLimit)
    (f : List Nat → α) :
    tabulate scope f = some (Table.tabulate scope f) :=
  gather_eq hWords fun _ _ _ _ => rfl

end Guarded

end JointMax

------------------------------------------------------------
-- Combination and Expansion
------------------------------------------------------------

namespace JointMax

namespace Guarded

variable {α : Type} [Scalar α]

/- Cell by cell, for arrays of one length. -/
def zipCells
    (op : α → α → α)
    (left right : Table α) : Option (Table α) :=
  if left.values.size = right.values.size then
    pack left.scope
      (Array.zipWith op left.values right.values)
  else
    none

def zipWith
    (op : α → α → α)
    (left right : Table α) :
    Option (Except Fault (Table α)) :=
  if left.scope = right.scope then
    (zipCells op left right).map .ok
  else do
    match ← union left.scope right.scope with
    | .error fault => return .error fault
    | .ok union =>
        (gather union fun position => do
          let first ← valueAt left position
          let second ← valueAt right position
          return op first second).map .ok

/- Combine the cell of a position with another table. -/
def combineCell
    (op : α → α → α)
    (right : Table α)
    (position : Odometer)
    (values : Array α) : Option (Array α) := do
  let other ← valueAt right position
  amend? values position.index fun old => op old other

def zipInto
    (op : α → α → α)
    (left right : Table α) :
    Option (Except Fault (Table α)) :=
  if left.scope = right.scope then
    (zipCells op left right).map .ok
  else if left.scope.includes right.scope then do
    let values ←
      Odometer.loopOver? left.scope (combineCell op right)
        left.values
    (pack left.scope values).map .ok
  else
    zipWith op left right

/- The copy asserts that the target includes the scope. -/
def broadcast (table : Table α) (target : Scope) :
    Option (Table α) :=
  if target.includes table.scope then
    gather target (valueAt table)
  else
    none

def expand (table : Table α) (scope : Scope) :
    Option (Except Fault (Table α)) := do
  match ← union table.scope scope with
  | .error fault => return .error fault
  | .ok union =>
      if union.length = table.scope.length then
        some (.ok table)
      else
        (broadcast table union).map .ok

def addEach :
    Table α → List (Table α) →
      Option (Except Fault (Table α))
  | total, [] => some (.ok total)
  | total, table :: tables => do
      match ← zipInto (· + ·) total table with
      | .ok next => addEach next tables
      | .error fault => return .error fault

def addAll (total : Table α) (tables : List (Table α)) :
    Option (Except Fault (Table α)) := do
  match ← unionAll total.scope (tables.map Table.scope) with
  | .error fault => return .error fault
  | .ok union => do
      match ← expand total union with
      | .ok expanded => addEach expanded tables
      | .error fault => return .error fault

variable {left right table : Table α}

omit [Scalar α] in
theorem zipCells_eq
    (op : α → α → α)
    (hScope : left.scope = right.scope) :
    zipCells op left right =
      some (Table.zipCells op left right hScope) := by
  have hSize : left.values.size = right.values.size := by
    rw [left.size_eq, right.size_eq, hScope]
  rw [zipCells, if_pos hSize]
  exact pack_eq (Table.zipCells op left right hScope)

theorem zipWith_eq
    (op : α → α → α)
    (hWords : ∀ union,
      left.scope.union? right.scope = .ok union →
        union.count < wordLimit) :
    zipWith op left right =
      some (Table.zipWith? op left right) := by
  unfold zipWith Table.zipWith?
  by_cases hScope : left.scope = right.scope
  · rw [if_pos hScope, dif_pos hScope, zipCells_eq op hScope]
    rfl
  · rw [if_neg hScope, dif_neg hScope, union_eq]
    cases hUnion : left.scope.union? right.scope with
    | error fault => rfl
    | ok union =>
        rcases Scope.includes_of_union? hUnion with
          ⟨hLeft, hRight⟩
        have hBound := hWords union hUnion
        have hGather :
            (gather union fun position => do
              let first ← valueAt left position
              let second ← valueAt right position
              return op first second) =
              some (Table.tabulate union fun digits =>
                op (left.along union.vars digits)
                  (right.along union.vars digits)) := by
          apply gather_eq hBound
          rintro position rfl hIndex hDigits
          rw [valueAt_eq hLeft hBound hIndex hDigits,
            valueAt_eq hRight hBound hIndex hDigits]
          rfl
        exact congrArg (Option.map Except.ok) hGather

theorem zipInto_eq
    (op : α → α → α)
    (hWords : ∀ union,
      left.scope.union? right.scope = .ok union →
        union.count < wordLimit) :
    zipInto op left right =
      some (Table.zipInto? op left right) := by
  unfold zipInto Table.zipInto?
  by_cases hScope : left.scope = right.scope
  · rw [if_pos hScope, dif_pos hScope, zipCells_eq op hScope]
    rfl
  · rw [if_neg hScope, dif_neg hScope]
    by_cases hIncludes :
        left.scope.includes right.scope = true
    · rw [if_pos hIncludes, if_pos hIncludes]
      have hBound :=
        hWords left.scope (Scope.union?_of_includes hIncludes)
      have hLoop :
          Odometer.loopOver? left.scope
              (combineCell op right) left.values =
            some (Table.zipIncluded op left right).values := by
        apply Odometer.loopOver?_amend hBound left.size_eq
        intro position hPosition hIndex hDigits values
        rw [← hPosition] at hIncludes hBound hIndex hDigits
        rw [combineCell, valueAt_eq hIncludes hBound hIndex
          hDigits, hDigits, Odometer.vars, hPosition]
        rfl
      rw [hLoop]
      change
        (pack (Table.zipIncluded op left right).scope
          (Table.zipIncluded op left right).values).map
            Except.ok = _
      rw [pack_eq]
      rfl
    · rw [if_neg hIncludes, if_neg hIncludes]
      exact zipWith_eq op hWords

theorem broadcast_eq
    {target : Scope}
    (hIncludes : target.includes table.scope = true)
    (hWords : target.count < wordLimit) :
    broadcast table target =
      some (table.broadcast target) := by
  rw [broadcast, if_pos hIncludes]
  apply gather_eq hWords
  rintro position rfl hIndex hDigits
  exact valueAt_eq hIncludes hWords hIndex hDigits

theorem expand_eq
    {scope : Scope}
    (hWords : ∀ union,
      table.scope.union? scope = .ok union →
        union.count < wordLimit) :
    expand table scope = some (table.expand? scope) := by
  rw [expand, Table.expand?, union_eq]
  cases hUnion : table.scope.union? scope with
  | error fault => rfl
  | ok union =>
      have hIncludes := (Scope.includes_of_union? hUnion).1
      simp only [Except.map, Option.bind_eq_bind,
        Option.bind_some]
      split
      · rfl
      · rw [broadcast_eq hIncludes (hWords union hUnion)]
        rfl

omit [Scalar α] in
theorem scope_eq_of_length
    {target : Scope}
    (hIncludes : target.includes table.scope = true)
    (hLength : target.length = table.scope.length) :
    table.scope = target :=
  Scope.ext
    ((Scope.includes_iff_sublist.mp hIncludes).eq_of_length
      hLength.symm)

/- Expanding to a scope that includes the own one gets there. -/
theorem exists_expand?
    {target : Scope}
    (hIncludes : target.includes table.scope = true) :
    ∃ result,
      table.expand? target = .ok result ∧
        result.scope = target := by
  unfold Table.expand?
  rw [Scope.union?_of_included hIncludes]
  simp only [Except.map]
  split
  · rename_i hLength
    exact ⟨table, rfl, scope_eq_of_length hIncludes hLength⟩
  · exact ⟨_, rfl, rfl⟩

theorem addEach_eq
    {total : Table α}
    {tables : List (Table α)}
    (hIncludes : ∀ table ∈ tables,
      total.scope.includes table.scope = true)
    (hWords : total.scope.count < wordLimit) :
    addEach total tables = some (total.addEach? tables) := by
  induction tables generalizing total with
  | nil => rfl
  | cons table tables ih =>
      have hFirst := hIncludes table (by simp)
      rcases Table.zipInto?_of_includes (· + ·) hFirst with
        ⟨next, hNext, hScope, _⟩
      have hZip :
          zipInto (· + ·) total table = some (.ok next) := by
        rw [← hNext]
        apply zipInto_eq
        intro union hUnion
        rw [Scope.union?_of_includes hFirst] at hUnion
        cases hUnion
        exact hWords
      simp only [addEach, Table.addEach?, hZip, hNext,
        Option.bind_eq_bind, Option.bind_some]
      apply ih
      · intro other hOther
        rw [hScope]
        exact hIncludes other (by simp [hOther])
      · rwa [hScope]

theorem addAll_eq
    {total : Table α}
    {tables : List (Table α)}
    (hWords : ∀ union,
      total.scope.unionAll? (tables.map Table.scope) =
          .ok union →
        union.count < wordLimit) :
    addAll total tables = some (total.addAll? tables) := by
  rw [addAll, Table.addAll?, unionAll_eq]
  cases hUnion :
      total.scope.unionAll? (tables.map Table.scope) with
  | error fault => rfl
  | ok union =>
      have hBound := hWords union hUnion
      have hMembers := Scope.includes_of_unionAll? hUnion
      have hTotal := hMembers total.scope (by simp)
      rcases exists_expand? hTotal with
        ⟨expanded, hExpanded, hScope⟩
      have hExpand :
          expand total union = some (.ok expanded) := by
        rw [← hExpanded]
        apply expand_eq
        intro found hFound
        rw [Scope.union?_of_included hTotal] at hFound
        cases hFound
        exact hBound
      simp only [hExpand, hExpanded, Option.bind_eq_bind,
        Option.bind_some]
      apply addEach_eq
      · intro table hTable
        rw [hScope]
        apply hMembers
        exact List.mem_cons_of_mem _
          (List.mem_map_of_mem hTable)
      · rwa [hScope]

end Guarded

end JointMax
