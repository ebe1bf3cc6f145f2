import Mathlib
import JointMax.Proofs.Combination
import JointMax.Proofs.GuardedSlices
import JointMax.Wire.Values

/-
  Families of operations on tables: new tables over a scope,
  changes of one table, and combinations of two. Each family
  has one checked form, which agrees with the operations
  themselves, and one bound on the scope of what it makes.

  Main declarations:
    * `Refusal` and `judged`
    * `Source`, `Guarded.source_eq` and `Guarded.decode_eq`
    * `Revision`, `Guarded.revise_eq` and
      `Revision.includes_of_result?`
    * `Pairing`, `Guarded.pair_eq` and
      `Pairing.scope_of_result?`
    * `Table.scope_of_expand?` and `Table.scope_of_addAll?`
-/

------------------------------------------------------------
-- Refusals
------------------------------------------------------------

namespace JointMax

/- Why no table is made. -/
inductive Refusal where
  | vacant (place : Nat)
  | noCell (index : Nat)
  | fault (cause : Fault)
  | unreadable (cause : WireFault)

def judged {β : Type} (result : Except Fault β) :
    Except Refusal β :=
  result.mapError .fault

end JointMax

------------------------------------------------------------
-- New Tables
------------------------------------------------------------

namespace JointMax

/- The values of a new table over a given scope. -/
inductive Source (α : Type) where
  | filled (value : α)
  | listed (values : Array α)
  | computed (f : List Nat → α)

def Source.table? {α : Type} (scope : Scope) :
    Source α → Except Fault (Table α)
  | .filled value => .ok (Table.filled scope value)
  | .listed values => Table.ofValues? scope values
  | .computed f => .ok (Table.tabulate scope f)

theorem Source.scope_of_table?
    {α : Type}
    {scope : Scope}
    {source : Source α}
    {table : Table α}
    (hTable : source.table? scope = .ok table) :
    table.scope = scope := by
  cases source with
  | filled value =>
      cases hTable
      rfl
  | listed values =>
      simp only [table?, Table.ofValues?] at hTable
      split at hTable
      · cases hTable
        rfl
      · cases hTable
  | computed f =>
      cases hTable
      rfl

namespace Table

variable {α : Type} [Binary64 α]

/- The scope and the values that bytes list. -/
def readParts : Reader (Scope × Array α) := do
  let scope ← Scope.read
  let values ← readArray
  return (scope, values)

/- Bytes after those of the table are not looked at. -/
def decode? (bytes : Bytes) : Except WireFault (Table α) :=
  (read bytes).map Prod.fst

/- The values are counted once both parts have been read. -/
theorem decode?_eq (bytes : Bytes) :
    (decode? bytes : Except WireFault (Table α)) =
      match readParts bytes with
      | .ok ((scope, values), _) =>
          (ofValues? scope values).mapError .invalid
      | .error fault => .error fault := by
  unfold decode? read readParts
  simp only [bind, StateT.bind, Except.bind, pure,
    StateT.pure, Except.pure]
  cases Scope.read bytes with
  | error fault => rfl
  | ok first =>
      cases hArray :
          (readArray : Reader (Array α)) first.2 with
      | error fault => simp [hArray, Except.map]
      | ok second =>
          simp only [hArray]
          cases ofValues? first.1 second.1 <;> rfl

theorem exists_of_decode?
    {bytes : Bytes}
    {table : Table α}
    (hTable : decode? bytes = .ok table) :
    ∃ (values : Array α) (rest : Bytes),
      readParts bytes = .ok ((table.scope, values), rest) := by
  rw [decode?_eq] at hTable
  split at hTable
  · rename_i scope values rest hParts
    refine ⟨values, rest, ?_⟩
    rw [hParts]
    cases hMade : ofValues? scope values with
    | error fault =>
        rw [hMade] at hTable
        cases hTable
    | ok made =>
        rw [hMade] at hTable
        cases hTable
        rw [@Source.scope_of_table? _ scope (.listed values)
          table hMade]
  · cases hTable

end Table

namespace Guarded

variable {α : Type} [Scalar α]

def source (scope : Scope) :
    Source α → Option (Except Fault (Table α))
  | .filled value => (filled scope value).map .ok
  | .listed values => ofValues scope values
  | .computed f => (tabulate scope f).map .ok

theorem source_eq
    {scope : Scope}
    (hWords : scope.count < wordLimit)
    (kind : Source α) :
    source scope kind = some (kind.table? scope) := by
  cases kind with
  | filled value => rw [source, filled_eq hWords]; rfl
  | listed values => exact ofValues_eq hWords values
  | computed f => rw [source, tabulate_eq hWords]; rfl

variable [Binary64 α]

def decode (bytes : Bytes) :
    Option (Except WireFault (Table α)) :=
  match Table.readParts bytes with
  | .ok ((scope, values), _) =>
      (ofValues scope values).map
        (Except.mapError WireFault.invalid)
  | .error fault => some (.error fault)

omit [Scalar α] in
theorem decode_eq
    {bytes : Bytes}
    (hWords : ∀ (scope : Scope) (values : Array α) rest,
      Table.readParts bytes = .ok ((scope, values), rest) →
        scope.count < wordLimit) :
    decode bytes =
      some (Table.decode? bytes :
        Except WireFault (Table α)) := by
  rw [decode, Table.decode?_eq]
  split
  · rename_i scope values rest hParts
    rw [ofValues_eq (hWords scope values rest hParts)]
    rfl
  · rfl

end Guarded

end JointMax

------------------------------------------------------------
-- Scopes of Results
------------------------------------------------------------

namespace JointMax

namespace Table

variable {α : Type} [Scalar α]
variable {left right table result : Table α}

theorem scope_of_zipWith?
    {op : α → α → α}
    (hResult : zipWith? op left right = .ok result) :
    left.scope.union? right.scope = .ok result.scope := by
  unfold zipWith? at hResult
  split at hResult
  · rename_i hScope
    cases hResult
    apply Scope.union?_of_includes
    rw [← hScope]
    exact Scope.includes_self left.scope
  · rcases exists_of_map_eq_ok hResult with
      ⟨union, hUnion, rfl⟩
    exact hUnion

theorem scope_of_expand?
    {scope : Scope}
    (hResult : table.expand? scope = .ok result) :
    table.scope.union? scope = .ok result.scope := by
  rcases exists_of_map_eq_ok hResult with
    ⟨union, hUnion, hMade⟩
  rw [hUnion, ← hMade]
  split
  · rename_i hLength
    have hIncludes := (Scope.includes_of_union? hUnion).1
    rw [Guarded.scope_eq_of_length hIncludes hLength]
  · rfl

theorem scope_of_expandVar?
    {registry : Registry}
    {var : VarId}
    (hDepends : ¬ table.dependsOn var = true)
    (hResult : table.expandVar? registry var = .ok result) :
    Scope.ofVar? registry var >>= table.scope.union? =
      .ok result.scope := by
  rw [expandVar?, if_neg hDepends] at hResult
  split at hResult
  · rename_i scope hScope
    rw [hScope]
    exact scope_of_expand? hResult
  · cases hResult

theorem scope_of_addEach?
    {tables : List (Table α)}
    (hIncludes : ∀ member ∈ tables,
      table.scope.includes member.scope = true)
    (hResult : table.addEach? tables = .ok result) :
    result.scope = table.scope := by
  induction tables generalizing table with
  | nil =>
      cases hResult
      rfl
  | cons member tables ih =>
      rcases zipInto?_of_includes (· + ·)
          (hIncludes member (by simp)) with
        ⟨next, hNext, hScope, _⟩
      simp only [addEach?, hNext] at hResult
      rw [← hScope]
      apply ih _ hResult
      intro other hOther
      rw [hScope]
      exact hIncludes other (by simp [hOther])

theorem scope_of_addAll?
    {tables : List (Table α)}
    (hResult : table.addAll? tables = .ok result) :
    table.scope.unionAll? (tables.map Table.scope) =
      .ok result.scope := by
  unfold addAll? at hResult
  split at hResult
  · rename_i union hUnion
    have hMembers := Scope.includes_of_unionAll? hUnion
    rcases Guarded.exists_expand?
        (hMembers table.scope (by simp)) with
      ⟨expanded, hExpanded, hScope⟩
    simp only [hExpanded] at hResult
    rw [hUnion, ← hScope]
    apply congrArg Except.ok
    refine (scope_of_addEach? ?_ hResult).symm
    intro member hMember
    rw [hScope]
    apply hMembers
    exact List.mem_cons_of_mem _ (List.mem_map_of_mem hMember)
  · cases hResult

/- A slice has lost the variables that are pinned. -/
theorem includes_of_meet?
    {condition : Odometer.Condition}
    (hResult :
      ((Odometer.start table.scope).meet? condition).map
          table.slice = .ok result) :
    table.scope.includes result.scope = true := by
  rcases exists_of_map_eq_ok hResult with
    ⟨next, hNext, rfl⟩
  rcases (Odometer.placed_start table.scope).restarted
      (.inr ⟨condition, hNext⟩) with
    ⟨_, hScope, _, _⟩
  unfold slice
  split
  · exact Scope.includes_self table.scope
  · change table.scope.includes next.freeScope = true
    have hFree := next.includes_freeScope
    rw [hScope] at hFree
    exact hFree

end Table

end JointMax

------------------------------------------------------------
-- Changes of One Table
------------------------------------------------------------

namespace JointMax

/- What may be done to one table without a second one. -/
inductive Revision (α : Type) where
  | map (f : α → α)
  | fill (value : α)
  | overwrite (values : Array α)
  | condition (vars : List VarId) (digits : List Nat)
  | conditionOn (assignment : Assignment)
  | set (index : Nat) (value : α)
  | setAt (digits : List Nat) (value : α)
  | setAtVars
      (vars : List VarId) (digits : List Nat) (value : α)
  | setAtAssignment (assignment : Assignment) (value : α)

variable {α : Type} [Scalar α]

namespace Revision

def result? (table : Table α) :
    Revision α → Except Refusal (Table α)
  | .map f => .ok (table.map f)
  | .fill value => .ok (table.fill value)
  | .overwrite values => .ok (table.overwrite values)
  | .condition vars digits =>
      judged (table.condition? vars digits)
  | .conditionOn assignment =>
      judged (table.conditionOn? assignment)
  | .set index value =>
      match table.set? index value with
      | some next => .ok next
      | none => .error (.noCell index)
  | .setAt digits value => judged (table.setAt? digits value)
  | .setAtVars vars digits value =>
      judged (table.setAtVars? vars digits value)
  | .setAtAssignment assignment value =>
      judged (table.setAtAssignment? assignment value)

/- Writes keep the scope. -/
omit [Scalar α] in
theorem scope_of_put
    {table result : Table α}
    {found : Except Fault Nat}
    {value : α}
    (hResult :
      judged (found.map (table.put · value)) = .ok result) :
    result.scope = table.scope := by
  rcases exists_of_map_eq_ok (eq_ok_of_mapError hResult) with
    ⟨index, _, rfl⟩
  rfl

theorem includes_of_result?
    {table result : Table α}
    {revision : Revision α}
    (hResult : revision.result? table = .ok result) :
    table.scope.includes result.scope = true := by
  have hSame : result.scope = table.scope →
      table.scope.includes result.scope = true := by
    intro hScope
    rw [hScope]
    exact Scope.includes_self table.scope
  cases revision with
  | map f =>
      cases hResult
      exact hSame rfl
  | fill value =>
      cases hResult
      exact hSame rfl
  | overwrite values =>
      cases hResult
      exact hSame rfl
  | condition vars digits =>
      exact @Table.includes_of_meet? _ _ table result
        (.listed vars digits) (eq_ok_of_mapError hResult)
  | conditionOn assignment =>
      exact @Table.includes_of_meet? _ _ table result
        (.chosen assignment) (eq_ok_of_mapError hResult)
  | set index value =>
      simp only [result?, Table.set?] at hResult
      split at hResult
      · rename_i next hNext
        cases hResult
        split at hNext
        · cases hNext
          exact hSame rfl
        · cases hNext
      · cases hResult
  | setAt digits value => exact hSame (scope_of_put hResult)
  | setAtVars vars digits value =>
      exact hSame (scope_of_put hResult)
  | setAtAssignment assignment value =>
      exact hSame (scope_of_put hResult)

end Revision

namespace Guarded

def revise (table : Table α) :
    Revision α → Option (Except Refusal (Table α))
  | .map f =>
      (pack table.scope (table.values.map f)).map .ok
  | .fill value =>
      (pack table.scope
        (table.values.map fun _ => value)).map .ok
  | .overwrite values =>
      (pack table.scope
        (table.values.mapIdx fun index old =>
          values.getD index old)).map .ok
  | .condition vars digits =>
      (condition table (.listed vars digits)).map judged
  | .conditionOn assignment =>
      (condition table (.chosen assignment)).map judged
  | .set index value =>
      if index < table.values.size then do
        let values ← amend? table.values index fun _ => value
        (pack table.scope values).map .ok
      else
        some (.error (.noCell index))
  | .setAt digits value =>
      (setAt table digits value).map judged
  | .setAtVars vars digits value =>
      (setAtVars table vars digits value).map judged
  | .setAtAssignment assignment value =>
      (setAtAssignment table assignment value).map judged

theorem revise_eq
    {table : Table α}
    (hWords : table.scope.count < wordLimit)
    (revision : Revision α) :
    revise table revision = some (revision.result? table) := by
  cases revision with
  | map f =>
      exact congrArg (Option.map Except.ok)
        (pack_eq (table.map f))
  | fill value =>
      have hValues :
          table.values.map (fun _ => value) =
            (table.fill value).values := by
        apply Array.ext
        · simp [Table.fill, Table.filled, table.size_eq]
        · intro index hLeft hRight
          simp [Table.fill, Table.filled]
      exact congrArg (Option.map Except.ok)
        (@pack_of_eq _ (table.fill value) _ hValues)
  | overwrite values =>
      exact congrArg (Option.map Except.ok)
        (pack_eq (table.overwrite values))
  | condition vars digits =>
      rw [revise, condition_eq hWords]
      rfl
  | conditionOn assignment =>
      rw [revise, condition_eq hWords]
      rfl
  | set index value =>
      simp only [revise, Revision.result?, Table.set?]
      split
      · rename_i hIndex
        simp only [amend?_eq hIndex, Option.bind_eq_bind,
          Option.bind_some]
        exact congrArg (Option.map Except.ok)
          (@pack_of_eq _ (table.put index value) _
            (modify_eq_put hIndex value))
      · rfl
  | setAt digits value =>
      rw [revise, setAt_eq hWords]
      rfl
  | setAtVars vars digits value =>
      rw [revise, setAtVars_eq hWords]
      rfl
  | setAtAssignment assignment value =>
      rw [revise, setAtAssignment_eq hWords]
      rfl

end Guarded

end JointMax

------------------------------------------------------------
-- Combinations of Two Tables
------------------------------------------------------------

namespace JointMax

/-
  What may be done with two tables. A marginal reads the
  first and takes the scope of the second.
-/
inductive Pairing (α : Type) where
  | zip (op : α → α → α)
  | zipInto (op : α → α → α)
  | marginal (aggregate : α → α → α)
  | meanMarginal

variable {α : Type} [Scalar α]

namespace Pairing

def result? (left right : Table α) :
    Pairing α → Except Fault (Table α)
  | .zip op => Table.zipWith? op left right
  | .zipInto op => Table.zipInto? op left right
  | .marginal aggregate =>
      Table.marginal? aggregate left right
  | .meanMarginal => Table.meanMarginal? left right

/- The scope that a combination works towards. -/
def target? (left right : Scope) :
    Pairing α → Except Fault Scope
  | .zip _ => left.union? right
  | .zipInto _ => left.union? right
  | .marginal _ => .ok right
  | .meanMarginal => .ok right

theorem scope_of_result?
    {left right result : Table α}
    {pairing : Pairing α}
    (hResult : pairing.result? left right = .ok result) :
    pairing.target? left.scope right.scope =
      .ok result.scope := by
  cases pairing with
  | zip op => exact Table.scope_of_zipWith? hResult
  | zipInto op =>
      rw [result?, Table.zipInto?_eq_zipWith?] at hResult
      exact Table.scope_of_zipWith? hResult
  | marginal aggregate =>
      rw [target?, Table.scope_of_marginal? hResult]
  | meanMarginal =>
      rcases exists_of_map_eq_ok hResult with
        ⟨total, hTotal, rfl⟩
      rw [target?, ← Table.scope_of_marginal? hTotal]
      rfl

end Pairing

namespace Guarded

def pair (left right : Table α) :
    Pairing α → Option (Except Fault (Table α))
  | .zip op => zipWith op left right
  | .zipInto op => zipInto op left right
  | .marginal aggregate => marginal aggregate left right
  | .meanMarginal => meanMarginal left right

theorem pair_eq
    {left right : Table α}
    {pairing : Pairing α}
    (hLeft : left.scope.count < wordLimit)
    (hTarget : ∀ scope,
      pairing.target? left.scope right.scope = .ok scope →
        scope.count < wordLimit) :
    pair left right pairing =
      some (pairing.result? left right) := by
  cases pairing with
  | zip op => exact zipWith_eq op hTarget
  | zipInto op => exact zipInto_eq op hTarget
  | marginal aggregate => exact marginal_eq aggregate hLeft
  | meanMarginal => exact meanMarginal_eq hLeft

end Guarded

end JointMax
