import Mathlib
import JointMax.Proofs.Expansion

/-
  Sums of several tables. They can be added one by one, the
  scope growing on the way, or the scope is made as large as
  it has to be before the first addition. The sums are the
  same, in the same order at each joint value. The second way
  finds a clash of sizes before it changes anything.

  Main declarations:
    * `Table.Accumulated` and `Table.Accumulated.unique`
    * `Table.addAll?_eq_ok_iff` and
      `Table.foldlM_combineInto?_eq_ok_iff`
    * `Table.addAllInPlace` and `Table.addAllInPlace_eq`
    * `Table.accumulated_or_untouched`
-/

------------------------------------------------------------
-- Sums over the Union
------------------------------------------------------------

namespace JointMax

namespace Table

variable {α : Type} [Scalar α]
variable {total next table result other : Table α}
variable {tables : List (Table α)}

/-
  The sum of several tables. Its scope is the union of all
  scopes. At a joint value the values of the tables are added
  to the first one in their order.
-/
structure Accumulated
    (total : Table α)
    (tables : List (Table α))
    (result : Table α) : Prop where
  union :
    total.scope.unionAll? (tables.map Table.scope) =
      .ok result.scope
  values :
    ∀ joint, result.scope.Admits joint →
      result.eval joint =
        (tables.map fun table =>
          table.eval joint).foldl (· + ·) (total.eval joint)

/- There is one sum at most. -/
theorem Accumulated.unique
    (hFirst : Accumulated total tables result)
    (hSecond : Accumulated total tables other) :
    result = other := by
  have hScope : result.scope = other.scope :=
    Except.ok.inj (hFirst.union.symm.trans hSecond.union)
  apply ext_eval hScope
  intro joint hAdmits
  rw [hFirst.values joint hAdmits,
    hSecond.values joint (hScope ▸ hAdmits)]

theorem accumulated_nil_iff :
    Accumulated total [] result ↔ total = result := by
  have hSelf : Accumulated total [] total :=
    ⟨rfl, fun _ _ => rfl⟩
  constructor
  · exact hSelf.unique
  · rintro rfl
    exact hSelf

/- The first table can be added by itself. -/
theorem accumulated_cons_iff
    (hNext : Combined (· + ·) total table next) :
    Accumulated total (table :: tables) result ↔
      Accumulated next tables result := by
  have hUnion :
      total.scope.unionAll?
          ((table :: tables).map Table.scope) =
        next.scope.unionAll? (tables.map Table.scope) := by
    rw [List.map_cons, Scope.unionAll?, hNext.union]
  have hValues :
      next.scope.unionAll? (tables.map Table.scope) =
          .ok result.scope →
        ∀ joint, result.scope.Admits joint →
          ((table :: tables).map fun table =>
            table.eval joint).foldl (· + ·)
              (total.eval joint) =
            (tables.map fun table =>
              table.eval joint).foldl (· + ·)
                (next.eval joint) := by
    intro hLater joint hAdmits
    have hIncludes :=
      Scope.includes_of_unionAll? hLater next.scope (by simp)
    rw [hNext.eval (hAdmits.of_includes hIncludes)]
    rfl
  constructor
  · rintro ⟨hScope, hSum⟩
    rw [hUnion] at hScope
    refine ⟨hScope, fun joint hAdmits => ?_⟩
    rw [hSum joint hAdmits, hValues hScope joint hAdmits]
  · rintro ⟨hScope, hSum⟩
    refine ⟨hUnion.trans hScope, fun joint hAdmits => ?_⟩
    rw [hSum joint hAdmits, hValues hScope joint hAdmits]

end Table

end JointMax

------------------------------------------------------------
-- The Two Ways to Add
------------------------------------------------------------

namespace JointMax

namespace Table

variable {α : Type} [Scalar α]
variable {total result : Table α}
variable {tables : List (Table α)}

/-
  Adding in turn, each time over the union of what is there
  and what is added.
-/
theorem foldlM_combineInto?_eq_ok_iff :
    tables.foldlM (combineInto? .add) total = .ok result ↔
      Accumulated total tables result := by
  induction tables generalizing total with
  | nil =>
      change Except.ok total = .ok result ↔ _
      rw [accumulated_nil_iff, Except.ok.injEq]
  | cons table tables ih =>
      rw [List.foldlM_cons]
      by_cases hCompatible :
          total.scope.Compatible table.scope
      · rcases zipWith?_of_compatible (· + ·) hCompatible with
          ⟨next, hNext, hCombined⟩
        have hStep :
            combineInto? .add total table = .ok next := by
          rw [combineInto?, zipInto?_eq_zipWith?]
          exact congrArg (Except.mapError _) hNext
        rw [hStep, accumulated_cons_iff hCombined, ← ih]
        rfl
      · refine iff_of_false ?_ ?_
        · intro hResult
          rcases exists_of_bind_eq_ok hResult with
            ⟨next, hNext, _⟩
          rw [combineInto?, zipInto?_eq_zipWith?] at hNext
          exact hCompatible (Scope.exists_union?_iff.mp
            ⟨_, scope_of_zipWith? (eq_ok_of_mapError hNext)⟩)
        · intro hAccumulated
          have hAll := Scope.exists_unionAll?_iff.mp
            ⟨_, hAccumulated.union⟩
          exact hCompatible
            (hAll _ (by simp) _ (by simp))

/-
  Once the union of all scopes is found, the total can be
  expanded to it, and then every table can be added.
-/
theorem exists_addEach?
    {union : Scope}
    (hUnion :
      total.scope.unionAll? (tables.map Table.scope) =
        .ok union) :
    ∃ expanded result,
      total.expand? union = .ok expanded ∧
        expanded.addEach? tables = .ok result ∧
        Accumulated total tables result := by
  have hMembers := Scope.includes_of_unionAll? hUnion
  rcases Guarded.exists_expand?
      (hMembers total.scope (by simp)) with
    ⟨expanded, hExpanded, rfl⟩
  have hIncludes : ∀ table ∈ tables,
      expanded.scope.includes table.scope = true := by
    intro table hTable
    apply hMembers
    exact List.mem_cons_of_mem _ (List.mem_map_of_mem hTable)
  rcases addEach?_of_includes hIncludes with
    ⟨result, hResult, hScope, hEval⟩
  refine ⟨expanded, result, hExpanded, hResult, ?_, ?_⟩
  · rw [hScope]
    exact hUnion
  · intro joint hAdmits
    rw [hScope] at hAdmits
    rw [hEval joint hAdmits,
      (extended_of_expand? hExpanded).eval hAdmits]

/- Adding all at once, over the union of all scopes. -/
theorem addAll?_eq_ok_iff :
    total.addAll? tables = .ok result ↔
      Accumulated total tables result := by
  have hMade : ∀ union,
      total.scope.unionAll? (tables.map Table.scope) =
          .ok union →
        ∃ made, total.addAll? tables = .ok made ∧
          Accumulated total tables made := by
    intro union hUnion
    rcases exists_addEach? hUnion with
      ⟨expanded, made, hExpanded, hMade, hAccumulated⟩
    refine ⟨made, ?_, hAccumulated⟩
    simp only [addAll?, hUnion, hExpanded]
    exact hMade
  constructor
  · intro hResult
    rcases hMade _ (scope_of_addAll? hResult) with
      ⟨made, hOther, hAccumulated⟩
    rw [hResult] at hOther
    cases hOther
    exact hAccumulated
  · intro hAccumulated
    rcases hMade _ hAccumulated.union with
      ⟨made, hOther, hOtherAccumulated⟩
    rw [hOther, hAccumulated.unique hOtherAccumulated]

end Table

end JointMax

------------------------------------------------------------
-- Addition in Place
------------------------------------------------------------

namespace JointMax

namespace Table

variable {α : Type} [Scalar α]
variable {total result : Table α}
variable {tables : List (Table α)}

/-
  The tables are added into the place of the total. What was
  added before a refusal stays there.
-/
def addEachInPlace :
    Table α → List (Table α) → Table α × Option Fault
  | total, [] => (total, none)
  | total, table :: tables =>
      match zipInto? (· + ·) total table with
      | .ok next => next.addEachInPlace tables
      | .error fault => (total, some fault)

/-
  The total is expanded in its place before the tables are
  added to it. A later refusal leaves it expanded.
-/
def addAllInPlace
    (total : Table α)
    (tables : List (Table α)) : Table α × Option Fault :=
  match total.scope.unionAll? (tables.map Table.scope) with
  | .ok union =>
      match total.expand? union with
      | .ok expanded => expanded.addEachInPlace tables
      | .error fault => (total, some fault)
  | .error fault => (total, some fault)

theorem addEachInPlace_of_addEach?
    (hResult : total.addEach? tables = .ok result) :
    total.addEachInPlace tables = (result, none) := by
  induction tables generalizing total with
  | nil =>
      cases hResult
      rfl
  | cons table tables ih =>
      simp only [addEach?] at hResult
      split at hResult
      · rename_i next hNext
        simp only [addEachInPlace, hNext]
        exact ih hResult
      · cases hResult

/- No step after the union is refused. -/
theorem addAllInPlace_eq
    (total : Table α)
    (tables : List (Table α)) :
    total.addAllInPlace tables =
      total.inPlace (total.addAll? tables) := by
  unfold addAllInPlace addAll?
  cases hUnion :
      total.scope.unionAll? (tables.map Table.scope) with
  | error fault => rfl
  | ok union =>
      rcases exists_addEach? hUnion with
        ⟨expanded, result, hExpanded, hResult, _⟩
      simp only [hExpanded, hResult]
      exact addEachInPlace_of_addEach? hResult

/- Tables whose scopes fit each other have a sum. -/
theorem exists_accumulated
    (hCompatible :
      ∀ first ∈ total :: tables,
        ∀ second ∈ total :: tables,
          first.scope.Compatible second.scope) :
    ∃ result, Accumulated total tables result := by
  have hScopes :
      ∃ union,
        total.scope.unionAll? (tables.map Table.scope) =
          .ok union := by
    rw [Scope.exists_unionAll?_iff, ← List.map_cons]
    simpa only [List.forall_mem_map] using hCompatible
  rcases hScopes with ⟨union, hUnion⟩
  rcases exists_addEach? hUnion with
    ⟨_, result, _, _, hAccumulated⟩
  exact ⟨result, hAccumulated⟩

/- Others are refused by the name and sizes of a variable. -/
theorem addAll?_of_not_compatible
    {first second : Table α}
    (hFirst : first ∈ total :: tables)
    (hSecond : second ∈ total :: tables)
    (hClash : ¬ first.scope.Compatible second.scope) :
    ∃ mine yours : Axis,
      (∃ member ∈ total :: tables,
        mine ∈ member.scope.axes) ∧
      (∃ member ∈ total :: tables,
        yours ∈ member.scope.axes) ∧
      mine.var = yours.var ∧ mine.size ≠ yours.size ∧
      total.addAll? tables =
        .error (.badScope
          (.unionConflict yours.var mine.size
            yours.size)) := by
  rcases Scope.unionAll?_cases total.scope
      (tables.map Table.scope) with
    hUnion | ⟨mine, yours, hMine, hYours, hVar, hSize,
      hRefused⟩
  · rw [Scope.exists_unionAll?_iff, ← List.map_cons] at hUnion
    exact absurd
      (hUnion _ (List.mem_map_of_mem hFirst) _
        (List.mem_map_of_mem hSecond)) hClash
  · simp only [← List.map_cons, List.mem_map,
      exists_exists_and_eq_and] at hMine hYours
    refine ⟨mine, yours, hMine, hYours, hVar, hSize, ?_⟩
    simp only [addAll?, hRefused]

/-
  Tables whose scopes fit each other are added all at once
  with the same result as in turn. If any two of them clash,
  a variable with two sizes is named, and the total stays as
  it is, however many tables could have been added before.
-/
theorem accumulated_or_untouched
    (total : Table α)
    (tables : List (Table α)) :
    ((∀ first ∈ total :: tables,
        ∀ second ∈ total :: tables,
          first.scope.Compatible second.scope) →
      ∃ result,
        Accumulated total tables result ∧
        total.addAll? tables = .ok result ∧
        total.addAllInPlace tables = (result, none) ∧
        tables.foldlM (combineInto? .add) total =
          .ok result) ∧
    (∀ first ∈ total :: tables,
      ∀ second ∈ total :: tables,
        ¬ first.scope.Compatible second.scope →
          ∃ mine yours : Axis, ∃ clash,
            (∃ member ∈ total :: tables,
              mine ∈ member.scope.axes) ∧
            (∃ member ∈ total :: tables,
              yours ∈ member.scope.axes) ∧
            mine.var = yours.var ∧ mine.size ≠ yours.size ∧
            clash =
              .badScope (.unionConflict yours.var mine.size
                yours.size) ∧
            total.addAll? tables = .error clash ∧
            total.addAllInPlace tables =
              (total, some clash)) := by
  constructor
  · intro hCompatible
    rcases exists_accumulated hCompatible with
      ⟨result, hAccumulated⟩
    have hAtOnce := addAll?_eq_ok_iff.mpr hAccumulated
    refine ⟨result, hAccumulated, hAtOnce, ?_,
      foldlM_combineInto?_eq_ok_iff.mpr hAccumulated⟩
    rw [addAllInPlace_eq, hAtOnce]
    rfl
  · intro first hFirst second hSecond hClash
    rcases addAll?_of_not_compatible hFirst hSecond hClash with
      ⟨mine, yours, hMine, hYours, hVar, hSize, hRefused⟩
    refine ⟨mine, yours, _, hMine, hYours, hVar, hSize, rfl,
      hRefused, ?_⟩
    rw [addAllInPlace_eq, hRefused]
    rfl

/- The last two clash, and the first is not added either. -/
example :
    let ones (var : VarId) (size : Nat) (hPos : 0 < size) :
        Table Rat :=
      filled ⟨[⟨var, size, hPos⟩], by simp⟩ 1
    let total : Table Rat := constant 3
    total.addAllInPlace
        [ones 1 2 (by decide), ones 4 2 (by decide),
          ones 4 3 (by decide)] =
        (total, some (.badScope (.unionConflict 4 2 3))) ∧
      (total.addAllInPlace
        [ones 1 2 (by decide), ones 1 2 (by decide)]).1.values =
        #[5, 5] := by
  decide +kernel

end Table

end JointMax
