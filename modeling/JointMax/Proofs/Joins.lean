import Mathlib
import JointMax.Proofs.Registration

/-
  The order of scopes. A scope is a map from variables to
  sizes, and it includes another scope just if its map
  extends the other one. In this order the union of two
  scopes is their least upper bound, where they have one. So
  it does not matter in which order or how often scopes are
  put together.

  Main declarations:
    * `Scope.includes_iff_sizeOf?`
    * `Scope.union?_eq_ok_iff` and `Scope.exists_union?_iff`
    * `Scope.unionAll?_eq_ok_iff` and
      `Scope.exists_unionAll?_iff`
    * `Scope.PartialJoin` and `Scope.partialJoin`
-/

------------------------------------------------------------
-- Scopes as Maps
------------------------------------------------------------

namespace JointMax

namespace Scope

variable {scope other left right : Scope}

theorem sizeOf?_eq_some_iff {var : VarId} {size : Nat} :
    scope.sizeOf? var = some size ↔
      ∃ axis ∈ scope.axes,
        axis.var = var ∧ axis.size = size := by
  rw [sizeOf?, Option.map_eq_some_iff]
  simp only [axis?_eq_some_iff, and_assoc]

/- An axis is an entry of the map. -/
theorem mem_axes_iff {axis : Axis} :
    axis ∈ scope.axes ↔
      scope.sizeOf? axis.var = some axis.size := by
  rw [sizeOf?_eq_some_iff]
  constructor
  · intro hAxis
    exact ⟨axis, hAxis, rfl, rfl⟩
  · rintro ⟨⟨_, _, _⟩, hEntry, rfl, rfl⟩
    exact hEntry

theorem includes_iff_sizeOf? :
    scope.includes other = true ↔
      ∀ var size, other.sizeOf? var = some size →
        scope.sizeOf? var = some size := by
  rw [includes_iff]
  constructor
  · intro hAxes var size hSize
    rcases sizeOf?_eq_some_iff.mp hSize with
      ⟨axis, hAxis, rfl, rfl⟩
    exact mem_axes_iff.mp (hAxes axis hAxis)
  · intro hSizes axis hAxis
    exact mem_axes_iff.mpr
      (hSizes _ _ (mem_axes_iff.mp hAxis))

theorem compatible_iff_sizeOf? :
    left.Compatible right ↔
      ∀ var mine yours, left.sizeOf? var = some mine →
        right.sizeOf? var = some yours → mine = yours := by
  constructor
  · intro hCompatible var mine yours hMine hYours
    rcases sizeOf?_eq_some_iff.mp hMine with
      ⟨first, hFirst, rfl, rfl⟩
    rcases sizeOf?_eq_some_iff.mp hYours with
      ⟨second, hSecond, hVar, rfl⟩
    exact hCompatible first hFirst second hSecond hVar.symm
  · intro hSizes first hFirst second hSecond hVar
    rw [mem_axes_iff, ← hVar] at hSecond
    exact hSizes _ _ _ (mem_axes_iff.mp hFirst) hSecond

end Scope

end JointMax

------------------------------------------------------------
-- Inclusion as an Order
------------------------------------------------------------

namespace JointMax

namespace Scope

theorem includes_trans
    {first second third : Scope}
    (hFirst : second.includes first = true)
    (hSecond : third.includes second = true) :
    third.includes first = true :=
  includes_iff.mpr fun axis hAxis =>
    includes_iff.mp hSecond axis
      (includes_iff.mp hFirst axis hAxis)

/- A scope is below those that include it. -/
instance : PartialOrder Scope where
  le smaller larger := larger.includes smaller = true
  le_refl := includes_self
  le_trans _ _ _ := includes_trans
  le_antisymm _ _ hFirst hSecond :=
    eq_of_mem_iff fun axis =>
      ⟨includes_iff.mp hFirst axis,
        includes_iff.mp hSecond axis⟩

variable {left right upper : Scope}

theorem le_iff :
    left ≤ right ↔ ∀ axis ∈ left.axes, axis ∈ right.axes :=
  includes_iff

/- What lies below one scope has one size for a variable. -/
theorem compatible_of_le
    (hLeft : left ≤ upper)
    (hRight : right ≤ upper) :
    left.Compatible right := by
  intro mine hMine other hOther hVar
  have hSame : mine = other :=
    axis_eq_of_var_eq (le_iff.mp hLeft mine hMine)
      (le_iff.mp hRight other hOther) hVar
  rw [hSame]

end Scope

end JointMax

------------------------------------------------------------
-- Unions of Two Scopes
------------------------------------------------------------

namespace JointMax

namespace Scope

variable {left right other union upper : Scope}

theorem exists_union?_iff :
    (∃ union, left.union? right = .ok union) ↔
      left.Compatible right := by
  constructor
  · rintro ⟨union, hUnion⟩
    rcases includes_of_union? hUnion with ⟨hLeft, hRight⟩
    exact compatible_of_le hLeft hRight
  · intro hCompatible
    rcases union?_of_compatible hCompatible with
      ⟨union, hUnion, _⟩
    exact ⟨union, hUnion⟩

theorem le_iff_of_union?
    (hUnion : left.union? right = .ok union) :
    union ≤ upper ↔ left ≤ upper ∧ right ≤ upper := by
  simp only [le_iff, mem_axes_of_union? hUnion, or_imp,
    forall_and]

/- A union is the least upper bound of two scopes. -/
theorem union?_eq_ok_iff :
    left.union? right = .ok union ↔
      IsLUB {left, right} union := by
  constructor
  · intro hUnion
    rw [isLUB_iff_le_iff]
    intro upper
    rw [le_iff_of_union? hUnion]
    simp [upperBounds]
  · intro hLeast
    have hLeft : left ≤ union := hLeast.1 (by simp)
    have hRight : right ≤ union := hLeast.1 (by simp)
    rcases exists_union?_iff.mpr
        (compatible_of_le hLeft hRight) with
      ⟨found, hFound⟩
    have hBelow : found ≤ union :=
      (le_iff_of_union? hFound).mpr ⟨hLeft, hRight⟩
    have hAbove : union ≤ found := by
      apply hLeast.2
      simpa [upperBounds] using
        (le_iff_of_union? hFound).mp le_rfl
    rw [hFound, le_antisymm hBelow hAbove]

theorem union?_comm :
    left.union? right = .ok union ↔
      right.union? left = .ok union := by
  rw [union?_eq_ok_iff, union?_eq_ok_iff, Set.pair_comm]

/- A union has no other sizes than its two scopes. -/
theorem Compatible.of_union?
    (hUnion : left.union? right = .ok union)
    (hLeft : left.Compatible other)
    (hRight : right.Compatible other) :
    union.Compatible other := by
  intro mine hMine
  rcases (mem_axes_of_union? hUnion).mp hMine with
    hMine | hMine
  · exact hLeft mine hMine
  · exact hRight mine hMine

theorem sizeOf?_of_union?
    (hUnion : left.union? right = .ok union)
    (var : VarId) :
    union.sizeOf? var =
      (left.sizeOf? var).or (right.sizeOf? var) := by
  rcases includes_of_union? hUnion with ⟨hLeft, hRight⟩
  rw [includes_iff_sizeOf?] at hLeft hRight
  apply Option.ext
  intro size
  cases hMine : left.sizeOf? var with
  | some mine => simp [hLeft var mine hMine]
  | none =>
      rw [Option.none_or]
      constructor
      · intro hSize
        rcases sizeOf?_eq_some_iff.mp hSize with
          ⟨axis, hAxis, rfl, rfl⟩
        rcases (mem_axes_of_union? hUnion).mp hAxis with
          hAxis | hAxis
        · rw [mem_axes_iff, hMine] at hAxis
          cases hAxis
        · exact mem_axes_iff.mp hAxis
      · exact hRight var size

theorem map_axes_union? (first second : Scope) :
    (first.union? second).map axes =
      Axis.joinAll? first.axes second.axes := by
  unfold union?
  split
  · rename_i axes hAxes
    exact hAxes.symm
  · rename_i fault hFault
    exact hFault.symm

/- The walk along both scopes lists their union. -/
theorem mergePairs_pairs (first second : Scope) :
    Axis.mergePairs first.pairs second.pairs =
      (first.union? second).map pairs := by
  unfold pairs
  rw [Axis.mergePairs_eq first.sorted second.sorted,
    ← map_axes_union?]
  cases first.union? second <;> rfl

end Scope

end JointMax

------------------------------------------------------------
-- Unions of Several Scopes
------------------------------------------------------------

namespace JointMax

namespace Scope

variable {scope union : Scope} {others : List Scope}

/- The union of a list is the least upper bound of all. -/
theorem unionAll?_eq_ok_iff :
    scope.unionAll? others = .ok union ↔
      IsLUB {member | member ∈ scope :: others} union := by
  induction others generalizing scope with
  | nil =>
      have hSingle :
          {member | member ∈ [scope]} = {scope} := by
        ext member
        simp
      rw [hSingle, unionAll?, Except.ok.injEq]
      constructor
      · rintro rfl
        exact isLUB_singleton
      · exact isLUB_singleton.unique
  | cons other others ih =>
      rw [unionAll?]
      cases hNext : scope.union? other with
      | ok next =>
          rw [ih]
          apply isLUB_congr
          ext upper
          simp [upperBounds, le_iff_of_union? hNext,
            and_assoc]
      | error fault =>
          refine iff_of_false (by simp) fun hLeast => ?_
          have hCompatible : scope.Compatible other :=
            compatible_of_le (hLeast.1 (by simp))
              (hLeast.1 (by simp))
          rcases exists_union?_iff.mpr hCompatible with
            ⟨next, hSome⟩
          rw [hNext] at hSome
          cases hSome

/-
  There is a union of a list, or two members give one
  variable different sizes. Parts of the union that is formed
  on the way have their axes from members.
-/
theorem unionAll?_cases
    (scope : Scope)
    (others : List Scope) :
    (∃ union, scope.unionAll? others = .ok union) ∨
    ∃ mine yours : Axis,
      (∃ member ∈ scope :: others, mine ∈ member.axes) ∧
      (∃ member ∈ scope :: others, yours ∈ member.axes) ∧
      mine.var = yours.var ∧ mine.size ≠ yours.size ∧
      scope.unionAll? others =
        .error (.badScope
          (.unionConflict yours.var mine.size
            yours.size)) := by
  induction others generalizing scope with
  | nil => exact .inl ⟨scope, rfl⟩
  | cons other others ih =>
      simp only [unionAll?]
      rcases union?_cases scope other with
        ⟨next, hNext, hAxes⟩ |
          ⟨mine, hMine, yours, hYours, hVar, hSize, hRefused⟩
      · rw [hNext]
        have hOrigin : ∀ axis,
            (∃ member ∈ next :: others,
              axis ∈ member.axes) →
            ∃ member ∈ scope :: other :: others,
              axis ∈ member.axes := by
          simp only [List.mem_cons, or_and_right, exists_or,
            exists_eq_left, hAxes, or_assoc]
          exact fun _ => id
        rcases ih next with
          hUnion | ⟨mine, yours, hMine, hYours, hClash⟩
        · exact .inl hUnion
        · exact .inr ⟨mine, yours, hOrigin mine hMine,
            hOrigin yours hYours, hClash⟩
      · rw [hRefused]
        exact .inr ⟨mine, yours, ⟨scope, by simp, hMine⟩,
          ⟨other, by simp, hYours⟩, hVar, hSize, rfl⟩

/- Scopes have a union just if any two of them have one. -/
theorem exists_unionAll?_iff :
    (∃ union, scope.unionAll? others = .ok union) ↔
      ∀ first ∈ scope :: others,
        ∀ second ∈ scope :: others,
          first.Compatible second := by
  constructor
  · rintro ⟨union, hUnion⟩ first hFirst second hSecond
    have hMembers := includes_of_unionAll? hUnion
    exact compatible_of_le (hMembers first hFirst)
      (hMembers second hSecond)
  · intro hCompatible
    rcases unionAll?_cases scope others with
      hUnion | ⟨mine, yours, ⟨first, hFirst, hMine⟩,
        ⟨second, hSecond, hYours⟩, hVar, hSize, _⟩
    · exact hUnion
    · exact absurd
        (hCompatible first hFirst second hSecond mine hMine
          yours hYours hVar) hSize

end Scope

end JointMax

------------------------------------------------------------
-- Scopes under Union
------------------------------------------------------------

namespace JointMax

namespace Scope

variable {first second third union : Scope}

/- Forming two unions one after another. -/
theorem union?_left_eq_ok_iff :
    (do
      let early ← first.union? second
      early.union? third) = .ok union ↔
      IsLUB {first, second, third} union := by
  have hBoth :
      (do
        let early ← first.union? second
        early.union? third) =
        first.unionAll? [second, third] := by
    simp only [unionAll?]
    cases first.union? second with
    | error fault => rfl
    | ok early =>
        change early.union? third = _
        dsimp only
        cases early.union? third <;> rfl
  have hMembers :
      {member | member ∈ [first, second, third]} =
        {first, second, third} := by
    ext member
    simp
  rw [hBoth, unionAll?_eq_ok_iff, hMembers]

theorem union?_right_eq_ok_iff :
    (do
      let late ← second.union? third
      first.union? late) = .ok union ↔
      IsLUB {first, second, third} union := by
  have hTurned :
      (do
        let late ← second.union? third
        first.union? late) = .ok union ↔
      (do
        let late ← second.union? third
        late.union? first) = .ok union := by
    cases second.union? third with
    | error fault => exact Iff.rfl
    | ok late => exact union?_comm
  have hMembers :
      ({second, third, first} : Set Scope) =
        {first, second, third} := by
    ext member
    simp only [Set.mem_insert_iff, Set.mem_singleton_iff]
    tauto
  rw [hTurned, union?_left_eq_ok_iff, hMembers]

/-
  What the union is to inclusion. One scope includes another
  if it has all its entries. Two scopes have a union unless
  some variable has two sizes, which is then named. The union
  is the least scope that includes both. It can be formed in
  any order and from either side. The walk along both scopes
  lists it in a form that passes as a scope, and the short
  cut for an included scope makes no difference.
-/
structure PartialJoin (first second third : Scope) :
    Prop where
  included :
    first.includes second = true ↔
      ∀ var size, second.sizeOf? var = some size →
        first.sizeOf? var = some size
  defined :
    (∃ union, first.union? second = .ok union) ↔
      ∀ var mine yours, first.sizeOf? var = some mine →
        second.sizeOf? var = some yours → mine = yours
  refused : ∀ fault,
    first.union? second = .error fault →
      ∃ var mine yours,
        first.sizeOf? var = some mine ∧
        second.sizeOf? var = some yours ∧ mine ≠ yours ∧
        fault = .badScope (.unionConflict var mine yours)
  valid : ∀ union,
    first.union? second = .ok union →
      ∃ pairs,
        Axis.mergePairs first.pairs second.pairs =
            .ok pairs ∧
          ofParts? (pairs.map Prod.fst)
            (pairs.map Prod.snd) = .ok union
  sizes : ∀ union,
    first.union? second = .ok union →
      ∀ var, union.sizeOf? var =
        (first.sizeOf? var).or (second.sizeOf? var)
  upper : ∀ union,
    first.union? second = .ok union →
      union.includes first = true ∧
        union.includes second = true
  least : ∀ union,
    first.union? second = .ok union →
      ∀ larger : Scope, larger.includes first = true →
        larger.includes second = true →
          larger.includes union = true
  idempotent : first.union? first = .ok first
  commutative : ∀ union,
    first.union? second = .ok union ↔
      second.union? first = .ok union
  associative : ∀ union,
    (do
      let late ← second.union? third
      first.union? late) = .ok union ↔
    (do
      let early ← first.union? second
      early.union? third) = .ok union
  merged :
    Axis.mergePairs first.pairs second.pairs =
      (first.union? second).map pairs
  walked :
    Guarded.union first second = some (first.union? second)

/- All scopes are joined by their unions in this way. -/
theorem partialJoin (first second third : Scope) :
    first.PartialJoin second third where
  included := includes_iff_sizeOf?
  defined := exists_union?_iff.trans compatible_iff_sizeOf?
  refused := by
    intro fault hFault
    rcases union?_cases first second with
      ⟨union, hUnion, _⟩ |
        ⟨mine, hMine, yours, hYours, hVar, hSize, hRefused⟩
    · rw [hFault] at hUnion
      cases hUnion
    · rw [hFault] at hRefused
      cases hRefused
      exact ⟨yours.var, mine.size, yours.size,
        hVar ▸ mem_axes_iff.mp hMine, mem_axes_iff.mp hYours,
        hSize, rfl⟩
  valid := by
    intro union hUnion
    refine ⟨union.pairs, ?_, ofParts?_pairs union⟩
    rw [mergePairs_pairs, hUnion]
    rfl
  sizes := fun _ => sizeOf?_of_union?
  upper := fun _ => includes_of_union?
  least := by
    intro union hUnion larger hFirst hSecond
    exact (le_iff_of_union? hUnion).mpr ⟨hFirst, hSecond⟩
  idempotent := union?_of_includes (includes_self first)
  commutative := fun _ => union?_comm
  associative := fun _ =>
    union?_right_eq_ok_iff.trans union?_left_eq_ok_iff.symm
  merged := mergePairs_pairs first second
  walked := Guarded.union_eq first second

/- Neither way is open, but each stops at another variable. -/
example :
    let first : Scope := ⟨[⟨1, 2, by decide⟩], by decide⟩
    let second : Scope := ⟨[⟨5, 3, by decide⟩], by decide⟩
    let third : Scope :=
      ⟨[⟨1, 4, by decide⟩, ⟨5, 6, by decide⟩], by decide⟩
    (do
      let late ← second.union? third
      first.union? late) =
        .error (.badScope (.unionConflict 5 3 6)) ∧
    (do
      let early ← first.union? second
      early.union? third) =
        .error (.badScope (.unionConflict 1 2 4)) := by
  decide

end Scope

end JointMax
