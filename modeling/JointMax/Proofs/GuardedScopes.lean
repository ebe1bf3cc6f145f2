import Mathlib
import JointMax.Proofs.Unions

/-
  Scopes with everything checked that their making takes for
  granted. The variables and sizes of a scope are stored side
  by side. Merged, filtered or looked up, they make a scope
  only if the variables are in strictly increasing order and
  no size is zero. This is always so.

  Main declarations:
    * `Scope.pairs` and `Guarded.packScope`
    * `Axis.mergePairs` and `Axis.mergePairs_eq`
    * `Guarded.union`, `Guarded.unionAll`, `Guarded.ofVars`,
      `Guarded.ofVar` and `Guarded.filter`
    * `Scope.count_le_of_includes`
-/

------------------------------------------------------------
-- Stored Pairs
------------------------------------------------------------

namespace JointMax

/- A variable and its size, side by side. -/
def Axis.pair (axis : Axis) : VarId × Nat :=
  (axis.var, axis.size)

/- What is stored of a scope. -/
def Scope.pairs (scope : Scope) : List (VarId × Nat) :=
  scope.axes.map Axis.pair

theorem Axis.ofParts?_map (axes : List Axis) :
    ofParts? (axes.map var) (axes.map size) = .ok axes := by
  induction axes with
  | nil => rfl
  | cons axis axes ih =>
      simp only [List.map_cons, ofParts?, axis.size_pos,
        dif_pos, ih]
      rfl

theorem Scope.ofParts?_vars (scope : Scope) :
    ofParts? scope.vars scope.sizes = .ok scope := by
  have hLength : scope.vars.length = scope.sizes.length := by
    simp [vars, sizes]
  rw [ofParts?, dif_pos hLength,
    dif_pos scope.increasing_vars]
  have hAxes := Axis.ofParts?_map scope.axes
  split
  · rename_i axes hFound
    exact congrArg Except.ok
      (Scope.ext (Except.ok.inj (hFound.symm.trans hAxes)))
  · rename_i fault hFound
    cases hFound.symm.trans hAxes

theorem Scope.ofParts?_pairs (scope : Scope) :
    ofParts? (scope.pairs.map Prod.fst)
      (scope.pairs.map Prod.snd) = .ok scope := by
  have hVars :
      scope.pairs.map Prod.fst = scope.vars := by
    simp [pairs, Axis.pair, vars]
  have hSizes :
      scope.pairs.map Prod.snd = scope.sizes := by
    simp [pairs, Axis.pair, sizes]
  rw [hVars, hSizes, ofParts?_vars]

namespace Guarded

/- A scope, if the pairs are those of one. -/
def packScope (pairs : List (VarId × Nat)) : Option Scope :=
  (Scope.ofParts? (pairs.map Prod.fst)
    (pairs.map Prod.snd)).toOption

theorem packScope_pairs (scope : Scope) :
    packScope scope.pairs = some scope := by
  rw [packScope, Scope.ofParts?_pairs]
  rfl

end Guarded

end JointMax

------------------------------------------------------------
-- Merging
------------------------------------------------------------

namespace JointMax

namespace Axis

/-
  Merge two sorted lists of pairs in one walk along both. The
  first variable that is met with two sizes is refused.
-/
def mergePairs :
    List (VarId × Nat) → List (VarId × Nat) →
      Except Fault (List (VarId × Nat))
  | [], others => .ok others
  | pair :: pairs, [] => .ok (pair :: pairs)
  | pair :: pairs, other :: others =>
      if pair.1 < other.1 then
        (mergePairs pairs (other :: others)).map (pair :: ·)
      else if other.1 < pair.1 then
        (mergePairs (pair :: pairs) others).map (other :: ·)
      else if pair.2 = other.2 then
        (mergePairs pairs others).map (pair :: ·)
      else
        .error (.badScope
          (.unionConflict pair.1 pair.2 other.2))
  termination_by pairs others => pairs.length + others.length

/- An axis before all others stays in front of the union. -/
theorem joinAll?_cons
    {axis : Axis}
    {axes others : List Axis}
    (hBefore : ∀ other ∈ others, axis.var < other.var) :
    joinAll? (axis :: axes) others =
      (joinAll? axes others).map (axis :: ·) := by
  induction others generalizing axes with
  | nil => rfl
  | cons other others ih =>
      have hFirst := hBefore other (by simp)
      have hLater : ∀ another ∈ others,
          axis.var < another.var :=
        fun another hAnother =>
          hBefore another (by simp [hAnother])
      have hNotLess : ¬ other.var < axis.var :=
        fun hLess => UInt32.lt_irrefl _
          (UInt32.lt_trans hFirst hLess)
      have hNe : other.var ≠ axis.var :=
        (UInt32.ne_of_lt hFirst).symm
      simp only [joinAll?, join?, hNotLess, hNe, if_false]
      cases join? other axes with
      | error fault => rfl
      | ok joined => exact ih hLater

theorem joinAll?_nil
    {others : List Axis}
    (hOthers : Sorted others) :
    joinAll? [] others = .ok others := by
  induction others with
  | nil => rfl
  | cons other others ih =>
      rcases List.pairwise_cons.mp hOthers with
        ⟨hFirst, hRest⟩
      rw [joinAll?, join?]
      simp only
      rw [joinAll?_cons hFirst, ih hRest]
      rfl

theorem map_cons_pair
    (axis : Axis)
    (joined : Except Fault (List Axis)) :
    (joined.map (List.map pair)).map (axis.pair :: ·) =
      (joined.map (axis :: ·)).map (List.map pair) := by
  cases joined <;> rfl

/- The walk lists what putting the axes in one by one does. -/
theorem mergePairs_eq
    {axes others : List Axis}
    (hAxes : Sorted axes)
    (hOthers : Sorted others) :
    mergePairs (axes.map pair) (others.map pair) =
      (joinAll? axes others).map (List.map pair) := by
  induction axes generalizing others with
  | nil =>
      rw [joinAll?_nil hOthers, List.map_nil, mergePairs]
      rfl
  | cons axis axes ihAxes =>
      rcases List.pairwise_cons.mp hAxes with
        ⟨hAfterAxis, hAxesTail⟩
      induction others with
      | nil => simp [mergePairs, joinAll?, Except.map]
      | cons other others ihOthers =>
          rcases List.pairwise_cons.mp hOthers with
            ⟨hAfterOther, hOthersTail⟩
          simp only [List.map_cons, mergePairs]
          change
            (if axis.var < other.var then _
              else if other.var < axis.var then _
              else if axis.size = other.size then _
              else _) = _
          split
          · rename_i hLess
            have hBefore :
                ∀ another ∈ other :: others,
                  axis.var < another.var := by
              intro another hAnother
              rcases List.mem_cons.mp hAnother with
                rfl | hAnother
              · exact hLess
              · exact UInt32.lt_trans hLess
                  (hAfterOther another hAnother)
            rw [joinAll?_cons hBefore, ← map_cons_pair,
              ← ihAxes hAxesTail hOthers]
            rfl
          · rename_i hNotLess
            split
            · rename_i hGreater
              have hJoin :
                  join? other (axis :: axes) =
                    .ok (other :: axis :: axes) := by
                rw [join?, if_pos hGreater]
              rw [joinAll?, hJoin]
              dsimp only
              rw [joinAll?_cons hAfterOther, ← map_cons_pair,
                ← ihOthers hOthersTail]
              rfl
            · rename_i hNotGreater
              have hVar : other.var = axis.var :=
                UInt32.le_antisymm
                  (UInt32.not_lt.mp hNotLess)
                  (UInt32.not_lt.mp hNotGreater)
              split
              · rename_i hSize
                have hJoin :
                    join? other (axis :: axes) =
                      .ok (axis :: axes) := by
                  rw [join?, if_neg hNotGreater, if_pos hVar,
                    if_pos hSize]
                rw [joinAll?, hJoin]
                dsimp only
                rw [joinAll?_cons (hVar ▸ hAfterOther),
                  ← map_cons_pair,
                  ← ihAxes hAxesTail hOthersTail]
              · rename_i hSize
                have hJoin :
                    join? other (axis :: axes) =
                      .error (.badScope (.unionConflict
                        axis.var axis.size other.size)) := by
                  rw [join?, if_neg hNotGreater, if_pos hVar,
                    if_neg hSize, hVar]
                rw [joinAll?, hJoin]
                rfl

end Axis

end JointMax

------------------------------------------------------------
-- Making Scopes
------------------------------------------------------------

namespace JointMax

namespace Guarded

def union (first second : Scope) :
    Option (Except Fault Scope) :=
  if first.includes second then
    some (.ok first)
  else
    match Axis.mergePairs first.pairs second.pairs with
    | .error fault => some (.error fault)
    | .ok pairs => (packScope pairs).map .ok

def unionAll :
    Scope → List Scope → Option (Except Fault Scope)
  | scope, [] => some (.ok scope)
  | scope, other :: others => do
      match ← union scope other with
      | .error fault => return .error fault
      | .ok next => unionAll next others

def filter (scope : Scope) (keep : VarId → Bool) :
    Option Scope :=
  packScope (scope.pairs.filter fun pair => keep pair.1)

def ofVars (registry : Registry) (vars : List VarId) :
    Option (Except Fault Scope) :=
  match Axis.resolve? registry (sortVars vars) with
  | .error fault => some (.error fault)
  | .ok axes => (packScope (axes.map Axis.pair)).map .ok

def ofVar (registry : Registry) (var : VarId) :
    Option (Except Fault Scope) :=
  match registry.size? var with
  | .error fault => some (.error fault)
  | .ok size => (packScope [(var, size.val)]).map .ok

theorem union_eq (first second : Scope) :
    union first second = some (first.union? second) := by
  unfold union
  split
  · rename_i hIncludes
    rw [Scope.union?_of_includes hIncludes]
  · unfold Scope.pairs
    rw [Axis.mergePairs_eq first.sorted second.sorted,
      Scope.union?]
    split
    · rename_i hRefused
      split
      · rename_i hAxes
        rw [hAxes] at hRefused
        cases hRefused
      · rename_i hAxes
        rw [hAxes] at hRefused
        cases hRefused
        rfl
    · rename_i pairs hPairs
      split
      · rename_i axes hAxes
        rw [hAxes] at hPairs
        cases hPairs
        exact congrArg (Option.map Except.ok)
          (packScope_pairs ⟨axes, _⟩)
      · rename_i hAxes
        rw [hAxes] at hPairs
        cases hPairs

theorem unionAll_eq (scope : Scope) (others : List Scope) :
    unionAll scope others =
      some (scope.unionAll? others) := by
  induction others generalizing scope with
  | nil => rfl
  | cons other others ih =>
      rw [unionAll, union_eq, Scope.unionAll?]
      cases scope.union? other with
      | error fault => rfl
      | ok next => exact ih next

theorem filter_eq (scope : Scope) (keep : VarId → Bool) :
    filter scope keep = some (scope.filter keep) := by
  have hPairs :
      scope.pairs.filter (fun pair => keep pair.1) =
        (scope.filter keep).pairs := by
    simp only [Scope.pairs, Scope.filter, List.filter_map]
    rfl
  rw [filter, hPairs, packScope_pairs]

theorem ofVars_eq
    (registry : Registry)
    (vars : List VarId) :
    ofVars registry vars =
      some (Scope.ofVars? registry vars) := by
  unfold ofVars Scope.ofVars?
  split
  · rename_i hRefused
    split
    · rename_i hAxes
      rw [hAxes] at hRefused
      cases hRefused
    · rename_i hAxes
      rw [hAxes] at hRefused
      cases hRefused
      rfl
  · rename_i axes hAxes
    split
    · rename_i hSame
      rw [hAxes] at hSame
      cases hSame
      exact congrArg (Option.map Except.ok)
        (packScope_pairs ⟨axes, _⟩)
    · rename_i hRefused
      rw [hAxes] at hRefused
      cases hRefused

theorem ofVar_eq
    (registry : Registry)
    (var : VarId) :
    ofVar registry var =
      some (Scope.ofVar? registry var) := by
  unfold ofVar Scope.ofVar?
  cases registry.size? var with
  | error fault => rfl
  | ok size =>
      exact congrArg (Option.map Except.ok)
        (packScope_pairs
          (Scope.ofAxis ⟨var, size.val, size.property⟩))

end Guarded

end JointMax

------------------------------------------------------------
-- Sizes of Included Scopes
------------------------------------------------------------

namespace JointMax

namespace Scope

/- Both scopes are included in their union. -/
theorem includes_of_union?
    {first second union : Scope}
    (hUnion : first.union? second = .ok union) :
    union.includes first = true ∧
      union.includes second = true := by
  rcases union?_cases first second with
    ⟨found, hFound, hAxes⟩ | ⟨_, _, _, _, _, _, hRefused⟩
  · rw [hUnion] at hFound
    cases hFound
    exact
      ⟨includes_iff.mpr fun axis hAxis =>
          (hAxes axis).mpr (.inl hAxis),
        includes_iff.mpr fun axis hAxis =>
          (hAxes axis).mpr (.inr hAxis)⟩
  · rw [hUnion] at hRefused
    cases hRefused

/- A scope that holds another one is their union. -/
theorem union?_of_included
    {first second : Scope}
    (hIncludes : second.includes first = true) :
    first.union? second = .ok second := by
  have hCompatible : first.Compatible second := by
    intro mine hMine other hOther hVar
    exact (compatible_of_includes hIncludes other hOther mine
      hMine hVar.symm).symm
  rcases union?_of_compatible hCompatible with
    ⟨union, hUnion, hAxes⟩
  have hSame : union = second := by
    apply eq_of_mem_iff
    intro axis
    rw [hAxes]
    exact or_iff_right_of_imp
      (includes_iff.mp hIncludes axis)
  rw [hUnion, hSame]

/- All scopes are included in the union of a list. -/
theorem includes_of_unionAll?
    {scope union : Scope}
    {others : List Scope}
    (hUnion : scope.unionAll? others = .ok union) :
    ∀ member ∈ scope :: others,
      union.includes member = true := by
  induction others generalizing scope with
  | nil =>
      cases hUnion
      simpa using includes_self _
  | cons other others ih =>
      simp only [unionAll?] at hUnion
      split at hUnion
      · rename_i next hNext
        have hLater := ih hUnion
        rcases includes_of_union? hNext with
          ⟨hScope, hOther⟩
        have hUp : ∀ part : Scope,
            next.includes part = true →
              union.includes part = true := by
          intro part hPart
          refine includes_iff.mpr fun axis hAxis => ?_
          exact includes_iff.mp (hLater next (by simp)) axis
            (includes_iff.mp hPart axis hAxis)
        intro member hMember
        rcases List.mem_cons.mp hMember with rfl | hMember
        · exact hUp _ hScope
        · rcases List.mem_cons.mp hMember with rfl | hMember
          · exact hUp _ hOther
          · exact hLater member (by simp [hMember])
      · cases hUnion

/- An included scope has no more joint values. -/
theorem count_le_of_includes
    {larger smaller : Scope}
    (hIncludes : larger.includes smaller = true) :
    smaller.count ≤ larger.count := by
  have hSublist :=
    (includes_iff_sublist.mp hIncludes).map Axis.size
  have hPos : ∀ size ∈ larger.sizes, 0 < size := by
    simpa [sizes] using fun axis _ => axis.size_pos
  unfold count
  change smaller.sizes.Sublist larger.sizes at hSublist
  generalize smaller.sizes = less at hSublist
  generalize larger.sizes = more at hSublist hPos
  induction hSublist with
  | slnil => exact le_refl _
  | @cons less more size _ ih =>
      rcases List.forall_mem_cons.mp hPos with
        ⟨hSize, hRest⟩
      exact (ih hRest).trans
        (Nat.le_mul_of_pos_left _ hSize)
  | @cons_cons less more size _ ih =>
      rcases List.forall_mem_cons.mp hPos with ⟨_, hRest⟩
      exact Nat.mul_le_mul_left size (ih hRest)

end Scope

end JointMax

