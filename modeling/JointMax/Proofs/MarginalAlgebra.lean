import Mathlib
import JointMax.Proofs.Folds

/-
  Laws of marginals. An operation that distributes over the
  aggregate can be done before or after variables are
  eliminated that only its first operand has, and variables
  can be eliminated in two steps or in one.

  Main declarations:
    * `foldFirst_map`
    * `Table.Combined.sliced` and `Table.marginal_distributes`
    * `foldFirst_flatMap` and `foldFirst_perm`
    * `Table.places_perm` and `Table.marginals_compose`
-/

------------------------------------------------------------
-- Slices of Combinations
------------------------------------------------------------

namespace JointMax

/- What distributes over the aggregate can wait for the fold. -/
theorem foldFirst_map
    {α : Type}
    {aggregate : α → α → α}
    {change : α → α}
    (hChange : ∀ a b,
      change (aggregate a b) = aggregate (change a) (change b))
    (values : List α) :
    foldFirst aggregate (values.map change) =
      (foldFirst aggregate values).map change := by
  cases values with
  | nil => rfl
  | cons first rest =>
      rw [List.map_cons, foldFirst, foldFirst,
        List.foldl_map, Option.map_some]
      apply congrArg some
      apply List.foldl_hom
      intro a b
      exact (hChange a b).symm

namespace Table

variable {α : Type} [Scalar α]
variable {op : α → α → α}
variable {left right joined part : Table α}
variable {narrow union : Scope}
variable {choice : VarId → Nat}

omit [Scalar α] in
theorem foldFirst_values_map
    {aggregate : α → α → α}
    {change : α → α}
    (hChange : ∀ a b,
      change (aggregate a b) = aggregate (change a) (change b))
    (table : Table α) :
    foldFirst aggregate (table.map change).values.toList =
      (foldFirst aggregate table.values.toList).map
        change := by
  have hValues :
      (table.map change).values.toList =
        table.values.toList.map change :=
    Array.toList_map
  rw [hValues, foldFirst_map hChange]

/- A part of the first scope, with the second, is a part. -/
theorem Combined.includes_union
    (hCombined : Combined op left right joined)
    (hNarrow : left.scope.includes narrow = true)
    (hUnion : ∀ axis,
      axis ∈ union.axes ↔
        axis ∈ narrow.axes ∨ axis ∈ right.scope.axes) :
    joined.scope.includes union = true := by
  apply Scope.includes_iff.mpr
  intro axis hAxis
  apply (hCombined.axes axis).mpr
  exact ((hUnion axis).mp hAxis).imp
    (Scope.includes_iff.mp hNarrow axis) id

/-
  A slice of a combination is a slice of the first operand,
  with one value of the second at each of its values, if the
  variables of the second operand are fixed.
-/
theorem Combined.sliced
    (hCombined : Combined op left right joined)
    (hNarrow : left.scope.includes narrow = true)
    (hShared : ∀ var ∈ left.vars,
      var ∈ right.vars → var ∈ narrow.vars)
    (hUnion : ∀ axis,
      axis ∈ union.axes ↔
        axis ∈ narrow.axes ∨ axis ∈ right.scope.axes)
    (hAdmits : union.Admits choice)
    (hPart : left.Sliced (narrow.only choice) part) :
    joined.Sliced (union.only choice)
      (part.map (op · (right.eval choice))) := by
  have hVars : ∀ var,
      var ∈ union.vars ↔
        var ∈ narrow.vars ∨ var ∈ right.vars := by
    intro var
    simp only [vars, Scope.mem_vars_iff, hUnion, or_and_right,
      exists_or]
  -- The first operand has no other variable of the union.
  have hOwn : ∀ var ∈ left.vars,
      (var ∈ union.vars ↔ var ∈ narrow.vars) := by
    intro var hVar
    rw [hVars]
    exact or_iff_left_of_imp (hShared var hVar)
  have hJoined : joined.scope.includes union = true :=
    hCombined.includes_union hNarrow hUnion
  have hAxes : ∀ axis,
      axis ∈ part.scope.axes ↔
        axis ∈ joined.scope.axes ∧
          union.only choice axis.var = none := by
    intro axis
    rw [hPart.mem_axes, hCombined.axes,
      Scope.only_eq_none_iff]
    constructor
    · rintro ⟨hAxis, hOutside⟩
      refine ⟨.inl hAxis, ?_⟩
      rwa [hOwn axis.var (Scope.mem_vars hAxis)]
    · rintro ⟨hAxis | hAxis, hOutside⟩
      · refine ⟨hAxis, ?_⟩
        rwa [← hOwn axis.var (Scope.mem_vars hAxis)]
      · exact absurd
          ((hVars axis.var).mpr
            (.inr (Scope.mem_vars hAxis))) hOutside
  have hInside : ∀ rest, part.scope.Admits rest →
      joined.scope.Admits
        (completed (union.only choice) rest) := by
    intro rest hRest axis hAxis
    by_cases hVar : axis.var ∈ union.vars
    · rw [Scope.completed_only_of_mem hVar]
      exact hAdmits axis
        (Scope.mem_axes_of_includes hJoined hAxis hVar)
    · rw [Scope.completed_only_of_not_mem hVar]
      exact hRest axis ((hAxes axis).mpr
        ⟨hAxis, Scope.only_eq_none_iff.mpr hVar⟩)
  refine ⟨hAxes, hInside, ?_⟩
  intro rest hRest
  change part.scope.Admits rest at hRest
  rw [eval_map hRest, hPart.values rest hRest]
  symm
  apply hCombined.values _ _ _ (hInside rest hRest)
  · intro var hVar
    by_cases hFixed : var ∈ narrow.vars
    · rw [Scope.completed_only_of_mem hFixed,
        Scope.completed_only_of_mem
          ((hOwn var hVar).mpr hFixed)]
    · rw [Scope.completed_only_of_not_mem hFixed,
        Scope.completed_only_of_not_mem
          (mt (hOwn var hVar).mp hFixed)]
  · intro var hVar
    exact Scope.completed_only_of_mem
      ((hVars var).mpr (.inr hVar)) choice rest

end Table

end JointMax

------------------------------------------------------------
-- The Distributive Law
------------------------------------------------------------

namespace JointMax

namespace Table

variable {α : Type} [Scalar α]
variable {aggregate op : α → α → α}

/-
  To eliminate variables of the first operand that the second
  one does not have, after a combination or before it, gives
  the same table, if the operation distributes.
-/
theorem marginal_distributes
    (hDistributes : ∀ a b c,
      op (aggregate a b) c = aggregate (op a c) (op b c))
    {left right narrow : Table α}
    (hCompatible : left.scope.Compatible right.scope)
    (hNarrow : ∀ axis ∈ narrow.scope.axes,
      axis ∈ left.scope.axes)
    (hShared : ∀ var ∈ left.vars,
      var ∈ right.vars → var ∈ narrow.vars) :
    ∃ union joined reduced result,
      narrow.scope.union? right.scope = .ok union ∧
      zipWith? op left right = .ok joined ∧
      marginal? aggregate left narrow = .ok reduced ∧
      zipWith? op reduced right = .ok result ∧
      result.scope = union ∧
      ∀ wide, wide.scope = union →
        marginal? aggregate joined wide = .ok result := by
  have hIncludes : left.scope.includes narrow.scope = true :=
    Scope.includes_iff.mpr hNarrow
  rcases zipWith?_of_compatible op hCompatible with
    ⟨joined, hJoined, hCombined⟩
  rcases marginal?_folds aggregate hIncludes with
    ⟨reduced, hReduced, hScope, hFolds⟩
  have hReducedCompatible :
      reduced.scope.Compatible right.scope := by
    rw [hScope]
    intro mine hMine
    exact hCompatible mine (hNarrow mine hMine)
  rcases zipWith?_of_compatible op hReducedCompatible with
    ⟨result, hResult, hProduct⟩
  refine ⟨result.scope, joined, reduced, result,
    hScope ▸ hProduct.union, hJoined, hReduced, hResult, rfl,
    ?_⟩
  intro wide hWide
  have hUnion : ∀ axis,
      axis ∈ wide.scope.axes ↔
        axis ∈ narrow.scope.axes ∨
          axis ∈ right.scope.axes := by
    rw [hWide, ← hScope]
    exact hProduct.axes
  rcases marginal?_folds aggregate
      (hCombined.includes_union hIncludes hUnion) with
    ⟨late, hLate, hLateScope, hLateFolds⟩
  rw [hLate]
  apply congrArg Except.ok
  apply ext_eval (hLateScope.trans hWide)
  intro choice hLateAdmits
  have hAdmits : wide.scope.Admits choice :=
    hLateScope ▸ hLateAdmits
  have hNarrowAdmits : narrow.scope.Admits choice := by
    intro axis hAxis
    exact hAdmits axis ((hUnion axis).mpr (.inl hAxis))
  rcases exists_sliced hIncludes hNarrowAdmits with
    ⟨part, _, hPart⟩
  have hSlice :=
    hCombined.sliced hIncludes hShared hUnion hAdmits hPart
  have hFold := hLateFolds choice hAdmits _ hSlice
  rw [foldFirst_values_map fun a b => hDistributes a b _,
    hFolds choice hNarrowAdmits part hPart, Option.map_some,
    Option.some_inj] at hFold
  have hAgree : ∀ scope : Scope, scope.Agree choice choice :=
    fun _ _ _ => rfl
  rw [← hFold]
  exact (hProduct.values choice choice choice
    (hWide ▸ hAdmits) (hAgree _) (hAgree _)).symm

/- Three variables, of which one is charged for. -/
def heights : Table Rat where
  scope :=
    ⟨[⟨1, 2, Nat.two_pos⟩, ⟨3, 2, Nat.two_pos⟩,
      ⟨5, 2, Nat.two_pos⟩], by decide⟩
  values := #[3, 1, 4, 1, 5, 9, 2, 6]
  size_eq := rfl

def charges : Table Rat where
  scope :=
    ⟨[⟨2, 2, Nat.two_pos⟩, ⟨3, 2, Nat.two_pos⟩], by decide⟩
  values := #[0, 2, 5, 3]
  size_eq := rfl

/- The charged variable alone. -/
def charged : Table Rat :=
  filled ⟨[⟨3, 2, Nat.two_pos⟩], by decide⟩ 0

/- Charges are made before or after the greatest is taken. -/
theorem marginal_distributes_charges :
    ∃ union joined reduced result,
      charged.scope.union? charges.scope = .ok union ∧
      zipWith? (· + ·) heights charges = .ok joined ∧
      marginal? Scalar.larger heights charged =
        .ok reduced ∧
      zipWith? (· + ·) reduced charges = .ok result ∧
      result.scope = union ∧
      ∀ wide, wide.scope = union →
        marginal? Scalar.larger joined wide =
          .ok result := by
  have hDistributes : ∀ a b c : Rat,
      Scalar.larger a b + c =
        Scalar.larger (a + c) (b + c) := by
    intro a b c
    rw [Scalar.larger_rat, Scalar.larger_rat]
    exact (max_add_add_right a b c).symm
  have hCompatible :
      heights.scope.Compatible charges.scope := by
    unfold Scope.Compatible
    decide
  have hShared : ∀ var ∈ heights.vars,
      var ∈ charges.vars → var ∈ charged.vars := by
    simp [vars, Scope.vars, heights, charges, charged, filled]
  exact marginal_distributes hDistributes hCompatible
    (by decide) hShared

end Table

end JointMax

------------------------------------------------------------
-- Folds in Parts
------------------------------------------------------------

namespace JointMax

variable {α : Type}
variable {aggregate : α → α → α}

/- A list can be folded by itself and its fold absorbed. -/
theorem foldl_absorb_of_foldFirst
    (hAssoc : ∀ a b c,
      aggregate (aggregate a b) c =
        aggregate a (aggregate b c))
    {values : List α}
    {value : α}
    (hFold : foldFirst aggregate values = some value)
    (found : Option α) :
    values.foldl
        (fun found value =>
          Table.absorb aggregate value found) found =
      Table.absorb aggregate value found := by
  cases found with
  | none =>
      rw [Table.foldl_absorb, hFold]
      rfl
  | some previous =>
      cases values with
      | nil => cases hFold
      | cons first rest =>
          cases hFold
          have : Std.Associative aggregate := ⟨hAssoc⟩
          rw [Table.foldl_absorb_some, List.foldl_cons,
            List.foldl_assoc]
          rfl

/- Parts are folded one by one, and then their folds. -/
theorem foldFirst_flatMap
    (hAssoc : ∀ a b c,
      aggregate (aggregate a b) c =
        aggregate a (aggregate b c))
    {β : Type}
    {parts : List β}
    {values : β → List α}
    {total : β → α}
    (hTotal : ∀ part ∈ parts,
      foldFirst aggregate (values part) =
        some (total part)) :
    foldFirst aggregate (parts.flatMap values) =
      foldFirst aggregate (parts.map total) := by
  rw [← Table.foldl_absorb, ← Table.foldl_absorb]
  generalize (none : Option α) = found
  induction parts generalizing found with
  | nil => rfl
  | cons part parts ih =>
      rcases List.forall_mem_cons.mp hTotal with
        ⟨hPart, hParts⟩
      rw [List.flatMap_cons, List.foldl_append,
        foldl_absorb_of_foldFirst hAssoc hPart, ih hParts]
      rfl

/- The order of values does not matter for the fold. -/
theorem foldFirst_perm
    (hAssoc : ∀ a b c,
      aggregate (aggregate a b) c =
        aggregate a (aggregate b c))
    (hComm : ∀ a b, aggregate a b = aggregate b a)
    {first second : List α}
    (hPerm : first.Perm second) :
    foldFirst aggregate first =
      foldFirst aggregate second := by
  have : RightCommutative fun found value =>
      Table.absorb aggregate value found := by
    constructor
    intro found a b
    cases found with
    | none => exact congrArg some (hComm a b)
    | some previous =>
        apply congrArg some
        rw [hAssoc, hAssoc, hComm a b]
  rw [← Table.foldl_absorb, ← Table.foldl_absorb]
  exact hPerm.foldl_eq none

end JointMax

------------------------------------------------------------
-- Marginals of Marginals
------------------------------------------------------------

namespace JointMax

namespace Table

variable {α : Type} [Scalar α]
variable {aggregate : α → α → α}
variable {input middle : Table α}

/- A joint value is found under its own number in between. -/
omit [Scalar α] in
theorem number_of_mem_places
    {choice : VarId → Nat}
    {index place : Nat}
    (hIncludes : input.scope.includes middle.scope = true)
    (hIndex : index < middle.scope.count)
    (hPlace :
      place ∈ input.places middle.scope
        (middle.scope.revise index choice)) :
    middle.scope.number (input.scope.revise place choice) =
      index := by
  have hBase :
      middle.scope.Agree (input.scope.revise place choice)
        (input.scope.revise place
          (middle.scope.revise index choice)) :=
    (Scope.agree_revise place _ _).of_includes hIncludes
  rw [Scope.number_congr hBase,
    Scope.number_congr (mem_places.mp hPlace).2,
    Scope.number_revise hIndex]

/- Different joint values in between have no place in common. -/
omit [Scalar α] in
theorem nodup_flatMap_places
    (hIncludes : input.scope.includes middle.scope = true)
    (narrow : Scope)
    (choice : VarId → Nat) :
    ((middle.places narrow choice).flatMap fun index =>
      input.places middle.scope
        (middle.scope.revise index choice)).Nodup := by
  apply List.nodup_flatMap.mpr
  constructor
  · intro index _
    exact nodup_places input middle.scope _
  · apply (nodup_places middle narrow
      choice).pairwise_of_forall_ne
    intro first hFirst second hSecond hNe place hIn hAlso
    apply hNe
    rw [← number_of_mem_places hIncludes
        (mem_places.mp hFirst).1 hIn,
      number_of_mem_places hIncludes
        (mem_places.mp hSecond).1 hAlso]

/-
  Joint values of the input that agree with a choice, sorted
  by the joint values of a table in between.
-/
omit [Scalar α] in
theorem places_perm
    {narrow : Scope}
    (hInput : input.scope.includes middle.scope = true)
    (hMiddle : middle.scope.includes narrow = true)
    (choice : VarId → Nat) :
    (input.places narrow choice).Perm
      ((middle.places narrow choice).flatMap fun index =>
        input.places middle.scope
          (middle.scope.revise index choice)) := by
  apply (List.perm_ext_iff_of_nodup
    (nodup_places input narrow choice)
    (nodup_flatMap_places hInput narrow choice)).mpr
  intro place
  rw [List.mem_flatMap]
  constructor
  · intro hPlace
    rcases mem_places.mp hPlace with ⟨hBelow, hAgree⟩
    have hPoint := @Scope.admits_revise input.scope place
      choice hBelow
    have hPart := hPoint.of_includes hInput
    have hNumber := Scope.number_lt hPart
    refine ⟨_, number_mem_places hMiddle hPart hAgree, ?_⟩
    have hSame :=
      number_mem_places hInput hPoint
        (Scope.agree_of_number_eq hPart
          (Scope.admits_revise hNumber)
          (@Scope.number_revise _ _ choice hNumber).symm)
    rwa [Scope.number_revise hBelow] at hSame
  · rintro ⟨index, hMember, hPlace⟩
    rcases mem_places.mp hMember with ⟨hBelow, hAgree⟩
    rcases mem_places.mp hPlace with ⟨hInside, hSame⟩
    refine mem_places.mpr ⟨hInside, ?_⟩
    have hBase :
        narrow.Agree (input.scope.revise place choice)
          (input.scope.revise place
            (middle.scope.revise index choice)) :=
      ((Scope.agree_revise place _ _).of_includes
        hInput).of_includes hMiddle
    intro var hVar
    rw [hBase var hVar, hSame.of_includes hMiddle var hVar,
      hAgree var hVar]

/-
  Variables are eliminated in two steps as they are in one, by
  any aggregate that does not depend on order and grouping.
-/
theorem marginals_compose
    (hAssoc : ∀ a b c,
      aggregate (aggregate a b) c =
        aggregate a (aggregate b c))
    (hComm : ∀ a b, aggregate a b = aggregate b a)
    {input wide narrow : Table α}
    (hWide : ∀ axis ∈ wide.scope.axes,
      axis ∈ input.scope.axes)
    (hNarrow : ∀ axis ∈ narrow.scope.axes,
      axis ∈ wide.scope.axes) :
    ∃ middle result,
      marginal? aggregate input wide = .ok middle ∧
      marginal? aggregate middle narrow = .ok result ∧
      ∀ other, other.scope = narrow.scope →
        marginal? aggregate input other = .ok result := by
  have hFirst : input.scope.includes wide.scope = true :=
    Scope.includes_iff.mpr hWide
  have hSecond : wide.scope.includes narrow.scope = true :=
    Scope.includes_iff.mpr hNarrow
  have hBoth : input.scope.includes narrow.scope = true :=
    Scope.includes_iff.mpr fun axis hAxis =>
      hWide axis (hNarrow axis hAxis)
  rcases marginal?_of_includes aggregate hFirst with
    ⟨middle, hMiddle, hScope, hMiddleEval⟩
  rw [← hScope] at hFirst hSecond hMiddleEval
  rcases marginal?_of_includes aggregate hSecond with
    ⟨result, hResult, hResultScope, hResultEval⟩
  rcases marginal?_of_includes aggregate hBoth with
    ⟨direct, hDirect, hDirectScope, hDirectEval⟩
  refine ⟨middle, result, hMiddle, hResult, ?_⟩
  intro other hOther
  rw [marginal?_congr aggregate hOther, hDirect]
  apply congrArg Except.ok
  apply ext_eval (hDirectScope.trans hResultScope.symm)
  intro choice hAdmits
  rw [hDirectScope] at hAdmits
  have hParts :
      foldFirst aggregate
          ((input.places narrow.scope choice).map
            input.cell) =
        foldFirst aggregate
          ((middle.places narrow.scope choice).map
            middle.cell) := by
    rw [foldFirst_perm hAssoc hComm
        ((places_perm hFirst hSecond choice).map input.cell),
      List.map_flatMap]
    apply foldFirst_flatMap hAssoc
    intro index hIndex
    have hBelow := (mem_places.mp hIndex).1
    rw [hMiddleEval _ (Scope.admits_revise hBelow),
      ← cell_eq_eval_revise choice hBelow]
  rw [hDirectEval choice hAdmits,
    hResultEval choice hAdmits] at hParts
  exact Option.some_inj.mp hParts

/- Sums of heights, by one variable and then by another. -/
theorem marginals_compose_heights :
    ∃ middle result,
      marginal? (· + ·) heights
          (filled
            ⟨[⟨1, 2, Nat.two_pos⟩, ⟨3, 2, Nat.two_pos⟩],
              by decide⟩ 0) =
        .ok middle ∧
      marginal? (· + ·) middle charged = .ok result ∧
      ∀ other, other.scope = charged.scope →
        marginal? (· + ·) heights other = .ok result :=
  marginals_compose Rat.add_assoc Rat.add_comm
    (by decide) (by decide)

end Table

end JointMax
