import Mathlib
import JointMax.Scope.Index
import JointMax.Scope.Union

/-
  Numbers of joint values. Numbers below the count and digit
  lists within the radices correspond to each other, so that
  a table can be read as a function of choices of digits.

  Main declarations:
    * `eq_of_increasing`
    * `MixedRadix.encode_decode` and
      `MixedRadix.decode_encode`
    * `Scope.Admits` and `Scope.number`
    * `Scope.revise`, a choice changed on one scope
    * `Scope.choices`, every joint value in its order
    * `Scope.locate_map`
-/

------------------------------------------------------------
-- Increasing Lists
------------------------------------------------------------

namespace JointMax

theorem nodup_of_increasing
    {vars : List VarId}
    (hVars : Increasing vars) :
    vars.Nodup :=
  hVars.imp fun hLess => UInt32.ne_of_lt hLess

/- Increasing lists of the same variables are equal. -/
theorem eq_of_increasing
    {first second : List VarId}
    (hFirst : Increasing first)
    (hSecond : Increasing second)
    (hVars : ∀ var, var ∈ first ↔ var ∈ second) :
    first = second := by
  have hPerm : first.Perm second :=
    (List.perm_ext_iff_of_nodup (nodup_of_increasing hFirst)
      (nodup_of_increasing hSecond)).mpr hVars
  apply hPerm.eq_of_pairwise _ hFirst hSecond
  intro left right _ _ hLess hGreater
  exact absurd hGreater (UInt32.lt_asymm hLess)

end JointMax

------------------------------------------------------------
-- Numbers and Digits
------------------------------------------------------------

namespace JointMax

namespace MixedRadix

theorem count_eq_prod (radices : List Nat) :
    count radices = radices.prod := by
  induction radices with
  | nil => rfl
  | cons radix radices ih =>
      rw [count, ih, List.prod_cons]

theorem within_decode
    {radices : List Nat}
    {index : Nat}
    (hIndex : index < count radices) :
    Within radices (decode radices index) := by
  induction radices generalizing index with
  | nil => exact Within.nil
  | cons radix radices ih =>
      have hRadix : 0 < radix := by
        rcases Nat.eq_zero_or_pos radix with hZero | hPos
        · simp [count, hZero] at hIndex
        · exact hPos
      exact Within.cons (Nat.mod_lt _ hRadix)
        (ih (Nat.div_lt_of_lt_mul hIndex))

/- A number is recovered from its digits. -/
theorem encode_decode
    {radices : List Nat}
    {index : Nat}
    (hIndex : index < count radices) :
    encode radices (decode radices index) = index := by
  induction radices generalizing index with
  | nil =>
      have hZero : index = 0 := by
        simpa [count] using hIndex
      simp [encode, hZero]
  | cons radix radices ih =>
      simp only [decode, encode,
        ih (Nat.div_lt_of_lt_mul hIndex)]
      exact Nat.mod_add_div index radix

/- Digits are recovered from their number. -/
theorem decode_encode
    {radices digits : List Nat}
    (hWithin : Within radices digits) :
    decode radices (encode radices digits) = digits := by
  induction hWithin with
  | nil => rfl
  | @cons radix digit radices digits head _ ih =>
      have hRadix : 0 < radix := Nat.zero_lt_of_lt head
      simp [decode, encode, Nat.mod_eq_of_lt head,
        Nat.add_mul_div_left _ _ hRadix,
        Nat.div_eq_of_lt head, ih]

theorem within_map
    {β : Type}
    {items : List β}
    {radix digit : β → Nat}
    (hBelow : ∀ item ∈ items, digit item < radix item) :
    Within (items.map radix) (items.map digit) := by
  induction items with
  | nil => exact Within.nil
  | cons item items ih =>
      exact Within.cons (hBelow item (by simp))
        (ih fun other hOther => hBelow other (by simp [hOther]))

end MixedRadix

end JointMax

------------------------------------------------------------
-- Choices
------------------------------------------------------------

namespace JointMax

namespace Scope

/- The choice is in range at each variable of the scope. -/
def Admits (scope : Scope) (choice : VarId → Nat) : Prop :=
  ∀ axis ∈ scope.axes, choice axis.var < axis.size

/- Number of the joint value that a choice picks. -/
def number (scope : Scope) (choice : VarId → Nat) : Nat :=
  MixedRadix.encode scope.sizes (scope.vars.map choice)

/- Two choices agree on the variables of the scope. -/
def Agree
    (scope : Scope)
    (first second : VarId → Nat) : Prop :=
  ∀ var ∈ scope.vars, first var = second var

theorem mem_vars_iff {scope : Scope} {var : VarId} :
    var ∈ scope.vars ↔
      ∃ axis ∈ scope.axes, axis.var = var := by
  simp [vars]

theorem mem_vars
    {scope : Scope}
    {axis : Axis}
    (hAxis : axis ∈ scope.axes) :
    axis.var ∈ scope.vars :=
  mem_vars_iff.mpr ⟨axis, hAxis, rfl⟩

theorem nodup_vars (scope : Scope) : scope.vars.Nodup :=
  nodup_of_increasing scope.increasing_vars

/- A variable has one size in a scope. -/
theorem axis_eq_of_var_eq
    {scope : Scope}
    {first second : Axis}
    (hFirst : first ∈ scope.axes)
    (hSecond : second ∈ scope.axes)
    (hVar : first.var = second.var) :
    first = second :=
  List.inj_on_of_nodup_map scope.nodup_vars
    hFirst hSecond hVar

theorem axis?_eq_some_iff
    {scope : Scope}
    {var : VarId}
    {axis : Axis} :
    scope.axis? var = some axis ↔
      axis ∈ scope.axes ∧ axis.var = var := by
  constructor
  · intro hFound
    have hVar := List.find?_some hFound
    exact ⟨List.mem_of_find?_eq_some hFound,
      beq_iff_eq.mp hVar⟩
  · rintro ⟨hAxis, rfl⟩
    unfold axis?
    rw [List.find?_eq_some_iff_append]
    refine ⟨by simp, ?_⟩
    rcases List.append_of_mem hAxis with
      ⟨before, after, hAxes⟩
    refine ⟨before, after, hAxes, ?_⟩
    intro other hOther
    have hSorted := hAxes ▸ scope.sorted
    have hLess :=
      (List.pairwise_append.mp hSorted).2.2 other hOther
        axis (by simp)
    simpa using UInt32.ne_of_lt hLess

theorem Admits.congr
    {scope : Scope}
    {first second : VarId → Nat}
    (hAgree : scope.Agree first second)
    (hAdmits : scope.Admits first) :
    scope.Admits second := by
  intro axis hAxis
  rw [← hAgree axis.var (mem_vars hAxis)]
  exact hAdmits axis hAxis

theorem number_congr
    {scope : Scope}
    {first second : VarId → Nat}
    (hAgree : scope.Agree first second) :
    scope.number first = scope.number second := by
  simp only [number, List.map_congr_left hAgree]

theorem within_choice
    {scope : Scope}
    {choice : VarId → Nat}
    (hAdmits : scope.Admits choice) :
    MixedRadix.Within scope.sizes
      (scope.vars.map choice) := by
  unfold vars
  rw [List.map_map]
  exact MixedRadix.within_map hAdmits

theorem number_lt
    {scope : Scope}
    {choice : VarId → Nat}
    (hAdmits : scope.Admits choice) :
    scope.number choice < scope.count :=
  MixedRadix.encode_lt (within_choice hAdmits)

theorem decode_number
    {scope : Scope}
    {choice : VarId → Nat}
    (hAdmits : scope.Admits choice) :
    scope.decode (scope.number choice) =
      scope.vars.map choice :=
  MixedRadix.decode_encode (within_choice hAdmits)

/- A joint value is picked by one choice only. -/
theorem agree_of_number_eq
    {scope : Scope}
    {first second : VarId → Nat}
    (hFirst : scope.Admits first)
    (hSecond : scope.Admits second)
    (hNumber : scope.number first = scope.number second) :
    scope.Agree first second := by
  have hDigits :
      scope.vars.map first = scope.vars.map second := by
    rw [← decode_number hFirst, hNumber,
      decode_number hSecond]
  exact List.map_inj_left.mp hDigits

end Scope

end JointMax

------------------------------------------------------------
-- Choices of a Given Number
------------------------------------------------------------

namespace JointMax

theorem map_aligned
    {β : Type}
    {vars : List VarId}
    {items : List β}
    (hNodup : vars.Nodup)
    (hLength : vars.length = items.length) :
    vars.map (aligned vars items) = items.map some := by
  induction vars generalizing items with
  | nil =>
      cases items with
      | nil => rfl
      | cons item items => simp at hLength
  | cons var vars ih =>
      cases items with
      | nil => simp at hLength
      | cons item items =>
          rcases List.nodup_cons.mp hNodup with
            ⟨hFresh, hRest⟩
          have hTail :
              vars.map (aligned (var :: vars)
                (item :: items)) =
                vars.map (aligned vars items) := by
            apply List.map_congr_left
            intro other hOther
            have hNe : (other == var) = false := by
              simpa using fun hEq : other = var =>
                hFresh (hEq ▸ hOther)
            simp [aligned, List.lookup, hNe]
          rw [List.map_cons, List.map_cons, hTail,
            ih hRest (by simpa using hLength)]
          simp [aligned]

namespace Scope

/- The digits of a choice are found beside its variables. -/
theorem aligned_vars
    {scope : Scope}
    (choice : VarId → Nat)
    {var : VarId}
    (hVar : var ∈ scope.vars) :
    aligned scope.vars (scope.vars.map choice) var =
      some (choice var) := by
  have hDigits :
      scope.vars.map
          (aligned scope.vars (scope.vars.map choice)) =
        (scope.vars.map choice).map some :=
    map_aligned scope.nodup_vars (by simp)
  rw [List.map_map] at hDigits
  exact List.map_inj_left.mp hDigits var hVar

/- The base choice, changed to pick a given joint value. -/
def revise
    (scope : Scope)
    (index : Nat)
    (base : VarId → Nat) : VarId → Nat :=
  fun var =>
    (aligned scope.vars (scope.decode index) var).getD
      (base var)

theorem map_revise
    (scope : Scope)
    (index : Nat)
    (base : VarId → Nat) :
    scope.vars.map (scope.revise index base) =
      scope.decode index := by
  have hLength :
      scope.vars.length = (scope.decode index).length := by
    simp [vars, decode, sizes, MixedRadix.length_decode]
  have hAligned :=
    map_aligned scope.nodup_vars hLength
  apply List.map_injective_iff.mpr (Option.some_injective _)
  rw [← hAligned, List.map_map]
  apply List.map_congr_left
  intro var hVar
  have hFound :
      aligned scope.vars (scope.decode index) var ∈
        (scope.decode index).map some := by
    rw [← hAligned]
    exact List.mem_map_of_mem hVar
  rcases List.mem_map.mp hFound with ⟨digit, _, hDigit⟩
  simp [revise, ← hDigit]

theorem number_revise
    {scope : Scope}
    {index : Nat}
    {base : VarId → Nat}
    (hIndex : index < scope.count) :
    scope.number (scope.revise index base) = index := by
  unfold number
  rw [map_revise]
  exact MixedRadix.encode_decode hIndex

theorem admits_of_within
    {axes : List Axis}
    {choice : VarId → Nat}
    (hWithin :
      MixedRadix.Within (axes.map Axis.size)
        ((axes.map Axis.var).map choice)) :
    ∀ axis ∈ axes, choice axis.var < axis.size := by
  induction axes with
  | nil => simp
  | cons head tail ih =>
      cases hWithin with
      | cons hHead hTail =>
          intro axis hAxis
          rcases List.mem_cons.mp hAxis with rfl | hAxis
          · exact hHead
          · exact ih hTail axis hAxis

theorem admits_revise
    {scope : Scope}
    {index : Nat}
    {base : VarId → Nat}
    (hIndex : index < scope.count) :
    scope.Admits (scope.revise index base) := by
  apply admits_of_within
  change MixedRadix.Within scope.sizes
    (scope.vars.map (scope.revise index base))
  rw [map_revise]
  exact MixedRadix.within_decode hIndex

end Scope

end JointMax

------------------------------------------------------------
-- Joint Values in Order
------------------------------------------------------------

namespace JointMax

namespace Scope

variable {scope : Scope}

/- A choice for each joint value, in the order of numbers. -/
def choices (scope : Scope) : List (VarId → Nat) :=
  (List.range scope.count).map fun index =>
    scope.revise index fun _ => 0

theorem admits_of_mem_choices
    {choice : VarId → Nat}
    (hChoice : choice ∈ scope.choices) :
    scope.Admits choice := by
  rcases List.mem_map.mp hChoice with ⟨index, hIndex, rfl⟩
  exact admits_revise (List.mem_range.mp hIndex)

theorem map_number_choices :
    scope.choices.map scope.number =
      List.range scope.count := by
  unfold choices
  rw [List.map_map]
  conv_rhs => rw [← List.map_id (List.range scope.count)]
  apply List.map_congr_left
  intro index hIndex
  exact number_revise (List.mem_range.mp hIndex)

/- No joint value is left out. -/
theorem exists_mem_choices
    {choice : VarId → Nat}
    (hAdmits : scope.Admits choice) :
    ∃ listed ∈ scope.choices,
      scope.Agree listed choice := by
  have hNumber := number_lt hAdmits
  refine ⟨scope.revise (scope.number choice) fun _ => 0,
    List.mem_map_of_mem (List.mem_range.mpr hNumber), ?_⟩
  exact agree_of_number_eq (admits_revise hNumber) hAdmits
    (number_revise hNumber)

/- What is chosen outside the scope does not matter. -/
theorem agree_revise
    (index : Nat)
    (first second : VarId → Nat) :
    scope.Agree (scope.revise index first)
      (scope.revise index second) := by
  apply List.map_inj_left.mp
  rw [map_revise, map_revise]

end Scope

end JointMax

------------------------------------------------------------
-- Inclusion
------------------------------------------------------------

namespace JointMax

namespace Axis

theorem sublist_of_covers
    {axes others : List Axis}
    (hCovers : covers axes others = true) :
    others.Sublist axes := by
  induction axes generalizing others with
  | nil =>
      cases others with
      | nil => exact List.Sublist.slnil
      | cons other others => simp [covers] at hCovers
  | cons mine rest ih =>
      cases others with
      | nil => exact List.nil_sublist _
      | cons other others =>
          simp only [covers] at hCovers
          split at hCovers
          · exact (ih hCovers).cons mine
          · simp only [Bool.and_eq_true,
              decide_eq_true_eq] at hCovers
            rw [hCovers.1]
            exact (ih hCovers.2).cons_cons other

theorem covers_of_subset
    {axes others : List Axis}
    (hAxes : Sorted axes)
    (hOthers : Sorted others)
    (hSubset : ∀ axis ∈ others, axis ∈ axes) :
    covers axes others = true := by
  induction axes generalizing others with
  | nil =>
      cases others with
      | nil => rfl
      | cons other others =>
          exact absurd (hSubset other (by simp)) (by simp)
  | cons mine rest ih =>
      cases others with
      | nil => simp [covers]
      | cons other others =>
          rcases List.pairwise_cons.mp hAxes with
            ⟨hMine, hRest⟩
          rcases List.pairwise_cons.mp hOthers with
            ⟨hOther, hTail⟩
          simp only [covers]
          split
          · rename_i hBelow
            apply ih hRest hOthers
            intro axis hAxis
            rcases List.mem_cons.mp (hSubset axis hAxis) with
              rfl | hFound
            · exfalso
              rcases List.mem_cons.mp hAxis with rfl | hAxis
              · exact UInt32.lt_irrefl _ hBelow
              · exact UInt32.lt_irrefl _
                  (UInt32.lt_trans hBelow
                    (hOther axis hAxis))
            · exact hFound
          · rename_i hNotBelow
            have hEq : mine = other := by
              rcases List.mem_cons.mp
                  (hSubset other (by simp)) with
                hEq | hFound
              · exact hEq.symm
              · exact absurd (hMine other hFound) hNotBelow
            subst hEq
            simp only [decide_true, Bool.true_and]
            apply ih hRest hTail
            intro axis hAxis
            rcases List.mem_cons.mp
                (hSubset axis (by simp [hAxis])) with
              rfl | hFound
            · exact absurd (hOther _ hAxis)
                (UInt32.lt_irrefl _)
            · exact hFound

end Axis

namespace Scope

/- Inclusion of scopes is inclusion of their axes. -/
theorem includes_iff_sublist {scope other : Scope} :
    scope.includes other = true ↔
      other.axes.Sublist scope.axes :=
  ⟨Axis.sublist_of_covers, fun hSublist =>
    Axis.covers_of_subset scope.sorted other.sorted
      fun _ hAxis => hSublist.subset hAxis⟩

theorem includes_iff {scope other : Scope} :
    scope.includes other = true ↔
      ∀ axis ∈ other.axes, axis ∈ scope.axes :=
  ⟨fun hIncludes _ hAxis =>
      (includes_iff_sublist.mp hIncludes).subset hAxis,
    Axis.covers_of_subset scope.sorted other.sorted⟩

theorem includes_self (scope : Scope) :
    scope.includes scope = true :=
  includes_iff.mpr fun _ hAxis => hAxis

theorem Admits.of_includes
    {scope other : Scope}
    {choice : VarId → Nat}
    (hIncludes : scope.includes other = true)
    (hAdmits : scope.Admits choice) :
    other.Admits choice :=
  fun axis hAxis =>
    hAdmits axis (includes_iff.mp hIncludes axis hAxis)

theorem Agree.of_includes
    {scope other : Scope}
    {first second : VarId → Nat}
    (hIncludes : scope.includes other = true)
    (hAgree : scope.Agree first second) :
    other.Agree first second := by
  intro var hVar
  rcases mem_vars_iff.mp hVar with ⟨axis, hAxis, rfl⟩
  exact hAgree axis.var
    (mem_vars (includes_iff.mp hIncludes axis hAxis))

/- A variable of both scopes has one axis in both. -/
theorem mem_axes_of_includes
    {scope other : Scope}
    {axis : Axis}
    (hIncludes : scope.includes other = true)
    (hAxis : axis ∈ scope.axes)
    (hVar : axis.var ∈ other.vars) :
    axis ∈ other.axes := by
  rcases mem_vars_iff.mp hVar with ⟨shared, hShared, hSame⟩
  have hEq : shared = axis :=
    axis_eq_of_var_eq
      (includes_iff.mp hIncludes shared hShared) hAxis hSame
  exact hEq ▸ hShared

end Scope

namespace Axis

theorem locate_map
    {axes : List Axis}
    {vars : List VarId}
    {choice : VarId → Nat}
    (hSublist : (axes.map Axis.var).Sublist vars) :
    locate axes vars (vars.map choice) =
      MixedRadix.encode (axes.map Axis.size)
        ((axes.map Axis.var).map choice) := by
  induction vars generalizing axes with
  | nil =>
      have hNil : axes = [] := by
        simpa using hSublist
      subst hNil
      rfl
  | cons var vars ih =>
      cases axes with
      | nil => rfl
      | cons axis axes =>
          simp only [List.map_cons, locate]
          split
          · rename_i hVar
            subst hVar
            rw [ih (List.cons_sublist_cons.mp hSublist)]
            rfl
          · rename_i hNe
            have hRest :
                ((axis :: axes).map Axis.var).Sublist
                  vars := by
              cases hSublist with
              | cons _ hRest => exact hRest
              | cons_cons _ _ => exact absurd rfl hNe
            exact ih hRest

end Axis

namespace Scope

/- Locating a choice in a larger scope numbers it in this one. -/
theorem locate_map
    {scope larger : Scope}
    {choice : VarId → Nat}
    (hIncludes : larger.includes scope = true) :
    scope.locate larger.vars (larger.vars.map choice) =
      scope.number choice :=
  Axis.locate_map
    ((includes_iff_sublist.mp hIncludes).map Axis.var)

end Scope

end JointMax
