import Mathlib
import JointMax.Proofs.Numbering

/-
  Unions of scopes. Two scopes have a union exactly when they
  agree on the sizes of the variables that they share, and
  the union then holds the axes of both and no others.

  Main declarations:
    * `Scope.eq_of_mem_iff`
    * `Scope.Compatible`
    * `Scope.union?_of_compatible` and
      `Scope.union?_of_not_compatible`
    * `Scope.union?_of_includes`
-/

------------------------------------------------------------
-- Joining Axes
------------------------------------------------------------

namespace JointMax

namespace Axis

/- An axis is put into its place, or meets another size. -/
theorem join?_cases (axis : Axis) (axes : List Axis) :
    (∃ joined,
      join? axis axes = .ok joined ∧
        ∀ member,
          member ∈ joined ↔ member = axis ∨ member ∈ axes) ∨
    ∃ mine ∈ axes,
      mine.var = axis.var ∧ mine.size ≠ axis.size ∧
        join? axis axes =
          .error (.badScope
            (.unionConflict axis.var mine.size
              axis.size)) := by
  induction axes with
  | nil => exact .inl ⟨[axis], rfl, by simp⟩
  | cons head tail ih =>
      simp only [join?]
      split
      · exact .inl ⟨axis :: head :: tail, rfl, by simp⟩
      · split
        · rename_i hVar
          split
          · rename_i hSize
            have hSame : axis = head := by
              rcases axis with ⟨var, size, hPos⟩
              rcases head with ⟨headVar, headSize, hHead⟩
              dsimp only at hVar hSize
              subst hVar hSize
              rfl
            exact .inl ⟨head :: tail, rfl, by simp [hSame]⟩
          · rename_i hSize
            exact .inr
              ⟨head, by simp, hVar.symm, hSize, rfl⟩
        · rcases ih with
            ⟨joined, hJoined, hMember⟩ |
              ⟨mine, hMine, hVar, hSize, hRefused⟩
          · refine .inl ⟨head :: joined, ?_, ?_⟩
            · rw [hJoined]
              rfl
            · intro member
              rw [List.mem_cons, hMember, List.mem_cons]
              tauto
          · refine .inr
              ⟨mine, by simp [hMine], hVar, hSize, ?_⟩
            rw [hRefused]
            rfl

/-
  Several axes are put into their places one by one. The axes
  that came before have other variables, so what an axis meets
  was there from the start.
-/
theorem joinAll?_cases
    (axes : List Axis)
    {others : List Axis}
    (hOthers : Sorted others) :
    (∃ joined,
      joinAll? axes others = .ok joined ∧
        ∀ member,
          member ∈ joined ↔
            member ∈ axes ∨ member ∈ others) ∨
    ∃ mine ∈ axes, ∃ other ∈ others,
      mine.var = other.var ∧ mine.size ≠ other.size ∧
        joinAll? axes others =
          .error (.badScope
            (.unionConflict other.var mine.size
              other.size)) := by
  induction others generalizing axes with
  | nil => exact .inl ⟨axes, rfl, by simp⟩
  | cons first rest ih =>
      rcases List.pairwise_cons.mp hOthers with
        ⟨hFirst, hRest⟩
      simp only [joinAll?]
      rcases join?_cases first axes with
        ⟨joined, hJoined, hMember⟩ |
          ⟨mine, hMine, hVar, hSize, hRefused⟩
      · rw [hJoined]
        rcases ih joined hRest with
          ⟨all, hAll, hAllMember⟩ |
            ⟨mine, hMine, other, hOther, hVar, hSize,
              hRefused⟩
        · refine .inl ⟨all, hAll, ?_⟩
          intro member
          rw [hAllMember, hMember, List.mem_cons]
          tauto
        · have hEarly : mine ∈ axes := by
            rcases (hMember mine).mp hMine with
              rfl | hEarly
            · have hLess := hFirst other hOther
              rw [hVar] at hLess
              exact absurd hLess (UInt32.lt_irrefl _)
            · exact hEarly
          exact .inr ⟨mine, hEarly, other, by simp [hOther],
            hVar, hSize, hRefused⟩
      · rw [hRefused]
        exact .inr ⟨mine, hMine, first, by simp, hVar, hSize,
          rfl⟩

end Axis

end JointMax

------------------------------------------------------------
-- Scopes that Have a Union
------------------------------------------------------------

namespace JointMax

namespace Scope

/- A scope is the set of its axes. -/
theorem eq_of_mem_iff
    {first second : Scope}
    (hAxes : ∀ axis,
      axis ∈ first.axes ↔ axis ∈ second.axes) :
    first = second := by
  have hFirst : first.includes second = true :=
    includes_iff.mpr fun axis => (hAxes axis).mpr
  have hSecond : second.includes first = true :=
    includes_iff.mpr fun axis => (hAxes axis).mp
  exact Scope.ext
    ((includes_iff_sublist.mp hSecond).antisymm
      (includes_iff_sublist.mp hFirst))

/- No shared variable has two sizes. -/
def Compatible (left right : Scope) : Prop :=
  ∀ mine ∈ left.axes, ∀ other ∈ right.axes,
    mine.var = other.var → mine.size = other.size

variable {left right : Scope}

theorem union?_cases (left right : Scope) :
    (∃ union,
      left.union? right = .ok union ∧
        ∀ axis,
          axis ∈ union.axes ↔
            axis ∈ left.axes ∨ axis ∈ right.axes) ∨
    ∃ mine ∈ left.axes, ∃ other ∈ right.axes,
      mine.var = other.var ∧ mine.size ≠ other.size ∧
        left.union? right =
          .error (.badScope
            (.unionConflict other.var mine.size
              other.size)) := by
  have hCases :=
    Axis.joinAll?_cases left.axes right.sorted
  unfold union?
  split
  · rename_i axes hAxes
    rw [hAxes] at hCases
    rcases hCases with
      ⟨joined, hJoined, hMember⟩ | ⟨_, _, _, _, _, _, hRefused⟩
    · cases hJoined
      exact .inl ⟨_, rfl, hMember⟩
    · cases hRefused
  · rename_i fault hFault
    rw [hFault] at hCases
    rcases hCases with
      ⟨_, hJoined, _⟩ |
        ⟨mine, hMine, other, hOther, hVar, hSize, hRefused⟩
    · cases hJoined
    · cases hRefused
      exact .inr
        ⟨mine, hMine, other, hOther, hVar, hSize, rfl⟩

/- Compatible scopes have a union, with the axes of both. -/
theorem union?_of_compatible
    (hCompatible : left.Compatible right) :
    ∃ union,
      left.union? right = .ok union ∧
        ∀ axis,
          axis ∈ union.axes ↔
            axis ∈ left.axes ∨ axis ∈ right.axes := by
  rcases union?_cases left right with
    hUnion | ⟨mine, hMine, other, hOther, hVar, hSize, _⟩
  · exact hUnion
  · exact absurd (hCompatible mine hMine other hOther hVar)
      hSize

/- Other scopes have none, and a shared variable tells why. -/
theorem union?_of_not_compatible
    (hClash : ¬ left.Compatible right) :
    ∃ mine ∈ left.axes, ∃ other ∈ right.axes,
      mine.var = other.var ∧ mine.size ≠ other.size ∧
        left.union? right =
          .error (.badScope
            (.unionConflict other.var mine.size
              other.size)) := by
  rcases union?_cases left right with
    ⟨union, _, hAxes⟩ | hRefused
  · exfalso
    apply hClash
    intro mine hMine other hOther hVar
    have hSame : mine = other :=
      axis_eq_of_var_eq ((hAxes mine).mpr (.inl hMine))
        ((hAxes other).mpr (.inr hOther)) hVar
    rw [hSame]
  · exact hRefused

theorem includes_of_eq
    (hSame : left = right) :
    left.includes right = true := by
  rw [← hSame]
  exact includes_self left

theorem compatible_of_includes
    (hIncludes : left.includes right = true) :
    left.Compatible right := by
  intro mine hMine other hOther hVar
  have hSame : mine = other :=
    axis_eq_of_var_eq hMine
      (includes_iff.mp hIncludes other hOther) hVar
  rw [hSame]

/- The union with an included scope is the scope itself. -/
theorem union?_of_includes
    (hIncludes : left.includes right = true) :
    left.union? right = .ok left := by
  rcases union?_of_compatible
      (compatible_of_includes hIncludes) with
    ⟨union, hUnion, hAxes⟩
  have hSame : union = left := by
    apply eq_of_mem_iff
    intro axis
    rw [hAxes]
    exact or_iff_left_of_imp
      (includes_iff.mp hIncludes axis)
  rw [hUnion, hSame]

end Scope

end JointMax
