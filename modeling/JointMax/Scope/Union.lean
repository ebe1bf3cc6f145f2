import JointMax.Scope.Basic

/-
  Inclusion and union of scopes. Two scopes have a union when
  they agree on the size of every variable that they share.

  Key definitions include:
    * `Scope.includes`
    * `Scope.union?`, refusing the least shared variable with
      two sizes
    * `Scope.unionAll?`
-/

------------------------------------------------------------
-- Inclusion
------------------------------------------------------------

namespace JointMax

namespace Axis

/-
  Whether each of the second list's axes occurs in the first,
  found in one walk along both sorted lists.
-/
def covers : List Axis → List Axis → Bool
  | _, [] => true
  | [], _ :: _ => false
  | mine :: rest, other :: others =>
      if mine.var < other.var then
        covers rest (other :: others)
      else
        mine = other && covers rest others

end Axis

namespace Scope

/- Every variable of `other` is here, with the same size. -/
def includes (scope other : Scope) : Bool :=
  Axis.covers scope.axes other.axes

end Scope

end JointMax

------------------------------------------------------------
-- Union
------------------------------------------------------------

namespace JointMax

namespace Axis

/-
  Put an axis into its place. An axis of the same variable
  must have the same size.
-/
def join? (axis : Axis) :
    List Axis → Except Fault (List Axis)
  | [] => .ok [axis]
  | head :: tail =>
      if axis.var < head.var then
        .ok (axis :: head :: tail)
      else if axis.var = head.var then
        if head.size = axis.size then
          .ok (head :: tail)
        else
          .error (.badScope
            (.unionConflict axis.var head.size axis.size))
      else do
        let rest ← join? axis tail
        return head :: rest

/- Put several axes into their places, one after another. -/
def joinAll? :
    List Axis → List Axis → Except Fault (List Axis)
  | axes, [] => .ok axes
  | axes, other :: others =>
      match join? other axes with
      | .ok joined => joinAll? joined others
      | .error fault => .error fault

theorem var_mem_join?
    {axis : Axis}
    {axes joined : List Axis}
    (hJoin : join? axis axes = .ok joined)
    {member : Axis}
    (hMember : member ∈ joined) :
    member.var = axis.var ∨ member ∈ axes := by
  induction axes generalizing joined with
  | nil =>
      cases hJoin
      simp_all
  | cons head tail ih =>
      simp only [join?] at hJoin
      split at hJoin
      · cases hJoin
        simp_all
        grind
      · split at hJoin
        · split at hJoin
          · cases hJoin
            exact .inr hMember
          · cases hJoin
        · cases hRest : join? axis tail with
          | error fault =>
              rw [hRest] at hJoin
              cases hJoin
          | ok rest =>
              rw [hRest] at hJoin
              cases hJoin
              rcases List.mem_cons.mp hMember with
                rfl | hTail
              · exact .inr (by simp)
              · exact (ih hRest hTail).imp_right
                  (List.mem_cons_of_mem _)

theorem sorted_join?
    {axis : Axis}
    {axes joined : List Axis}
    (hSorted : Sorted axes)
    (hJoin : join? axis axes = .ok joined) :
    Sorted joined := by
  induction axes generalizing joined with
  | nil =>
      cases hJoin
      exact List.pairwise_singleton ..
  | cons head tail ih =>
      rcases List.pairwise_cons.mp hSorted with
        ⟨hHead, hTail⟩
      simp only [join?] at hJoin
      split at hJoin
      · rename_i hBelow
        cases hJoin
        refine List.pairwise_cons.mpr ⟨?_, hSorted⟩
        intro member hMember
        rcases List.mem_cons.mp hMember with rfl | hMember
        · exact hBelow
        · exact UInt32.lt_trans hBelow (hHead _ hMember)
      · split at hJoin
        · split at hJoin
          · cases hJoin
            exact hSorted
          · cases hJoin
        · rename_i hNotBelow hNe
          cases hRest : join? axis tail with
          | error fault =>
              rw [hRest] at hJoin
              cases hJoin
          | ok rest =>
              rw [hRest] at hJoin
              cases hJoin
              refine List.pairwise_cons.mpr
                ⟨?_, ih hTail hRest⟩
              intro member hMember
              rcases var_mem_join? hRest hMember with
                hVar | hMember
              · rw [hVar]
                exact UInt32.lt_of_le_of_ne
                  (UInt32.not_lt.mp hNotBelow) (Ne.symm hNe)
              · exact hHead _ hMember

theorem sorted_joinAll?
    {axes others joined : List Axis}
    (hSorted : Sorted axes)
    (hJoin : joinAll? axes others = .ok joined) :
    Sorted joined := by
  induction others generalizing axes with
  | nil =>
      cases hJoin
      exact hSorted
  | cons other others ih =>
      simp only [joinAll?] at hJoin
      split at hJoin
      · rename_i hFirst
        exact ih (sorted_join? hSorted hFirst) hJoin
      · cases hJoin

end Axis

namespace Scope

/-
  The variables of both scopes. The refusal names the least
  variable with two sizes, this scope's size first.
-/
def union? (scope other : Scope) : Except Fault Scope :=
  match hAxes : Axis.joinAll? scope.axes other.axes with
  | .ok axes =>
      .ok ⟨axes, Axis.sorted_joinAll? scope.sorted hAxes⟩
  | .error fault => .error fault

/- The union with each scope of a list, from left to right. -/
def unionAll? :
    Scope → List Scope → Except Fault Scope
  | scope, [] => .ok scope
  | scope, other :: others =>
      match scope.union? other with
      | .ok union => union.unionAll? others
      | .error fault => .error fault

end Scope

end JointMax
