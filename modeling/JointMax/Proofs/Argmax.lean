import Mathlib
import JointMax.Scope.Index
import JointMax.Table.Reduce

/-
  The best place of a table is one of its places, and on exact
  numbers it holds the greatest value.

  Main declarations:
    * `Table.argmax_lt`
    * `Table.le_argmax`
-/

------------------------------------------------------------
-- Best Places
------------------------------------------------------------

namespace JointMax

namespace Table

variable {α : Type} [Scalar α]

theorem mem_of_foldl_better
    {table : Table α}
    {places : List Nat}
    {best : Option Nat}
    {index : Nat}
    (hBest : places.foldl table.better best = some index) :
    index ∈ places ∨ best = some index := by
  induction places generalizing best with
  | nil => exact .inr hBest
  | cons place places ih =>
      rcases ih hBest with hIndex | hStep
      · exact .inl (by simp [hIndex])
      · unfold better at hStep
        split at hStep
        · exact .inr hStep
        · cases best with
          | none =>
              cases hStep
              exact .inl (by simp)
          | some leader =>
              dsimp only at hStep
              split at hStep
              · cases hStep
                exact .inl (by simp)
              · exact .inr hStep

theorem argmax_lt (table : Table α) :
    table.argmax < table.scope.count := by
  have hPos := table.scope.count_pos
  unfold argmax
  rw [argmaxAmong, table.size_eq]
  split
  · rename_i index hBest
    rcases mem_of_foldl_better hBest with hIndex | hNone
    · exact List.mem_range.mp hIndex
    · cases hNone
  · rw [List.headD_eq_head?_getD, List.head?_range]
    split
    · exact hPos
    · exact hPos

end Table

end JointMax

------------------------------------------------------------
-- Exact Numbers
------------------------------------------------------------

namespace JointMax

namespace Table

/- One more place never lowers the value of the best. -/
theorem exists_better
    (table : Table Rat)
    (best : Option Nat)
    (place : Nat) :
    ∃ winner,
      table.better best place = some winner ∧
        table.cell place ≤ table.cell winner ∧
        ∀ leader, best = some leader →
          table.cell leader ≤ table.cell winner := by
  cases best with
  | none => exact ⟨place, rfl, le_refl _, by simp⟩
  | some leader =>
      by_cases hLess : table.cell leader < table.cell place
      · refine ⟨place, ?_, le_refl _, ?_⟩
        · simp [better, Scalar.isNaN, Scalar.lt, hLess]
        · rintro _ ⟨⟩
          exact hLess.le
      · refine ⟨leader, ?_, not_lt.mp hLess, ?_⟩
        · simp [better, Scalar.isNaN, Scalar.lt, hLess]
        · rintro _ ⟨⟩
          exact le_refl _

theorem le_of_foldl_better
    {table : Table Rat}
    {places : List Nat}
    {best : Option Nat}
    {index : Nat}
    (hBest : places.foldl table.better best = some index) :
    (∀ leader, best = some leader →
      table.cell leader ≤ table.cell index) ∧
      ∀ place ∈ places,
        table.cell place ≤ table.cell index := by
  induction places generalizing best with
  | nil =>
      refine ⟨?_, by simp⟩
      rintro leader rfl
      cases hBest
      exact le_refl _
  | cons place places ih =>
      rcases table.exists_better best place with
        ⟨winner, hWinner, hPlace, hLeader⟩
      rw [List.foldl_cons, hWinner] at hBest
      rcases ih hBest with ⟨hFirst, hRest⟩
      have hBound := hFirst winner rfl
      constructor
      · intro leader hBefore
        exact (hLeader leader hBefore).trans hBound
      · intro other hOther
        rcases List.mem_cons.mp hOther with rfl | hOther
        · exact hPlace.trans hBound
        · exact hRest other hOther

theorem exists_foldl_better
    (table : Table Rat)
    (place : Nat)
    (places : List Nat)
    (best : Option Nat) :
    ∃ index,
      (place :: places).foldl table.better best =
        some index := by
  induction places generalizing place best with
  | nil =>
      rcases table.exists_better best place with
        ⟨winner, hWinner, _⟩
      exact ⟨winner, hWinner⟩
  | cons next places ih =>
      rw [List.foldl_cons]
      exact ih next _

/- The best place holds a greatest value. -/
theorem le_argmax
    {table : Table Rat}
    {index : Nat}
    (hIndex : index < table.scope.count) :
    table.cell index ≤ table.cell table.argmax := by
  have hMember : index ∈ List.range table.scope.count :=
    List.mem_range.mpr hIndex
  unfold argmax
  rw [argmaxAmong, table.size_eq]
  cases hPlaces : List.range table.scope.count with
  | nil => simp [hPlaces] at hMember
  | cons place places =>
      rcases table.exists_foldl_better place places none
        with ⟨best, hBest⟩
      rw [hBest]
      rw [hPlaces] at hMember
      exact (le_of_foldl_better hBest).2 index hMember

end Table

end JointMax
