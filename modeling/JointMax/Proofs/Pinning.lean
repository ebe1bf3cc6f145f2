import Mathlib
import JointMax.Proofs.Turning

/-
  Pinning wheels. An accepted choice pins the wheels of the
  chosen variables there, leaves the other pinned wheels
  where they are, and puts all free wheels back to zero.

  Main declarations:
    * `Wheel.heldAt`, the digit at which a variable is pinned
    * `Wheel.Pinned`, everything that pinning can do
    * `Wheel.Pinned.heldAt_eq`
    * `Wheel.shown_iff`
-/

------------------------------------------------------------
-- Digits of Pinned Variables
------------------------------------------------------------

namespace JointMax

theorem aligned_cons
    {β : Type}
    {head : VarId}
    {vars : List VarId}
    {item : β}
    {items : List β}
    (var : VarId) :
    aligned (head :: vars) (item :: items) var =
      if var = head then some item
      else aligned vars items var := by
  by_cases hVar : var = head
  · simp [aligned, hVar]
  · have hNe : (var == head) = false := by simpa using hVar
    simp [aligned, List.lookup, hVar, hNe]

theorem aligned_of_not_mem
    {β : Type}
    {vars : List VarId}
    {items : List β}
    {var : VarId}
    (hVar : var ∉ vars) :
    aligned vars items var = none := by
  induction vars generalizing items with
  | nil => rfl
  | cons head vars ih =>
      rw [List.mem_cons, not_or] at hVar
      rcases hVar with ⟨hHead, hTail⟩
      cases items with
      | nil => rfl
      | cons item items =>
          rw [aligned_cons, if_neg hHead, ih hTail]

theorem aligned_map
    {β γ : Type}
    (f : β → γ)
    (vars : List VarId)
    (items : List β)
    (var : VarId) :
    aligned vars (items.map f) var =
      (aligned vars items var).map f := by
  induction vars generalizing items with
  | nil => rfl
  | cons head vars ih =>
      cases items with
      | nil => rfl
      | cons item items =>
          rw [List.map_cons, aligned_cons, aligned_cons, ih]
          split <;> rfl

namespace Wheel

/- The digit at which a listed variable is pinned, if any. -/
def heldAt
    (vars : List VarId)
    (wheels : List Wheel)
    (var : VarId) : Option Nat :=
  (aligned vars (wheels.map held) var).join

theorem heldAt_cons
    {head : VarId}
    {vars : List VarId}
    {wheel : Wheel}
    {wheels : List Wheel}
    (var : VarId) :
    heldAt (head :: vars) (wheel :: wheels) var =
      if var = head then wheel.held
      else heldAt vars wheels var := by
  unfold heldAt
  rw [List.map_cons, aligned_cons]
  split <;> rfl

theorem heldAt_of_not_mem
    {vars : List VarId}
    {wheels : List Wheel}
    {var : VarId}
    (hVar : var ∉ vars) :
    heldAt vars wheels var = none := by
  rw [heldAt, aligned_of_not_mem hVar]
  rfl

/- Digits keep the pinned wheels if every variable does. -/
theorem shown_iff
    {vars : List VarId}
    {wheels : List Wheel}
    {digits : List Nat}
    (hNodup : vars.Nodup)
    (hWheels : wheels.length = vars.length)
    (hDigits : digits.length = vars.length) :
    Shown wheels digits ↔
      ∀ var digit, heldAt vars wheels var = some digit →
        aligned vars digits var = some digit := by
  induction vars generalizing wheels digits with
  | nil =>
      rw [List.eq_nil_of_length_eq_zero hWheels,
        List.eq_nil_of_length_eq_zero hDigits]
      constructor
      · intro _ var digit hHeld
        cases hHeld
      · intro _
        exact Shown.nil
  | cons head vars ih =>
      rcases List.nodup_cons.mp hNodup with ⟨hFresh, hRest⟩
      rcases List.exists_cons_of_length_eq_add_one hWheels
        with ⟨wheel, wheels, rfl⟩
      rcases List.exists_cons_of_length_eq_add_one hDigits
        with ⟨first, digits, rfl⟩
      have hTail :=
        @ih wheels digits hRest (by simpa using hWheels)
          (by simpa using hDigits)
      constructor
      · rintro (_ | ⟨hHead, hShown⟩) var digit hHeld
        rw [heldAt_cons] at hHeld
        rw [aligned_cons]
        by_cases hVar : var = head
        · rw [if_pos hVar] at hHeld ⊢
          simp only [held] at hHeld
          split at hHeld
          · rename_i hPinned
            rw [hHead hPinned, hHeld]
          · cases hHeld
        · rw [if_neg hVar] at hHeld ⊢
          exact hTail.mp hShown var digit hHeld
      · intro hKept
        refine Shown.cons ?_ (hTail.mpr ?_)
        · intro hPinned
          have hFirst := hKept head wheel.digit
          rw [heldAt_cons, aligned_cons, if_pos rfl, if_pos rfl,
            held, if_pos hPinned] at hFirst
          exact Option.some_inj.mp (hFirst rfl)
        · intro var digit hHeld
          have hVar : var ≠ head := by
            rintro rfl
            rw [heldAt_of_not_mem hFresh] at hHeld
            cases hHeld
          have hOld := hKept var digit
          rw [heldAt_cons, aligned_cons, if_neg hVar,
            if_neg hVar] at hOld
          exact hOld hHeld

end Wheel

end JointMax

------------------------------------------------------------
-- What Pinning Does
------------------------------------------------------------

namespace JointMax

namespace Wheel

/- The effect of an accepted choice, wheel by wheel. -/
inductive Pinned (choice : VarId → Option Nat) :
    List Axis → List Wheel → List Wheel → Prop where
  | nil : Pinned choice [] [] []
  | chosen {axis : Axis} {axes : List Axis}
      {wheel : Wheel} {wheels next : List Wheel}
      {digit : Nat}
      (hChoice : choice axis.var = some digit)
      (hDigit : digit < axis.size)
      (later : Pinned choice axes wheels next) :
      Pinned choice (axis :: axes) (wheel :: wheels)
        (⟨digit, true⟩ :: next)
  | kept {axis : Axis} {axes : List Axis}
      {wheel : Wheel} {wheels next : List Wheel}
      (hChoice : choice axis.var = none)
      (hPinned : wheel.pinned = true)
      (later : Pinned choice axes wheels next) :
      Pinned choice (axis :: axes) (wheel :: wheels)
        (wheel :: next)
  | cleared {axis : Axis} {axes : List Axis}
      {wheel : Wheel} {wheels next : List Wheel}
      (hChoice : choice axis.var = none)
      (hFree : wheel.pinned = false)
      (later : Pinned choice axes wheels next) :
      Pinned choice (axis :: axes) (wheel :: wheels)
        (⟨0, false⟩ :: next)

variable {choice : VarId → Option Nat}
variable {axes : List Axis} {wheels next : List Wheel}

theorem pinned_of_pin?
    (hLength : wheels.length = axes.length)
    (hPin : pin? choice axes wheels = .ok next) :
    Pinned choice axes wheels next := by
  induction axes generalizing wheels next with
  | nil =>
      rw [List.eq_nil_of_length_eq_zero hLength] at hPin ⊢
      cases hPin
      exact Pinned.nil
  | cons axis axes ih =>
      rcases List.exists_cons_of_length_eq_add_one hLength
        with ⟨wheel, wheels, rfl⟩
      have hTail : wheels.length = axes.length := by
        simpa using hLength
      simp only [pin?] at hPin
      cases hRest : pin? choice axes wheels with
      | error fault =>
          rw [hRest] at hPin
          split at hPin
          · split at hPin <;> cases hPin
          · cases hPin
      | ok rest =>
          rw [hRest] at hPin
          split at hPin
          · rename_i digit hChoice
            split at hPin
            · rename_i hDigit
              cases hPin
              exact Pinned.chosen hChoice hDigit
                (ih hTail hRest)
            · cases hPin
          · rename_i hChoice
            cases hPin
            cases hPinned : wheel.pinned
            · exact Pinned.cleared hChoice hPinned
                (ih hTail hRest)
            · exact Pinned.kept hChoice hPinned
                (ih hTail hRest)

namespace Pinned

theorem within
    (hPinned : Pinned choice axes wheels next)
    (hWithin :
      MixedRadix.Within (axes.map Axis.size)
        (wheels.map Wheel.digit)) :
    MixedRadix.Within (axes.map Axis.size)
      (next.map Wheel.digit) := by
  induction hPinned with
  | nil => exact hWithin
  | chosen _ hDigit _ ih =>
      cases hWithin with
      | cons _ tail =>
          exact MixedRadix.Within.cons hDigit (ih tail)
  | kept _ _ _ ih =>
      cases hWithin with
      | cons head tail =>
          exact MixedRadix.Within.cons head (ih tail)
  | @cleared axis _ _ _ _ _ _ _ ih =>
      cases hWithin with
      | cons _ tail =>
          exact MixedRadix.Within.cons axis.size_pos (ih tail)

/- The walk starts again at the first free number. -/
theorem freeNumber_eq
    (hPinned : Pinned choice axes wheels next) :
    freeNumber axes next = 0 := by
  unfold freeNumber
  induction hPinned with
  | nil => rfl
  | chosen _ _ _ ih => simpa [loose] using ih
  | kept _ hPinned _ ih => simpa [loose, hPinned] using ih
  | cleared _ _ _ ih => simp [loose, MixedRadix.encode, ih]

/- Chosen variables are pinned there, others as before. -/
theorem heldAt_eq
    (hPinned : Pinned choice axes wheels next)
    {var : VarId}
    (hVar : var ∈ axes.map Axis.var) :
    heldAt (axes.map Axis.var) next var =
      (choice var).or
        (heldAt (axes.map Axis.var) wheels var) := by
  induction hPinned with
  | nil => cases hVar
  | @chosen axis axes wheel wheels next digit hChoice _ _ ih =>
      simp only [List.map_cons, heldAt_cons]
      by_cases hHead : var = axis.var
      · simp [hHead, hChoice, held]
      · simp only [hHead, if_false]
        exact ih (by simpa [hHead] using hVar)
  | @kept axis axes wheel wheels next hChoice _ _ ih =>
      simp only [List.map_cons, heldAt_cons]
      by_cases hHead : var = axis.var
      · simp [hHead, hChoice]
      · simp only [hHead, if_false]
        exact ih (by simpa [hHead] using hVar)
  | @cleared axis axes wheel wheels next hChoice hFree _ ih =>
      simp only [List.map_cons, heldAt_cons]
      by_cases hHead : var = axis.var
      · simp [hHead, hChoice, held, hFree]
      · simp only [hHead, if_false]
        exact ih (by simpa [hHead] using hVar)

end Pinned

end Wheel

end JointMax
