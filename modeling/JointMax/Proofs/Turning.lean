import Mathlib
import JointMax.Proofs.Numbering
import JointMax.Table.Condition

/-
  One turn of the wheels. The free wheels, read alone, show a
  number of their own; a turn adds one to it and leaves the
  pinned wheels alone, and the index follows by additions and
  subtractions that never pass below zero.

  Main declarations:
    * `Wheel.loose` and `Wheel.Shown`, the free digits and
      the digits that keep the pinned ones
    * `Wheel.Turned`, everything that a turn can do
    * `Wheel.turned` and `Wheel.turn?_eq_turn`
-/

------------------------------------------------------------
-- Digits
------------------------------------------------------------

namespace JointMax

namespace MixedRadix

theorem Within.length_eq
    {radices digits : List Nat}
    (hWithin : Within radices digits) :
    digits.length = radices.length := by
  induction hWithin with
  | nil => rfl
  | cons _ _ ih => simp [ih]

theorem encode_zeros (radices : List Nat) (length : Nat) :
    encode radices (List.replicate length 0) = 0 := by
  induction length generalizing radices with
  | zero => cases radices <;> rfl
  | succ length ih =>
      cases radices with
      | nil => rfl
      | cons radix radices =>
          simp [List.replicate_succ, encode, ih]

end MixedRadix

end JointMax

------------------------------------------------------------
-- Free and Pinned Places
------------------------------------------------------------

namespace JointMax

namespace Wheel

/- The digit at which a wheel is pinned. -/
def held (wheel : Wheel) : Option Nat :=
  if wheel.pinned then some wheel.digit else none

theorem isSome_held (wheel : Wheel) :
    wheel.held.isSome = wheel.pinned := by
  cases hPinned : wheel.pinned <;> simp [held, hPinned]

/- The items that stand beside free wheels. -/
def loose {β : Type} : List Wheel → List β → List β
  | wheel :: wheels, item :: items =>
      if wheel.pinned then loose wheels items
      else item :: loose wheels items
  | _, _ => []

theorem loose_map
    {β γ : Type}
    (f : β → γ)
    (wheels : List Wheel)
    (items : List β) :
    loose wheels (items.map f) =
      (loose wheels items).map f := by
  induction wheels generalizing items with
  | nil => rfl
  | cons wheel wheels ih =>
      cases items with
      | nil => rfl
      | cons item items =>
          cases hPinned : wheel.pinned <;>
            simp [loose, hPinned, ih]

theorem loose_eq_filter
    {β : Type}
    {pinned : β → Bool}
    {wheels : List Wheel}
    {items : List β}
    (hPinned :
      items.map pinned = wheels.map Wheel.pinned) :
    loose wheels items =
      items.filter fun item => !pinned item := by
  induction items generalizing wheels with
  | nil => cases wheels <;> rfl
  | cons item items ih =>
      cases wheels with
      | nil => cases hPinned
      | cons wheel wheels =>
          rcases List.cons.inj hPinned with ⟨hHead, hTail⟩
          rw [List.filter_cons, hHead, loose, ih hTail]
          cases wheel.pinned <;> rfl

/- With no pinned wheel every place is free. -/
theorem loose_of_free
    {β : Type}
    {wheels : List Wheel}
    {items : List β}
    (hFree : ∀ wheel ∈ wheels, wheel.pinned = false)
    (hLength : items.length = wheels.length) :
    loose wheels items = items := by
  have hPinned :
      items.map (fun _ => false) =
        wheels.map Wheel.pinned := by
    rw [List.map_congr_left hFree, List.map_const',
      List.map_const', hLength]
  rw [loose_eq_filter hPinned]
  simp

/- Digits of all wheels, with the pinned ones unchanged. -/
inductive Shown : List Wheel → List Nat → Prop where
  | nil : Shown [] []
  | cons {wheel : Wheel} {digit : Nat}
      {wheels : List Wheel} {digits : List Nat}
      (head : wheel.pinned = true → digit = wheel.digit)
      (tail : Shown wheels digits) :
      Shown (wheel :: wheels) (digit :: digits)

theorem shown_digits (wheels : List Wheel) :
    Shown wheels (wheels.map Wheel.digit) := by
  induction wheels with
  | nil => exact Shown.nil
  | cons wheel wheels ih => exact Shown.cons (fun _ => rfl) ih

/- Only the pins matter for what is free and what is kept. -/
theorem loose_congr
    {β : Type}
    {wheels others : List Wheel}
    (hHeld : others.map held = wheels.map held)
    (items : List β) :
    loose others items = loose wheels items := by
  induction wheels generalizing others items with
  | nil =>
      rw [List.map_eq_nil_iff.mp hHeld]
  | cons wheel wheels ih =>
      cases others with
      | nil => cases hHeld
      | cons other others =>
          rcases List.cons.inj hHeld with ⟨hHead, hTail⟩
          have hPinned : other.pinned = wheel.pinned := by
            rw [← isSome_held, ← isSome_held, hHead]
          cases items with
          | nil => rfl
          | cons item items =>
              simp only [loose, hPinned, ih hTail]

theorem weave_congr
    {wheels others : List Wheel}
    (hHeld : others.map held = wheels.map held)
    (digits : List Nat) :
    weave others digits = weave wheels digits := by
  induction wheels generalizing others digits with
  | nil =>
      rw [List.map_eq_nil_iff.mp hHeld]
  | cons wheel wheels ih =>
      cases others with
      | nil => cases hHeld
      | cons other others =>
          rcases List.cons.inj hHeld with ⟨hHead, hTail⟩
          have hPinned : other.pinned = wheel.pinned := by
            rw [← isSome_held, ← isSome_held, hHead]
          simp only [weave, hPinned, ih hTail]
          split
          · rename_i hWheel
            simp only [held, hPinned, hWheel, if_true,
              Option.some_inj] at hHead
            rw [hHead]
          · rfl

theorem free_of_held_eq
    {wheels others : List Wheel}
    (hHeld : others.map held = wheels.map held)
    (hFree : ∀ wheel ∈ wheels, wheel.pinned = false) :
    ∀ other ∈ others, other.pinned = false := by
  intro other hOther
  have hMember : other.held ∈ wheels.map held := by
    rw [← hHeld]
    exact List.mem_map_of_mem hOther
  rcases List.mem_map.mp hMember with
    ⟨wheel, hWheel, hSame⟩
  rw [← isSome_held, ← hSame, isSome_held,
    hFree wheel hWheel]

theorem Shown.congr
    {wheels others : List Wheel}
    {digits : List Nat}
    (hHeld : others.map held = wheels.map held)
    (hShown : Shown wheels digits) :
    Shown others digits := by
  induction hShown generalizing others with
  | nil =>
      rw [List.map_eq_nil_iff.mp hHeld]
      exact Shown.nil
  | @cons wheel digit wheels digits head _ ih =>
      cases others with
      | nil => cases hHeld
      | cons other others =>
          rcases List.cons.inj hHeld with ⟨hHead, hTail⟩
          refine Shown.cons ?_ (ih hTail)
          intro hOther
          simp only [held, hOther, if_true] at hHead
          split at hHead
          · rename_i hPinned
            rw [head hPinned, Option.some_inj.mp hHead]
          · cases hHead

/- Digits are put together again from their free part. -/
theorem weave_loose
    {wheels : List Wheel}
    {digits : List Nat}
    (hShown : Shown wheels digits) :
    weave wheels (loose wheels digits) = digits := by
  induction hShown with
  | nil => rfl
  | @cons wheel digit wheels digits head _ ih =>
      cases hPinned : wheel.pinned
      · simp [weave, loose, hPinned, ih]
      · simp [weave, loose, hPinned, ih, head hPinned]

theorem within_loose
    {wheels : List Wheel}
    {radices digits : List Nat}
    (hWithin : MixedRadix.Within radices digits) :
    MixedRadix.Within
      (loose wheels radices) (loose wheels digits) := by
  induction hWithin generalizing wheels with
  | nil => cases wheels <;> exact MixedRadix.Within.nil
  | @cons radix digit radices digits head _ ih =>
      cases wheels with
      | nil => exact MixedRadix.Within.nil
      | cons wheel wheels =>
          cases hPinned : wheel.pinned
          · simpa [loose, hPinned] using
              MixedRadix.Within.cons head ih
          · simpa [loose, hPinned] using ih

end Wheel

end JointMax

------------------------------------------------------------
-- What a Turn Does
------------------------------------------------------------

namespace JointMax

namespace Wheel

/-
  A turn of the wheels, as a relation. The flag tells that
  the turn has reset every free wheel.
-/
inductive Turned :
    List Axis → List Wheel → List Wheel → Bool → Prop where
  | nil : Turned [] [] [] true
  | pinned {axis : Axis} {axes : List Axis}
      {wheel : Wheel} {wheels next : List Wheel}
      {wrapped : Bool}
      (hPinned : wheel.pinned = true)
      (later : Turned axes wheels next wrapped) :
      Turned (axis :: axes) (wheel :: wheels)
        (wheel :: next) wrapped
  | further {axis : Axis} {axes : List Axis}
      {wheel : Wheel} {wheels : List Wheel}
      (hFree : wheel.pinned = false)
      (hDigit : wheel.digit + 1 < axis.size) :
      Turned (axis :: axes) (wheel :: wheels)
        (⟨wheel.digit + 1, false⟩ :: wheels) false
  | reset {axis : Axis} {axes : List Axis}
      {wheel : Wheel} {wheels next : List Wheel}
      {wrapped : Bool}
      (hFree : wheel.pinned = false)
      (hDigit : wheel.digit + 1 = axis.size)
      (later : Turned axes wheels next wrapped) :
      Turned (axis :: axes) (wheel :: wheels)
        (⟨0, false⟩ :: next) wrapped

/- Number of the joint value that the wheels show. -/
def shownNumber (axes : List Axis) (wheels : List Wheel) :
    Nat :=
  MixedRadix.encode (axes.map Axis.size)
    (wheels.map Wheel.digit)

/- Number that the free wheels show by themselves. -/
def freeNumber (axes : List Axis) (wheels : List Wheel) :
    Nat :=
  MixedRadix.encode (loose wheels (axes.map Axis.size))
    (loose wheels (wheels.map Wheel.digit))

/- Number of joint values of the free wheels. -/
def freeCount (axes : List Axis) (wheels : List Wheel) :
    Nat :=
  MixedRadix.count (loose wheels (axes.map Axis.size))

theorem freeNumber_zeros (axes : List Axis) :
    freeNumber axes
      (List.replicate axes.length ⟨0, false⟩) = 0 := by
  induction axes with
  | nil => rfl
  | cons axis axes ih =>
      unfold freeNumber at ih ⊢
      simpa [List.replicate_succ, loose, MixedRadix.encode]
        using Or.inr ih

section

variable {axes : List Axis} {wheels next : List Wheel}

/- A turn of wheels in range is one of the listed ones. -/
theorem turned
    (hWithin :
      MixedRadix.Within (axes.map Axis.size)
        (wheels.map Wheel.digit))
    (stride index : Nat) :
    Turned axes wheels (turn axes wheels stride index).1
      (turn axes wheels stride index).2.2 := by
  induction axes generalizing wheels stride index with
  | nil =>
      cases wheels with
      | nil => exact Turned.nil
      | cons wheel wheels => cases hWithin
  | cons axis axes ih =>
      cases wheels with
      | nil => cases hWithin
      | cons wheel wheels =>
          cases hWithin with
          | cons head tail =>
              cases hPinned : wheel.pinned
              · by_cases hDigit : wheel.digit + 1 < axis.size
                · simp only [turn, hPinned, hDigit,
                    Bool.false_eq_true, if_false, if_true]
                  exact Turned.further hPinned hDigit
                · simp only [turn, hPinned, hDigit,
                    Bool.false_eq_true, if_false]
                  exact Turned.reset hPinned (by omega)
                    (ih tail _ _)
              · simp only [turn, hPinned, if_true]
                exact Turned.pinned hPinned (ih tail _ _)

namespace Turned

variable {wrapped : Bool}

/- Wheels stay pinned, and at the same digits. -/
theorem held_eq
    (hTurned : Turned axes wheels next wrapped) :
    next.map held = wheels.map held := by
  induction hTurned with
  | nil => rfl
  | pinned _ _ ih => simp [ih]
  | further hFree _ => simp [held, hFree]
  | reset hFree _ _ ih => simp [held, hFree, ih]

theorem within
    (hTurned : Turned axes wheels next wrapped)
    (hWithin :
      MixedRadix.Within (axes.map Axis.size)
        (wheels.map Wheel.digit)) :
    MixedRadix.Within (axes.map Axis.size)
      (next.map Wheel.digit) := by
  induction hTurned with
  | nil => exact hWithin
  | pinned _ _ ih =>
      cases hWithin with
      | cons head tail =>
          exact MixedRadix.Within.cons head (ih tail)
  | further _ hDigit =>
      cases hWithin with
      | cons _ tail =>
          exact MixedRadix.Within.cons hDigit tail
  | @reset axis _ _ _ _ _ _ _ _ ih =>
      cases hWithin with
      | cons _ tail =>
          exact MixedRadix.Within.cons axis.size_pos (ih tail)

/- A turn that does not wrap goes to a later joint value. -/
theorem shownNumber_lt
    (hTurned : Turned axes wheels next wrapped)
    (hWrapped : wrapped = false) :
    shownNumber axes wheels < shownNumber axes next := by
  unfold shownNumber
  induction hTurned with
  | nil => cases hWrapped
  | @pinned axis _ _ _ _ _ _ _ ih =>
      simp only [List.map_cons, MixedRadix.encode]
      have hLater :=
        Nat.mul_lt_mul_of_pos_left (ih hWrapped)
          axis.size_pos
      omega
  | further _ _ =>
      simp only [List.map_cons, MixedRadix.encode]
      omega
  | @reset axis axes wheel wheels next _ _ hDigit _ ih =>
      simp only [List.map_cons, MixedRadix.encode]
      -- the lost digit is less than one step of the next one
      have hLater :=
        Nat.mul_le_mul_left axis.size
          (Nat.succ_le_of_lt (ih hWrapped))
      rw [Nat.mul_succ] at hLater
      omega

theorem freeNumber_succ
    (hTurned : Turned axes wheels next wrapped)
    (hWrapped : wrapped = false) :
    freeNumber axes next = freeNumber axes wheels + 1 := by
  unfold freeNumber
  induction hTurned with
  | nil => cases hWrapped
  | pinned hPinned _ ih =>
      simpa [loose, hPinned] using ih hWrapped
  | further hFree _ =>
      simp only [List.map_cons, loose, hFree, MixedRadix.encode,
        Bool.false_eq_true, if_false]
      omega
  | reset hFree hDigit _ ih =>
      simp only [List.map_cons, loose, hFree, MixedRadix.encode,
        Bool.false_eq_true, if_false, ih hWrapped,
        Nat.mul_add, ← hDigit]
      omega

/- A turn wraps at the last free number, and only there. -/
theorem freeNumber_last
    (hTurned : Turned axes wheels next wrapped)
    (hWrapped : wrapped = true) :
    freeNumber axes wheels + 1 = freeCount axes wheels := by
  unfold freeNumber freeCount
  induction hTurned with
  | nil => rfl
  | pinned hPinned _ ih =>
      simpa [loose, hPinned] using ih hWrapped
  | further _ _ => cases hWrapped
  | @reset axis axes wheel wheels _ _ hFree hDigit _ ih =>
      simp only [List.map_cons, loose, hFree, MixedRadix.encode,
        MixedRadix.count, Bool.false_eq_true, if_false,
        ← ih hWrapped, Nat.mul_add]
      omega

end Turned

end

end Wheel

end JointMax

------------------------------------------------------------
-- The Index
------------------------------------------------------------

namespace JointMax

namespace Wheel

/-
  A turn that breaks off where there is a wheel without an
  axis or an axis without a wheel, and where more would be
  taken from the index than it holds.
-/
def turn? :
    List Axis → List Wheel → Nat → Nat →
      Option (List Wheel × Nat × Bool)
  | [], [], _, index => some ([], index, true)
  | axis :: axes, wheel :: wheels, stride, index =>
      if wheel.pinned then do
        let later ←
          turn? axes wheels (stride * axis.size) index
        return ⟨wheel :: later.1, later.2⟩
      else if wheel.digit + 1 < axis.size then
        some (⟨wheel.digit + 1, false⟩ :: wheels,
          index + stride, false)
      else if wheel.digit * stride ≤ index then do
        let later ←
          turn? axes wheels (stride * axis.size)
            (index - wheel.digit * stride)
        return ⟨⟨0, false⟩ :: later.1, later.2⟩
      else
        none
  | _, _, _, _ => none

section

variable {axis : Axis} {axes : List Axis}
variable {wheel : Wheel} {wheels : List Wheel}

/- The share of the first wheel in the index. -/
theorem index_cons (low stride : Nat) :
    low + stride * shownNumber (axis :: axes)
        (wheel :: wheels) =
      low + wheel.digit * stride +
        stride * axis.size * shownNumber axes wheels := by
  simp only [shownNumber, List.map_cons, MixedRadix.encode]
  ring

/- A reset takes just that share away. -/
theorem index_reset (low share rest : Nat) :
    low + share + rest - share = low + rest := by
  omega

/-
  The index is carried through a turn without breaking off.
  `low` stands for the wheels before the current one.
-/
theorem turn?_eq_turn
    (hWithin :
      MixedRadix.Within (axes.map Axis.size)
        (wheels.map Wheel.digit))
    (low stride : Nat) :
    turn? axes wheels stride
        (low + stride * shownNumber axes wheels) =
      some (turn axes wheels stride
        (low + stride * shownNumber axes wheels)) := by
  induction axes generalizing wheels low stride with
  | nil =>
      cases wheels with
      | nil => rfl
      | cons wheel wheels => cases hWithin
  | cons axis axes ih =>
      cases wheels with
      | nil => cases hWithin
      | cons wheel wheels =>
          cases hWithin with
          | cons head tail =>
              rw [index_cons]
              cases hPinned : wheel.pinned
              · by_cases hDigit : wheel.digit + 1 < axis.size
                · simp [turn?, turn, hPinned, hDigit]
                · have hEnough :
                      wheel.digit * stride ≤
                        low + wheel.digit * stride +
                          stride * axis.size *
                            shownNumber axes wheels := by
                    omega
                  simp [turn?, turn, hPinned, hDigit,
                    index_reset, hEnough, ih tail]
              · simp [turn?, turn, hPinned, ih tail]

/- After a turn the index is the number of the new digits. -/
theorem turn_index
    (hWithin :
      MixedRadix.Within (axes.map Axis.size)
        (wheels.map Wheel.digit))
    (low stride : Nat) :
    let next :=
      turn axes wheels stride
        (low + stride * shownNumber axes wheels)
    next.2.1 = low + stride * shownNumber axes next.1 := by
  induction axes generalizing wheels low stride with
  | nil =>
      cases wheels with
      | nil => rfl
      | cons wheel wheels => cases hWithin
  | cons axis axes ih =>
      cases wheels with
      | nil => cases hWithin
      | cons wheel wheels =>
          cases hWithin with
          | cons head tail =>
              rw [index_cons]
              cases hPinned : wheel.pinned
              · by_cases hDigit : wheel.digit + 1 < axis.size
                · simp only [turn, hPinned, hDigit,
                    Bool.false_eq_true, if_false, if_true,
                    index_cons]
                  ring
                · simp only [turn, hPinned, hDigit,
                    index_reset, Bool.false_eq_true,
                    if_false, index_cons, ih tail low]
                  ring
              · simp only [turn, hPinned, if_true,
                  index_cons, ih tail]

end

end Wheel

end JointMax
