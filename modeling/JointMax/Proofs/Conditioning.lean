import Mathlib
import JointMax.Proofs.Selection

/-
  Conditioning is slicing. Fixing some variables of a table
  drops them from its scope, and leaves at each joint value
  of the others the value that the table has where the fixed
  digits are filled in. Fixing twice is fixing both at once,
  the first digit counting where a variable is fixed twice.

  Main declarations:
    * `Fixing`, what is fixed, as a list or as a map
    * `completed` and `Table.Sliced`
    * `Scope.FirstExcess` and `Wheel.pin?_cases`
    * `Table.fix?_eq_ok_iff` and `Table.fix?_twice`
    * `Table.Sliceable` and `Table.sliceable`
-/

------------------------------------------------------------
-- What Is Fixed
------------------------------------------------------------

namespace JointMax

/-
  An increasing list of variables at aligned digits, or an
  assignment.
-/
inductive Fixing where
  | listed
      (vars : List VarId)
      (digits : List Nat)
      (increasing : Increasing vars)
      (aligned : vars.length = digits.length)
  | mapped (assignment : Assignment)

namespace Fixing

/- The digits that are asked for. -/
def choice : Fixing → VarId → Option Nat
  | listed vars digits _ _ => JointMax.aligned vars digits
  | mapped assignment => assignment.choice

def assignment : Fixing → Assignment
  | listed vars digits _ _ =>
      Assignment.ofPairs (vars.zip digits)
  | mapped assignment => assignment

/- Both are fixed, and the first digit counts. -/
def together (first second : Fixing) : Fixing :=
  .mapped (second.assignment ∪ first.assignment)

/- The request to an odometer. -/
def condition : Fixing → Odometer.Condition
  | listed vars digits _ _ => .listed vars digits
  | mapped assignment => .chosen assignment

theorem choice_assignment (fixing : Fixing) :
    fixing.assignment.choice = fixing.choice := by
  cases fixing with
  | listed vars digits hVars hLength =>
      exact Assignment.choice_ofPairs hVars hLength
  | mapped assignment => rfl

theorem choice_together
    (first second : Fixing)
    (var : VarId) :
    (first.together second).choice var =
      (first.choice var).or (second.choice var) := by
  rw [← choice_assignment first, ← choice_assignment second]
  exact Std.ExtTreeMap.getElem?_union

theorem choice_condition (fixing : Fixing) :
    fixing.condition.choice = fixing.choice := by
  cases fixing <;> rfl

end Fixing

namespace Scope

/- What is chosen for a variable of the scope is in range. -/
def Accepts
    (scope : Scope)
    (choice : VarId → Option Nat) : Prop :=
  ∀ axis ∈ scope.axes, ∀ digit,
    choice axis.var = some digit → digit < axis.size

/- The least variable whose chosen digit is out of range. -/
structure FirstExcess
    (scope : Scope)
    (choice : VarId → Option Nat)
    (axis : Axis)
    (digit : Nat) : Prop where
  mem : axis ∈ scope.axes
  chosen : choice axis.var = some digit
  excess : axis.size ≤ digit
  first :
    ∀ earlier ∈ scope.axes, earlier.var < axis.var →
      ∀ other, choice earlier.var = some other →
        other < earlier.size

/- It is the least one still, after a head that is in range. -/
theorem FirstExcess.cons
    {choice : VarId → Option Nat}
    {head axis : Axis}
    {axes : List Axis}
    {digit : Nat}
    {hSorted : Axis.Sorted axes}
    (hExcess :
      (Scope.mk axes hSorted).FirstExcess choice axis digit)
    (hAxes : Axis.Sorted (head :: axes))
    (hHead : ∀ other,
      choice head.var = some other → other < head.size) :
    (Scope.mk (head :: axes) hAxes).FirstExcess choice axis
      digit := by
  refine ⟨List.mem_cons_of_mem _ hExcess.mem, hExcess.chosen,
    hExcess.excess, ?_⟩
  intro earlier hEarlier hBefore
  rcases List.mem_cons.mp hEarlier with rfl | hEarlier
  · exact hHead
  · exact hExcess.first earlier hEarlier hBefore

end Scope

/- A choice for all variables, as far as digits are not fixed. -/
def completed
    (choice : VarId → Option Nat)
    (rest : VarId → Nat) : VarId → Nat :=
  fun var => (choice var).getD (rest var)

theorem completed_of_eq_none
    {choice : VarId → Option Nat}
    {var : VarId}
    (hNone : choice var = none)
    (rest : VarId → Nat) :
    completed choice rest var = rest var := by
  rw [completed, hNone]
  rfl

theorem completed_of_eq_some
    {choice : VarId → Option Nat}
    {var : VarId}
    {digit : Nat}
    (hSome : choice var = some digit)
    (rest : VarId → Nat) :
    completed choice rest var = digit := by
  rw [completed, hSome]
  rfl

theorem completed_or
    (first second : VarId → Option Nat)
    (rest : VarId → Nat) :
    completed first (completed second rest) =
      completed (fun var => (first var).or (second var))
        rest := by
  funext var
  cases hFirst : first var <;> simp [completed, hFirst]

end JointMax

------------------------------------------------------------
-- Pinning of a Fresh Odometer
------------------------------------------------------------

namespace JointMax

namespace Wheel

/-
  Wheels are pinned just if every chosen digit is in range.
  The walk stops at the first one that is not.
-/
theorem pin?_cases
    (choice : VarId → Option Nat)
    {axes : List Axis}
    {wheels : List Wheel}
    (hSorted : Axis.Sorted axes)
    (hLength : wheels.length = axes.length) :
    (Scope.mk axes hSorted).Accepts choice ∧
        (∃ next, pin? choice axes wheels = .ok next) ∨
      ∃ axis digit,
        (Scope.mk axes hSorted).FirstExcess choice axis
            digit ∧
          pin? choice axes wheels =
            .error
              (.digitOutOfRange axis.var digit axis.size) := by
  induction axes generalizing wheels with
  | nil =>
      refine .inl ⟨?_, wheels, ?_⟩
      · intro axis hAxis
        cases hAxis
      · cases wheels <;> rfl
  | cons axis axes ih =>
      rcases List.exists_cons_of_length_eq_add_one hLength
        with ⟨wheel, wheels, rfl⟩
      rcases List.pairwise_cons.mp hSorted with
        ⟨hHead, hTail⟩
      have hRest := @ih wheels hTail (by simpa using hLength)
      simp only [pin?]
      cases hChoice : choice axis.var with
      | none =>
          have hInside : ∀ head, choice axis.var = some head →
              head < axis.size := by simp [hChoice]
          rcases hRest with
            ⟨hAccepts, next, hNext⟩ |
              ⟨later, digit, hExcess, hRefused⟩
          · refine .inl ⟨?_, _, by rw [hNext]; rfl⟩
            exact List.forall_mem_cons.mpr
              ⟨hInside, hAccepts⟩
          · exact .inr ⟨later, digit,
              hExcess.cons hSorted hInside,
              by rw [hRefused]; rfl⟩
      | some digit =>
          by_cases hDigit : digit < axis.size
          · have hInside : ∀ head,
                choice axis.var = some head →
                  head < axis.size := by
              simpa [hChoice] using hDigit
            simp only [if_pos hDigit]
            rcases hRest with
              ⟨hAccepts, next, hNext⟩ |
                ⟨later, other, hExcess, hRefused⟩
            · refine .inl ⟨?_, _, by rw [hNext]; rfl⟩
              exact List.forall_mem_cons.mpr
                ⟨hInside, hAccepts⟩
            · exact .inr ⟨later, other,
                hExcess.cons hSorted hInside,
                by rw [hRefused]; rfl⟩
          · simp only [if_neg hDigit]
            refine .inr ⟨axis, digit, ⟨by simp, hChoice,
              not_lt.mp hDigit, ?_⟩, rfl⟩
            intro earlier hEarlier hBefore
            rcases List.mem_cons.mp hEarlier with
              rfl | hEarlier
            · exact absurd hBefore (UInt32.lt_irrefl _)
            · exact absurd hBefore
                (UInt32.lt_asymm (hHead earlier hEarlier))

theorem pin?_congr
    {first second : VarId → Option Nat}
    {axes : List Axis}
    (hAgree : ∀ axis ∈ axes,
      first axis.var = second axis.var)
    (wheels : List Wheel) :
    pin? first axes wheels = pin? second axes wheels := by
  induction axes generalizing wheels with
  | nil => cases wheels <;> rfl
  | cons axis axes ih =>
      rcases List.forall_mem_cons.mp hAgree with
        ⟨hAxis, hAxes⟩
      cases wheels with
      | nil => rfl
      | cons wheel wheels =>
          simp only [pin?, hAxis, ih hAxes]

end Wheel

namespace Odometer

variable {odometer : Odometer}

theorem pin?_cases
    (hLength :
      odometer.wheels.length = odometer.scope.axes.length)
    (choice : VarId → Option Nat) :
    odometer.scope.Accepts choice ∧
        (∃ next, odometer.pin? choice = .ok next) ∨
      ∃ axis digit,
        odometer.scope.FirstExcess choice axis digit ∧
          odometer.pin? choice =
            .error
              (.digitOutOfRange axis.var digit axis.size) := by
  unfold pin?
  rcases Wheel.pin?_cases choice odometer.scope.sorted
      hLength with
    ⟨hAccepts, next, hNext⟩ | ⟨axis, digit, hExcess, hRefused⟩
  · exact .inl ⟨hAccepts, _, by rw [hNext]⟩
  · exact .inr ⟨axis, digit, hExcess, by rw [hRefused]⟩

theorem pin?_congr
    {first second : VarId → Option Nat}
    (hAgree : ∀ var ∈ odometer.vars,
      first var = second var) :
    odometer.pin? first = odometer.pin? second := by
  unfold pin?
  rw [Wheel.pin?_congr fun axis hAxis =>
    hAgree axis.var (Scope.mem_vars hAxis)]

/- A variable is pinned just if it is held at a digit. -/
theorem isSome_heldAt (odometer : Odometer) (var : VarId) :
    (odometer.heldAt var).isSome = odometer.isPinned var := by
  rw [heldAt, isPinned, digits, aligned_map]
  cases aligned odometer.vars odometer.wheels var with
  | none => rfl
  | some wheel =>
      cases hPinned : wheel.pinned <;> simp [hPinned]

theorem heldAt_start (scope : Scope) (var : VarId) :
    (start scope).heldAt var = none := by
  have hFree : (start scope).isPinned var = false := by
    have hWheels :
        (start scope).wheels.map Wheel.pinned =
          (List.replicate scope.length ()).map
            fun _ => false := by
      simp [start]
    rw [isPinned_eq, hWheels, aligned_map]
    cases aligned _ _ var <;> rfl
  rw [heldAt, hFree]
  rfl

theorem mem_freeScope {axis : Axis} :
    axis ∈ odometer.freeScope.axes ↔
      axis ∈ odometer.scope.axes ∧
        odometer.heldAt axis.var = none := by
  rw [← Option.not_isSome_iff_eq_none, isSome_heldAt]
  unfold freeScope Scope.filter
  rw [List.mem_filter]
  simp

/- With no pinned wheel, every variable is free. -/
theorem Placed.freeScope_eq
    (hPlaced : odometer.Placed)
    (hNone : odometer.pinnedCount = 0) :
    odometer.freeScope = odometer.scope := by
  apply Scope.ext
  rw [axes_freeScope hPlaced.length_eq]
  apply Wheel.loose_of_free _ hPlaced.length_eq.symm
  intro wheel hWheel
  simpa using List.countP_eq_zero.mp hNone wheel hWheel

/- A variable is held at a digit in its range. -/
theorem Placed.lt_of_heldAt
    (hPlaced : odometer.Placed)
    {axis : Axis}
    (hAxis : axis ∈ odometer.scope.axes)
    {digit : Nat}
    (hHeld : odometer.heldAt axis.var = some digit) :
    digit < axis.size := by
  unfold heldAt at hHeld
  split at hHeld
  · rw [digits_eq hPlaced] at hHeld
    have hInside :=
      @Scope.admits_revise odometer.scope odometer.index
        (fun _ => 0) hPlaced.index_lt axis hAxis
    rwa [Scope.revise, ← vars, hHeld] at hInside
  · cases hHeld

/-
  Digits of the free variables, put between the pinned ones,
  are the digits of the completed choice.
-/
theorem Placed.weave_map
    (hPlaced : odometer.Placed)
    (rest : VarId → Nat) :
    Wheel.weave odometer.wheels
        (odometer.freeScope.vars.map rest) =
      odometer.vars.map (completed odometer.heldAt rest) := by
  let joint := completed odometer.heldAt rest
  have hLength :
      odometer.wheels.length = odometer.vars.length := by
    simpa [vars, Scope.vars] using hPlaced.length_eq
  have hShown :
      Wheel.Shown odometer.wheels
        (odometer.vars.map joint) := by
    apply (Wheel.shown_iff odometer.scope.nodup_vars hLength
      (by simp [vars])).mpr
    intro var digit hHeld
    have hVar : var ∈ odometer.scope.vars := by
      by_contra hOutside
      rw [Wheel.heldAt_of_not_mem hOutside] at hHeld
      cases hHeld
    change Wheel.heldAt odometer.vars odometer.wheels var =
      some digit at hHeld
    rw [← heldAt_eq] at hHeld
    rw [vars, Scope.aligned_vars joint hVar]
    exact congrArg some (completed_of_eq_some hHeld rest)
  have hLoose :
      Wheel.loose odometer.wheels (odometer.vars.map joint) =
        odometer.freeScope.vars.map rest := by
    rw [vars, Scope.vars, Scope.vars,
      axes_freeScope hPlaced.length_eq, List.map_map,
      List.map_map, Wheel.loose_map,
      ← axes_freeScope hPlaced.length_eq]
    apply List.map_congr_left
    intro axis hAxis
    exact completed_of_eq_none (mem_freeScope.mp hAxis).2 rest
  rw [← hLoose]
  exact Wheel.weave_loose hShown

end Odometer

end JointMax

------------------------------------------------------------
-- Slices
------------------------------------------------------------

namespace JointMax

namespace Table

variable {α : Type} [Scalar α]

/-
  The slice of a table at chosen digits. The chosen variables
  are gone. At a joint value of the others stands the value
  that the table has at the completed choice.
-/
structure Sliced
    (table : Table α)
    (choice : VarId → Option Nat)
    (result : Table α) : Prop where
  axes :
    ∀ axis,
      axis ∈ result.scope.axes ↔
        axis ∈ table.scope.axes ∧ choice axis.var = none
  inside :
    ∀ rest, result.scope.Admits rest →
      table.scope.Admits (completed choice rest)
  values :
    ∀ rest, result.scope.Admits rest →
      result.eval rest = table.eval (completed choice rest)

variable {table result : Table α}
variable {choice : VarId → Option Nat}

/- There is one slice at most. -/
theorem Sliced.unique
    {other : Table α}
    (hFirst : table.Sliced choice result)
    (hSecond : table.Sliced choice other) :
    result = other := by
  have hScope : result.scope = other.scope := by
    apply Scope.eq_of_mem_iff
    intro axis
    rw [hFirst.axes, hSecond.axes]
  apply ext_eval hScope
  intro rest hAdmits
  rw [hFirst.values rest hAdmits,
    hSecond.values rest (hScope ▸ hAdmits)]

/- A slice is taken at digits in range only. -/
theorem Sliced.accepts
    (hSliced : table.Sliced choice result) :
    table.scope.Accepts choice := by
  have hZeros : result.scope.Admits fun _ => 0 :=
    fun axis _ => axis.size_pos
  intro axis hAxis digit hDigit
  have hInside := hSliced.inside _ hZeros axis hAxis
  rwa [completed_of_eq_some hDigit] at hInside

/- Only digits for the table's own variables matter. -/
theorem Sliced.congr
    {other : VarId → Option Nat}
    (hSliced : table.Sliced choice result)
    (hAgree : ∀ var ∈ table.vars, choice var = other var) :
    table.Sliced other result := by
  have hSame : ∀ rest,
      table.scope.Agree (completed choice rest)
        (completed other rest) := by
    intro rest var hVar
    rw [completed, completed, hAgree var hVar]
  constructor
  · intro axis
    rw [hSliced.axes]
    apply and_congr_right
    intro hAxis
    rw [hAgree axis.var (Scope.mem_vars hAxis)]
  · intro rest hAdmits
    exact (hSliced.inside rest hAdmits).congr (hSame rest)
  · intro rest hAdmits
    rw [hSliced.values rest hAdmits, eval_congr (hSame rest)]

/- A slice of a slice is a slice at the digits of both. -/
theorem Sliced.trans
    {next : VarId → Option Nat}
    {part : Table α}
    (hFirst : table.Sliced choice part)
    (hSecond : part.Sliced next result) :
    table.Sliced (fun var => (choice var).or (next var))
      result where
  axes := by
    intro axis
    rw [hSecond.axes, hFirst.axes, Option.or_eq_none_iff,
      and_assoc]
  inside := by
    intro rest hAdmits
    rw [← completed_or]
    exact hFirst.inside _ (hSecond.inside rest hAdmits)
  values := by
    intro rest hAdmits
    rw [← completed_or, hSecond.values rest hAdmits,
      hFirst.values _ (hSecond.inside rest hAdmits)]

/- The walk of an odometer yields the slice where it is held. -/
theorem sliced_slice
    {odometer : Odometer}
    (hPlaced : odometer.Placed)
    (hScope : odometer.scope = table.scope) :
    table.Sliced odometer.heldAt (table.slice odometer) := by
  have hFree :
      (table.slice odometer).scope = odometer.freeScope := by
    unfold slice
    split
    · rename_i hNone
      rw [hPlaced.freeScope_eq hNone, hScope]
    · rfl
  constructor
  · intro axis
    rw [hFree, Odometer.mem_freeScope, hScope]
  · intro rest hAdmits axis hAxis
    rw [hFree] at hAdmits
    rw [← hScope] at hAxis
    cases hHeld : odometer.heldAt axis.var with
    | none =>
        rw [completed_of_eq_none hHeld]
        exact hAdmits axis
          (Odometer.mem_freeScope.mpr ⟨hAxis, hHeld⟩)
    | some digit =>
        rw [completed_of_eq_some hHeld]
        exact hPlaced.lt_of_heldAt hAxis hHeld
  · intro rest hAdmits
    rw [hFree] at hAdmits
    unfold slice
    split
    · rename_i hNone
      apply eval_congr
      intro var hVar
      rw [← hScope, ← hPlaced.freeScope_eq hNone] at hVar
      rcases Scope.mem_vars_iff.mp hVar with
        ⟨axis, hAxis, rfl⟩
      rw [completed_of_eq_none
        (Odometer.mem_freeScope.mp hAxis).2]
    · rw [eval_tabulate hAdmits, hPlaced.weave_map,
        Odometer.vars, hScope]
      rfl

end Table

end JointMax

------------------------------------------------------------
-- Conditioning
------------------------------------------------------------

namespace JointMax

namespace Table

variable {α : Type} [Scalar α]

/- Fix what is asked for, in either form. -/
def fix? (table : Table α) : Fixing → Except Fault (Table α)
  | .listed vars digits _ _ => table.condition? vars digits
  | .mapped assignment => table.conditionOn? assignment

variable {table result : Table α}
variable {fixing first second : Fixing}

theorem fix?_eq_meet? :
    table.fix? fixing =
      ((Odometer.start table.scope).meet?
        fixing.condition).map table.slice := by
  cases fixing <;> rfl

/- Only the choice matters, for lists that are in order. -/
theorem meet?_condition (odometer : Odometer) :
    odometer.meet? fixing.condition =
      odometer.pin? fixing.choice := by
  cases fixing with
  | listed vars digits hVars hLength =>
      change odometer.condition? vars digits = _
      rw [Odometer.condition?, if_pos hLength, if_pos hVars]
      rfl
  | mapped assignment => rfl

theorem fix?_congr
    (hAgree : ∀ var ∈ table.vars,
      first.choice var = second.choice var) :
    table.fix? first = table.fix? second := by
  rw [fix?_eq_meet?, fix?_eq_meet?, meet?_condition,
    meet?_condition,
    @Odometer.pin?_congr (Odometer.start table.scope) _ _
      hAgree]

/- Fixing succeeds at digits in range, or names the first. -/
theorem fix?_cases (table : Table α) (fixing : Fixing) :
    table.scope.Accepts fixing.choice ∧
        (∃ result, table.fix? fixing = .ok result) ∨
      ∃ axis digit,
        table.scope.FirstExcess fixing.choice axis digit ∧
          table.fix? fixing =
            .error
              (.digitOutOfRange axis.var digit axis.size) := by
  rw [fix?_eq_meet?, meet?_condition]
  rcases Odometer.pin?_cases
      (Odometer.placed_start table.scope).length_eq
      fixing.choice with
    ⟨hAccepts, next, hNext⟩ | ⟨axis, digit, hExcess, hRefused⟩
  · exact .inl ⟨hAccepts, _, by rw [hNext]; rfl⟩
  · exact .inr ⟨axis, digit, hExcess, by rw [hRefused]; rfl⟩

theorem exists_fix?_iff :
    (∃ result, table.fix? fixing = .ok result) ↔
      table.scope.Accepts fixing.choice := by
  rcases table.fix?_cases fixing with
    ⟨hAccepts, hResult⟩ | ⟨axis, digit, hExcess, hRefused⟩
  · exact iff_of_true hResult hAccepts
  · apply iff_of_false
    · rintro ⟨result, hResult⟩
      rw [hRefused] at hResult
      cases hResult
    · intro hAccepts
      exact absurd
        (hAccepts axis hExcess.mem digit hExcess.chosen)
        (not_lt.mpr hExcess.excess)

/- Fixing yields the slice at the chosen digits. -/
theorem sliced_of_fix?
    (hResult : table.fix? fixing = .ok result) :
    table.Sliced fixing.choice result := by
  rw [fix?_eq_meet?] at hResult
  rcases exists_of_map_eq_ok hResult with
    ⟨next, hNext, rfl⟩
  have hStart := Odometer.placed_start table.scope
  rcases hStart.restarted (.inr ⟨_, hNext⟩) with
    ⟨hPlaced, hScope, _, _⟩
  apply (sliced_slice hPlaced hScope).congr
  intro var hVar
  rw [hStart.heldAt_of_meet? hNext hVar,
    Odometer.heldAt_start, Option.or_none,
    fixing.choice_condition]

/- There is a slice just if fixing finds it. -/
theorem fix?_eq_ok_iff :
    table.fix? fixing = .ok result ↔
      table.Sliced fixing.choice result := by
  constructor
  · exact sliced_of_fix?
  · intro hSliced
    rcases exists_fix?_iff.mpr hSliced.accepts with
      ⟨other, hOther⟩
    rw [hOther, (sliced_of_fix? hOther).unique hSliced]

/- Fixing twice is fixing both at once. -/
theorem fix?_twice
    {both : Fixing}
    (hBoth : ∀ var ∈ table.vars,
      both.choice var =
        (first.choice var).or (second.choice var)) :
    (do
      let part ← table.fix? first
      part.fix? second) = .ok result ↔
      table.fix? both = .ok result := by
  constructor
  · intro hTwice
    rcases exists_of_bind_eq_ok hTwice with
      ⟨part, hPart, hResult⟩
    have hSliced :=
      (sliced_of_fix? hPart).trans (sliced_of_fix? hResult)
    exact fix?_eq_ok_iff.mpr
      (hSliced.congr fun var hVar => (hBoth var hVar).symm)
  · intro hOnce
    have hSliced := sliced_of_fix? hOnce
    have hAccepts := hSliced.accepts
    have hFirst : table.scope.Accepts first.choice := by
      intro axis hAxis digit hDigit
      apply hAccepts axis hAxis
      rw [hBoth axis.var (Scope.mem_vars hAxis), hDigit]
      rfl
    rcases exists_fix?_iff.mpr hFirst with ⟨part, hPart⟩
    have hPartSliced := sliced_of_fix? hPart
    -- What is left has no variable of the first choice.
    have hSecond : part.scope.Accepts second.choice := by
      intro axis hAxis digit hDigit
      rcases (hPartSliced.axes axis).mp hAxis with
        ⟨hMember, hNone⟩
      apply hAccepts axis hMember
      rw [hBoth axis.var (Scope.mem_vars hMember), hNone,
        hDigit]
      rfl
    rcases exists_fix?_iff.mpr hSecond with ⟨other, hOther⟩
    have hTwice :
        table.Sliced both.choice other :=
      (hPartSliced.trans (sliced_of_fix? hOther)).congr
        fun var hVar => (hBoth var hVar).symm
    rw [hPart, ← hTwice.unique hSliced]
    exact hOther

theorem fix?_together :
    (do
      let part ← table.fix? first
      part.fix? second) = .ok result ↔
      table.fix? (first.together second) = .ok result :=
  fix?_twice fun var _ => first.choice_together second var

/- Requests for different variables can change places. -/
theorem fix?_exchange
    (hApart : ∀ var ∈ table.vars,
      first.choice var = none ∨ second.choice var = none) :
    (do
      let part ← table.fix? first
      part.fix? second) = .ok result ↔
    (do
      let part ← table.fix? second
      part.fix? first) = .ok result := by
  rw [fix?_together, fix?_together]
  apply Eq.congr_left
  apply fix?_congr
  intro var hVar
  rw [Fixing.choice_together, Fixing.choice_together]
  rcases hApart var hVar with hNone | hNone
  · rw [hNone, Option.none_or, Option.or_none]
  · rw [hNone, Option.none_or, Option.or_none]

end Table

end JointMax

------------------------------------------------------------
-- All Forms of Conditioning
------------------------------------------------------------

namespace JointMax

namespace Table

variable {α : Type} [Scalar α]

/-
  What conditioning does to a table. It succeeds just if the
  digits for the table's own variables are in range, and then
  puts the slice into the place of the table. It is refused by
  the name of the first digit that is not, and the table stays
  as it is. Lists and maps of the same choices do the same,
  and so do the program that changes the table in its place
  and the loop that copies the slice cell by cell.
-/
structure Sliceable (table : Table α) : Prop where
  accepted : ∀ fixing,
    table.scope.Accepts fixing.choice →
      ∃ result,
        table.inPlace (table.fix? fixing) =
            (result, none) ∧
          table.Sliced fixing.choice result
  refused : ∀ fixing,
    ¬ table.scope.Accepts fixing.choice →
      ∃ axis digit,
        table.scope.FirstExcess fixing.choice axis digit ∧
          table.inPlace (table.fix? fixing) =
            (table, some
              (.digitOutOfRange axis.var digit axis.size))
  sliced : ∀ fixing result,
    table.fix? fixing = .ok result ↔
      table.Sliced fixing.choice result
  unique : ∀ choice result other,
    table.Sliced choice result →
      table.Sliced choice other → result = other
  alike : ∀ first second : Fixing,
    (∀ var ∈ table.vars,
      first.choice var = second.choice var) →
      table.fix? first = table.fix? second
  mapped : ∀ vars digits,
    Increasing vars → vars.length = digits.length →
      table.conditionOn?
          (Assignment.ofPairs (vars.zip digits)) =
        table.condition? vars digits
  together : ∀ first second : Fixing, ∃ both : Fixing,
    (∀ var,
      both.choice var =
        (first.choice var).or (second.choice var)) ∧
      ∀ result,
        (do
          let part ← table.fix? first
          part.fix? second) = .ok result ↔
          table.fix? both = .ok result
  exchanged : ∀ first second : Fixing,
    (∀ var,
      first.choice var = none ∨
        second.choice var = none) →
      ∀ result,
        (do
          let part ← table.fix? first
          part.fix? second) = .ok result ↔
        (do
          let part ← table.fix? second
          part.fix? first) = .ok result
  walked : ∀ fixing,
    table.scope.count < wordLimit →
      Guarded.condition table fixing.condition =
        some (table.fix? fixing)
  written : ∀ fixing,
    InPlace.outcome (conditionInPlace fixing.condition)
        table =
      InPlace.concluded table (table.fix? fixing)

/- Every table can be conditioned in all these ways. -/
theorem sliceable (table : Table α) : table.Sliceable where
  accepted := by
    intro fixing hAccepts
    rcases exists_fix?_iff.mpr hAccepts with
      ⟨result, hResult⟩
    refine ⟨result, ?_, sliced_of_fix? hResult⟩
    rw [hResult]
    rfl
  refused := by
    intro fixing hRefuses
    rcases table.fix?_cases fixing with
      ⟨hAccepts, _⟩ | ⟨axis, digit, hExcess, hRefused⟩
    · exact absurd hAccepts hRefuses
    · refine ⟨axis, digit, hExcess, ?_⟩
      rw [hRefused]
      rfl
  sliced := fun _ _ => fix?_eq_ok_iff
  unique := fun _ _ _ hFirst hSecond =>
    hFirst.unique hSecond
  alike := fun _ _ hAgree => fix?_congr hAgree
  mapped := by
    intro vars digits hVars hLength
    let listed := Fixing.listed vars digits hVars hLength
    exact @fix?_congr _ _ table
      (.mapped listed.assignment) listed
      fun var _ => congrFun listed.choice_assignment var
  together := fun first second =>
    ⟨first.together second, first.choice_together second,
      fun _ => fix?_together⟩
  exchanged := fun _ _ hApart _ =>
    fix?_exchange fun var _ => hApart var
  walked := by
    intro fixing hWords
    rw [Guarded.condition_eq hWords, fix?_eq_meet?]
  written := by
    intro fixing
    rw [outcome_conditionInPlace, fix?_eq_meet?]

/- A digit for a variable that the table lacks is ignored. -/
example :
    let table : Table Rat :=
      ⟨⟨[⟨2, 2, by decide⟩, ⟨5, 2, by decide⟩], by decide⟩,
        #[1, 2, 3, 4], rfl⟩
    (table.condition? [3, 5] [9, 1]).map Table.values =
      .ok #[3, 4] := by
  decide

end Table

end JointMax
