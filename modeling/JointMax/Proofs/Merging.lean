import Mathlib
import JointMax.Proofs.Atomicity
import JointMax.Proofs.Conditioning

/-
  Conditions on an odometer in any history. The odometer
  after an accepted condition is the fresh one, conditioned
  once by all accepted conditions together, whatever steps
  were taken in between. A refused condition changes nothing.
  Conditions are met by a walk along the variables of the
  odometer and those of the condition, on copies that are
  taken over at the end.

  Main declarations:
    * `Wheel.overlay?` and `Odometer.meetInPlace`
    * `Odometer.Misfit`
    * `Odometer.merge` and `Odometer.Merges`
    * `Odometer.merges_afterAll`
-/

------------------------------------------------------------
-- Conditions as Lists of Pairs
------------------------------------------------------------

namespace JointMax

theorem map_fst_zip_sublist
    {β : Type}
    (vars : List VarId)
    (items : List β) :
    ((vars.zip items).map Prod.fst).Sublist vars := by
  induction vars generalizing items with
  | nil => exact .slnil
  | cons var vars ih =>
      cases items with
      | nil => exact List.nil_sublist _
      | cons item items => exact (ih items).cons_cons var

theorem lookup_of_lt
    {pairs : List (VarId × Nat)}
    {var : VarId}
    (hAbove : ∀ pair ∈ pairs, var < pair.1) :
    pairs.lookup var = none := by
  apply List.lookup_eq_none_iff.mpr
  intro pair hPair
  simpa using UInt32.ne_of_lt (hAbove pair hPair)

theorem lookup_cons_of_ne
    {pairs : List (VarId × Nat)}
    {var other : VarId}
    (digit : Nat)
    (hOther : other ≠ var) :
    ((var, digit) :: pairs).lookup other =
      pairs.lookup other := by
  rw [List.lookup_cons, beq_false_of_ne hOther]

/- The first variable of an increasing list, and the others. -/
theorem increasing_cons_iff
    {pairs : List (VarId × Nat)}
    {var : VarId}
    {digit : Nat} :
    Increasing (((var, digit) :: pairs).map Prod.fst) ↔
      (∀ pair ∈ pairs, var < pair.1) ∧
        Increasing (pairs.map Prod.fst) := by
  rw [List.map_cons, Increasing, List.pairwise_cons,
    List.forall_mem_map]

namespace Odometer

namespace Condition

/- The variables that are gone through, with their digits. -/
def pairs : Condition → List (VarId × Nat)
  | listed vars digits => vars.zip digits
  | chosen assignment => assignment.toList
  | followed other => other.vars.zip other.digits

/- Lists are aligned and in order. -/
def Ordered : Condition → Prop
  | listed vars digits =>
      vars.length = digits.length ∧ Increasing vars
  | chosen _ => True
  | followed _ => True

/- Why lists are not aligned and in order, if they are not. -/
def disorder? : Condition → Option Fault
  | listed vars digits =>
      if vars.length = digits.length then
        if Increasing vars then none
        else some (.badScope (.notIncreasing vars))
      else
        some (.badScope
          (.conditionCount vars.length digits.length))
  | chosen _ => none
  | followed _ => none

theorem ordered_iff {condition : Condition} :
    condition.Ordered ↔ condition.disorder? = none := by
  cases condition with
  | listed vars digits =>
      simp only [Ordered, disorder?]
      split_ifs with hLevel hVars
      · simp [hLevel, hVars]
      · simp [hVars]
      · simp [hLevel]
  | chosen assignment => exact iff_of_true trivial rfl
  | followed other => exact iff_of_true trivial rfl

theorem choice_eq_lookup
    (condition : Condition)
    (var : VarId) :
    condition.choice var = condition.pairs.lookup var := by
  cases condition with
  | listed vars digits => rfl
  | chosen assignment =>
      rw [choice, pairs, ← assignment.aligned_toList,
        aligned, ← List.zip_of_prod rfl rfl]
  | followed other => rfl

theorem Ordered.increasing
    {condition : Condition}
    (hOrdered : condition.Ordered) :
    Increasing (condition.pairs.map Prod.fst) := by
  cases condition with
  | listed vars digits =>
      exact hOrdered.2.sublist (map_fst_zip_sublist ..)
  | chosen assignment => exact assignment.increasing_vars
  | followed other =>
      exact other.scope.increasing_vars.sublist
        (map_fst_zip_sublist ..)

end Condition

/- Lists are checked before anything is pinned. -/
theorem meet?_eq
    (odometer : Odometer)
    (condition : Condition) :
    odometer.meet? condition =
      match condition.disorder? with
      | none => odometer.pin? condition.choice
      | some fault => .error fault := by
  cases condition with
  | listed vars digits =>
      simp only [meet?, condition?, Condition.disorder?]
      split_ifs <;> rfl
  | chosen assignment => rfl
  | followed other => rfl

end Odometer

end JointMax

------------------------------------------------------------
-- The Walk along Two Lists
------------------------------------------------------------

namespace JointMax

namespace Wheel

/- A wheel that is not pinned goes back to zero. -/
def reset (wheel : Wheel) : Wheel :=
  if wheel.pinned then wheel else ⟨0, false⟩

/-
  Go along the pairs, and past the axes of lesser variables
  for each one. A pair of another variable is passed over. At
  an axis of its own the wheel is pinned, and the walk stays
  there for the next pair.
-/
def overlay? :
    List Axis → List Wheel → List (VarId × Nat) →
      Except Fault (List Wheel)
  | axis :: axes, wheel :: wheels, (var, digit) :: pairs =>
      if axis.var < var then do
        let rest ← overlay? axes wheels ((var, digit) :: pairs)
        return wheel :: rest
      else if axis.var = var then
        if digit < axis.size then
          overlay? (axis :: axes) (⟨digit, true⟩ :: wheels)
            pairs
        else
          .error (.digitOutOfRange var digit axis.size)
      else
        overlay? (axis :: axes) (wheel :: wheels) pairs
  | _, wheels, _ => .ok wheels
termination_by axes _ pairs => axes.length + pairs.length

variable {axis : Axis} {axes : List Axis}
variable {wheel : Wheel} {wheels next : List Wheel}
variable {pairs : List (VarId × Nat)}
variable {choice early : VarId → Option Nat}

theorem pin?_cons_of_none
    (hNone : choice axis.var = none) :
    pin? choice (axis :: axes) (wheel :: wheels) =
      (pin? choice axes wheels).map (wheel.reset :: ·) := by
  rw [pin?, hNone]
  cases pin? choice axes wheels <;> rfl

theorem pin?_cons_of_some
    {digit : Nat}
    (hSome : choice axis.var = some digit)
    (hDigit : digit < axis.size) :
    pin? choice (axis :: axes) (wheel :: wheels) =
      (pin? choice axes wheels).map
        ((⟨digit, true⟩ : Wheel) :: ·) := by
  rw [pin?, hSome]
  dsimp only
  rw [if_pos hDigit]
  cases pin? choice axes wheels <;> rfl

/- Wheels are only reset where nothing is asked for. -/
theorem pin?_of_none
    (hLength : wheels.length = axes.length)
    (hNone : ∀ axis ∈ axes, choice axis.var = none) :
    pin? choice axes wheels = .ok (wheels.map reset) := by
  induction axes generalizing wheels with
  | nil =>
      rw [List.eq_nil_of_length_eq_zero hLength]
      rfl
  | cons axis axes ih =>
      rcases List.exists_cons_of_length_eq_add_one hLength
        with ⟨wheel, wheels, rfl⟩
      rcases List.forall_mem_cons.mp hNone with
        ⟨hAxis, hAxes⟩
      rw [pin?_cons_of_none hAxis,
        ih (by simpa using hLength) hAxes]
      rfl

/- The walk, with the free wheels reset, is pinning. -/
theorem overlay?_eq
    (hSorted : Axis.Sorted axes)
    (hPairs : Increasing (pairs.map Prod.fst))
    (hLength : wheels.length = axes.length) :
    (overlay? axes wheels pairs).map (List.map reset) =
      pin? (pairs.lookup ·) axes wheels := by
  fun_induction overlay? axes wheels pairs with
  | case1 axis axes wheel wheels var digit pairs hBefore ih =>
      have hLater := (increasing_cons_iff.mp hPairs).1
      have hNone :
          ((var, digit) :: pairs).lookup axis.var = none := by
        apply lookup_of_lt
        intro pair hPair
        rcases List.mem_cons.mp hPair with rfl | hPair
        · exact hBefore
        · exact UInt32.lt_trans hBefore (hLater pair hPair)
      rw [pin?_cons_of_none hNone,
        ← ih (List.pairwise_cons.mp hSorted).2 hPairs
          (by simpa using hLength)]
      cases overlay? axes wheels ((var, digit) :: pairs) <;>
        rfl
  | case2 axis axes wheel wheels digit pairs hDigit _ ih =>
      rcases increasing_cons_iff.mp hPairs with
        ⟨hLater, hRest⟩
      have hOthers :
          pin? (pairs.lookup ·) axes wheels =
            pin? (((axis.var, digit) :: pairs).lookup ·)
              axes wheels := by
        apply pin?_congr
        intro other hOther
        have hAfter :=
          (List.pairwise_cons.mp hSorted).1 other hOther
        exact (lookup_cons_of_ne digit
          (UInt32.ne_of_lt hAfter).symm).symm
      rw [ih hSorted hRest (by simpa using hLength),
        pin?_cons_of_none (lookup_of_lt hLater), hOthers,
        pin?_cons_of_some List.lookup_cons_self hDigit]
      rfl
  | case3 axis axes wheel wheels digit pairs hDigit _ =>
      rw [pin?, List.lookup_cons_self]
      dsimp only
      rw [if_neg hDigit]
      rfl
  | case4 axis axes wheel wheels var digit pairs hBefore hNe
      ih =>
      rcases increasing_cons_iff.mp hPairs with ⟨_, hRest⟩
      have hFirst : var < axis.var :=
        UInt32.lt_of_le_of_ne (UInt32.not_lt.mp hBefore)
          (Ne.symm hNe)
      rw [ih hSorted hRest hLength]
      apply pin?_congr
      intro other hOther
      symm
      apply lookup_cons_of_ne
      rcases List.mem_cons.mp hOther with rfl | hOther
      · exact hNe
      · exact (UInt32.ne_of_lt (UInt32.lt_trans hFirst
          ((List.pairwise_cons.mp hSorted).1 other
            hOther))).symm
  | case5 axes wheels pairs hStop =>
      -- The axes or the pairs are used up.
      refine (pin?_of_none hLength ?_).symm
      intro axis hAxis
      cases pairs with
      | nil => rfl
      | cons pair pairs =>
          exfalso
          rcases List.exists_cons_of_ne_nil
              (List.ne_nil_of_mem hAxis) with
            ⟨first, rest, rfl⟩
          rcases List.exists_cons_of_length_eq_add_one hLength
            with ⟨wheel, others, rfl⟩
          exact hStop first rest wheel others pair.1 pair.2
            pairs rfl rfl rfl

end Wheel

end JointMax

------------------------------------------------------------
-- Pinning of Pinned Wheels
------------------------------------------------------------

namespace JointMax

namespace Wheel

variable {axes : List Axis} {wheels next : List Wheel}
variable {choice early : VarId → Option Nat}

/- Wheels that are all free and show zero. -/
def fresh (axes : List Axis) : List Wheel :=
  List.replicate axes.length ⟨0, false⟩

/-
  Pinned wheels are pinned further like fresh wheels that are
  pinned once. The wheels are held where the earlier choice
  says, and it gives way to the later one.
-/
theorem pin?_of_held
    (hHeld :
      wheels.map held = axes.map fun axis => early axis.var)
    (hRange : ∀ axis ∈ axes, ∀ digit,
      early axis.var = some digit → digit < axis.size) :
    pin? choice axes wheels =
      pin? (fun var => (choice var).or (early var)) axes
        (fresh axes) := by
  induction axes generalizing wheels with
  | nil =>
      rw [List.map_eq_nil_iff.mp hHeld]
      rfl
  | cons axis axes ih =>
      rcases List.map_eq_cons_iff.mp hHeld with
        ⟨wheel, wheels, rfl, hFirst, hRest⟩
      rcases List.forall_mem_cons.mp hRange with
        ⟨hAxis, hAxes⟩
      change _ = pin? _ (axis :: axes) (_ :: fresh axes)
      have hLater := ih hRest hAxes
      cases hChoice : choice axis.var with
      | some digit =>
          rw [pin?, pin?, hChoice, hLater]
          rfl
      | none =>
          have hBoth :
              (choice axis.var).or (early axis.var) =
                early axis.var := by
            rw [hChoice]
            rfl
          rw [pin?_cons_of_none hChoice, hLater]
          unfold held at hFirst
          split at hFirst
          · rename_i hPinned
            rw [pin?_cons_of_some (hBoth.trans hFirst.symm)
              (hAxis _ hFirst.symm), reset, if_pos hPinned,
              ← hPinned]
          · rename_i hFree
            rw [pin?_cons_of_none (hBoth.trans hFirst.symm),
              reset, if_neg hFree]
            rfl

/- Fresh wheels are held just where they are asked to be. -/
theorem held_of_pin?
    (hNext : pin? choice axes (fresh axes) = .ok next) :
    next.map held = axes.map fun axis => choice axis.var := by
  induction axes generalizing next with
  | nil =>
      cases hNext
      rfl
  | cons axis axes ih =>
      change pin? choice (axis :: axes) (_ :: fresh axes) =
        .ok next at hNext
      cases hChoice : choice axis.var with
      | none =>
          rw [pin?_cons_of_none hChoice] at hNext
          rcases exists_of_map_eq_ok hNext with
            ⟨rest, hRest, rfl⟩
          rw [List.map_cons, List.map_cons, ih hRest, hChoice]
          rfl
      | some digit =>
          by_cases hDigit : digit < axis.size
          · rw [pin?_cons_of_some hChoice hDigit] at hNext
            rcases exists_of_map_eq_ok hNext with
              ⟨rest, hRest, rfl⟩
            rw [List.map_cons, List.map_cons, ih hRest,
              hChoice]
            rfl
          · rw [pin?, hChoice] at hNext
            dsimp only at hNext
            rw [if_neg hDigit] at hNext
            cases hNext

end Wheel

namespace Odometer

/- Pinning depends on the scope and on the held digits. -/
theorem pin?_of_pins
    {odometer : Odometer}
    {choice early : VarId → Option Nat}
    (hPins : odometer.pins =
      odometer.scope.axes.map fun axis => early axis.var)
    (hRange : odometer.scope.Accepts early) :
    odometer.pin? choice =
      (start odometer.scope).pin? fun var =>
        (choice var).or (early var) := by
  unfold pin?
  rw [Wheel.pin?_of_held hPins hRange]
  rfl

end Odometer

end JointMax

------------------------------------------------------------
-- Conditions Merged
------------------------------------------------------------

namespace JointMax

namespace Odometer

/- The choices of a condition as a map. -/
def Condition.assignment (condition : Condition) :
    Assignment :=
  Assignment.ofPairs condition.pairs

/- All choices of some conditions. Later ones override. -/
def mergeInto (merged : Assignment) :
    List Condition → Assignment
  | [] => merged
  | condition :: conditions =>
      mergeInto (merged ∪ condition.assignment) conditions

def merge (conditions : List Condition) : Assignment :=
  mergeInto ∅ conditions

/- The conditions that are accepted along some moves. -/
def accepted : Odometer → List Move → List Condition
  | _, [] => []
  | odometer, .advance :: moves =>
      accepted odometer.step moves
  | odometer, .condition condition :: moves =>
      match odometer.meet? condition with
      | .ok next => condition :: accepted next moves
      | .error _ => accepted odometer moves

/-
  The odometer is the fresh one, conditioned once, after some
  number of steps.
-/
def Merges
    (scope : Scope)
    (merged : Assignment)
    (here : Odometer) : Prop :=
  ∃ fresh rounds,
    (start scope).conditionOn? merged = .ok fresh ∧
      here = step^[rounds] fresh

theorem Condition.Ordered.choice_assignment
    {condition : Condition}
    (hOrdered : condition.Ordered) :
    condition.assignment.choice = condition.choice := by
  funext var
  have hPairs :
      (condition.pairs.map Prod.fst).zip
          (condition.pairs.map Prod.snd) =
        condition.pairs :=
    (List.zip_of_prod rfl rfl).symm
  have hLength :
      (condition.pairs.map Prod.fst).length =
        (condition.pairs.map Prod.snd).length := by
    simp
  have hChoice :=
    Assignment.choice_ofPairs hOrdered.increasing hLength
  rw [hPairs] at hChoice
  rw [assignment, hChoice, aligned, hPairs,
    condition.choice_eq_lookup]

theorem ordered_of_meet?
    {odometer next : Odometer}
    {condition : Condition}
    (hMeet : odometer.meet? condition = .ok next) :
    condition.Ordered := by
  rw [meet?_eq] at hMeet
  rw [Condition.ordered_iff]
  cases hDisorder : condition.disorder? with
  | none => rfl
  | some fault =>
      rw [hDisorder] at hMeet
      cases hMeet

variable {scope : Scope} {merged : Assignment}
variable {here next : Odometer}

theorem mergeInto_concat
    (merged : Assignment)
    (conditions : List Condition)
    (condition : Condition) :
    mergeInto merged (conditions ++ [condition]) =
      mergeInto merged conditions ∪ condition.assignment := by
  induction conditions generalizing merged with
  | nil => rfl
  | cons first conditions ih => exact ih _

theorem merges_start (scope : Scope) :
    Merges scope ∅ (start scope) := by
  refine ⟨start scope, 0, ?_, rfl⟩
  have hNone : ∀ axis ∈ scope.axes,
      Assignment.choice ∅ axis.var = none :=
    fun _ _ => Std.ExtTreeMap.getElem?_empty
  have hReset :
      (start scope).wheels.map Wheel.reset =
        (start scope).wheels := by
    simp [start, Wheel.reset]
  have hIndex := (placed_start scope).index_eq
  change pin? _ _ = _
  unfold pin?
  rw [Wheel.pin?_of_none (placed_start scope).length_eq hNone,
    hReset]
  exact congrArg
    (fun index => Except.ok
      { start scope with index := index })
    hIndex.symm

/- Steps keep the pinned wheels and what is in range. -/
theorem Placed.iterate_step
    (hPlaced : here.Placed)
    (rounds : Nat) :
    (step^[rounds] here).Placed ∧
      (step^[rounds] here).scope = here.scope ∧
      (step^[rounds] here).pins = here.pins := by
  induction rounds with
  | zero => exact ⟨hPlaced, rfl, rfl⟩
  | succ rounds ih =>
      rcases ih with ⟨hThere, hScope, hPins⟩
      rw [Function.iterate_succ_apply']
      exact ⟨hThere.step, (scope_step _).trans hScope,
        hThere.pins_step.trans hPins⟩

/- What is pinned of the odometer are the merged choices. -/
theorem Merges.held
    (hMerges : Merges scope merged here) :
    here.Placed ∧
      here.scope = scope ∧
      scope.Accepts merged.choice ∧
      here.pins =
        scope.axes.map fun axis =>
          merged.choice axis.var := by
  rcases hMerges with ⟨fresh, rounds, hFresh, rfl⟩
  change (start scope).pin? merged.choice = .ok fresh
    at hFresh
  have hStart := placed_start scope
  rcases hStart.pinned_of_pin? hFresh with
    ⟨hPlaced, hScope, _⟩
  rcases hPlaced.iterate_step rounds with
    ⟨hThere, hSame, hPins⟩
  refine ⟨hThere, hSame.trans hScope, ?_, hPins.trans ?_⟩
  · rcases pin?_cases hStart.length_eq merged.choice with
      ⟨hAccepts, _⟩ | ⟨_, _, _, hRefused⟩
    · exact hAccepts
    · rw [hFresh] at hRefused
      cases hRefused
  · unfold pin? at hFresh
    split at hFresh
    · rename_i wheels hWheels
      cases hFresh
      exact Wheel.held_of_pin? hWheels
    · cases hFresh

/- In any history pinning is that of a fresh odometer. -/
theorem Merges.pin?_eq
    (hMerges : Merges scope merged here)
    (choice : VarId → Option Nat) :
    here.pin? choice =
      (start scope).pin? fun var =>
        (choice var).or (merged.choice var) := by
  rcases hMerges.held with ⟨_, rfl, hAccepts, hPins⟩
  exact pin?_of_pins hPins hAccepts

theorem Merges.meet?
    (hMerges : Merges scope merged here)
    {condition : Condition}
    (hMeet : here.meet? condition = .ok next) :
    (start scope).conditionOn?
        (merged ∪ condition.assignment) = .ok next := by
  have hChoice :
      (merged ∪ condition.assignment).choice =
        fun var =>
          (condition.choice var).or (merged.choice var) := by
    funext var
    rw [← (ordered_of_meet? hMeet).choice_assignment]
    exact Std.ExtTreeMap.getElem?_union
  rw [conditionOn?, hChoice, ← hMerges.pin?_eq]
  exact pin?_of_meet? hMeet

/- The merged choices after some moves. -/
theorem Merges.afterAll
    (hMerges : Merges scope merged here)
    (moves : List Move) :
    Merges scope (mergeInto merged (accepted here moves))
      (here.afterAll moves) := by
  induction moves generalizing merged here with
  | nil => exact hMerges
  | cons move moves ih =>
      change Merges _ _ ((here.after move).afterAll moves)
      cases move with
      | advance =>
          apply ih
          rcases hMerges with ⟨fresh, rounds, hFresh, rfl⟩
          refine ⟨fresh, rounds + 1, hFresh, ?_⟩
          rw [Function.iterate_succ_apply']
      | condition condition =>
          rw [accepted, Odometer.after]
          cases hMeet : here.meet? condition with
          | ok next =>
              exact ih ⟨next, 0, hMerges.meet? hMeet, rfl⟩
          | error fault => exact ih hMerges

end Odometer

end JointMax

------------------------------------------------------------
-- Refused Conditions
------------------------------------------------------------

namespace JointMax

namespace Odometer

variable {odometer : Odometer} {condition : Condition}

/-
  Why a condition is refused: lists of two lengths, a list
  out of order, or the least variable of the scope that would
  be pinned out of its range.
-/
inductive Misfit (scope : Scope) :
    Condition → Fault → Prop where
  | lengths {vars : List VarId} {digits : List Nat}
      (apart : vars.length ≠ digits.length) :
      Misfit scope (.listed vars digits)
        (.badScope
          (.conditionCount vars.length digits.length))
  | order {vars : List VarId} {digits : List Nat}
      (level : vars.length = digits.length)
      (unsorted : ¬ Increasing vars) :
      Misfit scope (.listed vars digits)
        (.badScope (.notIncreasing vars))
  | excess {condition : Condition} {axis : Axis}
      {digit : Nat}
      (ordered : condition.Ordered)
      (first :
        scope.FirstExcess condition.choice axis digit) :
      Misfit scope condition
        (.digitOutOfRange axis.var digit axis.size)

theorem misfit_of_disorder?
    {fault : Fault}
    (scope : Scope)
    (hDisorder : condition.disorder? = some fault) :
    Misfit scope condition fault := by
  cases condition with
  | listed vars digits =>
      simp only [Condition.disorder?] at hDisorder
      split_ifs at hDisorder with hLevel hVars
      · cases hDisorder
        exact .order hLevel hVars
      · cases hDisorder
        exact .lengths hLevel
  | chosen assignment => cases hDisorder
  | followed other => cases hDisorder

theorem meet?_cases
    (hLength :
      odometer.wheels.length = odometer.scope.axes.length)
    (condition : Condition) :
    (condition.Ordered ∧
        odometer.scope.Accepts condition.choice ∧
        ∃ next, odometer.meet? condition = .ok next) ∨
      ∃ fault,
        Misfit odometer.scope condition fault ∧
          odometer.meet? condition = .error fault := by
  rw [meet?_eq]
  cases hDisorder : condition.disorder? with
  | none =>
      have hOrdered := Condition.ordered_iff.mpr hDisorder
      rcases pin?_cases hLength condition.choice with
        ⟨hAccepts, hNext⟩ |
          ⟨axis, digit, hExcess, hRefused⟩
      · exact .inl ⟨hOrdered, hAccepts, hNext⟩
      · exact .inr ⟨_, .excess hOrdered hExcess, hRefused⟩
  | some fault =>
      exact .inr
        ⟨fault, misfit_of_disorder? _ hDisorder, rfl⟩

/- A condition with a misfit is not in order and in range. -/
theorem Misfit.not_fits
    {scope : Scope}
    {fault : Fault}
    (hMisfit : Misfit scope condition fault) :
    ¬ (condition.Ordered ∧
      scope.Accepts condition.choice) := by
  rintro ⟨hOrdered, hAccepts⟩
  cases hMisfit with
  | lengths hApart => exact hApart hOrdered.1
  | order _ hVars => exact hVars hOrdered.2
  | excess _ hFirst =>
      exact absurd
        (hAccepts _ hFirst.mem _ hFirst.chosen)
        (not_lt.mpr hFirst.excess)

theorem exists_meet?_iff
    (hLength :
      odometer.wheels.length = odometer.scope.axes.length) :
    (∃ next, odometer.meet? condition = .ok next) ↔
      condition.Ordered ∧
        odometer.scope.Accepts condition.choice := by
  rcases meet?_cases hLength condition with
    ⟨hOrdered, hAccepts, hNext⟩ |
      ⟨fault, hMisfit, hRefused⟩
  · exact iff_of_true hNext ⟨hOrdered, hAccepts⟩
  · refine iff_of_false ?_ hMisfit.not_fits
    rintro ⟨next, hNext⟩
    rw [hRefused] at hNext
    cases hNext

theorem misfit_of_meet?
    {fault : Fault}
    (hLength :
      odometer.wheels.length = odometer.scope.axes.length)
    (hRefused : odometer.meet? condition = .error fault) :
    Misfit odometer.scope condition fault := by
  rcases meet?_cases hLength condition with
    ⟨_, _, next, hNext⟩ | ⟨found, hMisfit, hFound⟩
  · rw [hRefused] at hNext
    cases hNext
  · rw [hRefused] at hFound
    cases hFound
    exact hMisfit

end Odometer

end JointMax

------------------------------------------------------------
-- Conditions in Place
------------------------------------------------------------

namespace JointMax

namespace Odometer

open InPlace

/-
  The pairs are gone through on a copy of the wheels. Then
  the copy, with its free wheels reset, takes their place.
-/
def pinInPlace (pairs : List (VarId × Nat)) :
    InPlace Odometer Unit := do
  let here ← get
  let copies ←
    Wheel.overlay? here.scope.axes here.wheels pairs
  let wheels := copies.map Wheel.reset
  change fun here =>
    { here with
      index :=
        MixedRadix.encode here.scope.sizes
          (wheels.map Wheel.digit) }
  change fun here => { here with wheels := wheels }
  change fun here => { here with finished := false }

def meetInPlace : Condition → InPlace Odometer Unit
  | .listed vars digits => do
      if vars.length = digits.length then
        if Increasing vars then
          pinInPlace (vars.zip digits)
        else
          throw (.badScope (.notIncreasing vars))
      else
        throw (.badScope
          (.conditionCount vars.length digits.length))
  | .chosen assignment => pinInPlace assignment.toList
  | .followed other =>
      pinInPlace (other.vars.zip other.digits)

/- The odometer with other wheels, at the start of a walk. -/
def restart (here : Odometer) (wheels : List Wheel) :
    Odometer :=
  { here with
    wheels := wheels
    index :=
      MixedRadix.encode here.scope.sizes
        (wheels.map Wheel.digit)
    finished := false }

theorem outcome_pinInPlace
    (pairs : List (VarId × Nat))
    (here : Odometer) :
    outcome (pinInPlace pairs) here =
      concluded here
        ((Wheel.overlay? here.scope.axes here.wheels
          pairs).map fun copies =>
            here.restart (copies.map Wheel.reset)) := by
  unfold pinInPlace
  rw [outcome_get_bind, outcome_lift_bind]
  cases Wheel.overlay? here.scope.axes here.wheels pairs with
  | ok copies => rfl
  | error fault => rfl

theorem meetInPlace_eq (condition : Condition) :
    meetInPlace condition =
      match condition.disorder? with
      | none => pinInPlace condition.pairs
      | some fault => throw fault := by
  cases condition with
  | listed vars digits =>
      simp only [meetInPlace, Condition.disorder?]
      split_ifs <;> rfl
  | chosen assignment => rfl
  | followed other => rfl

theorem atomic_meetInPlace (condition : Condition) :
    Atomic (meetInPlace condition) := by
  rw [meetInPlace_eq]
  cases condition.disorder? with
  | none =>
      exact atomic_of_concluded
        (outcome_pinInPlace condition.pairs)
  | some fault => exact atomic_throw fault

/- The walk on copies meets the condition as a whole. -/
theorem outcome_meetInPlace
    (hLength :
      odometer.wheels.length = odometer.scope.axes.length)
    (condition : Condition) :
    outcome (meetInPlace condition) odometer =
      concluded odometer (odometer.meet? condition) := by
  rw [meetInPlace_eq, meet?_eq]
  cases hDisorder : condition.disorder? with
  | some fault => rfl
  | none =>
      have hOrdered := Condition.ordered_iff.mpr hDisorder
      have hChoice :
          condition.choice = (condition.pairs.lookup ·) :=
        funext condition.choice_eq_lookup
      dsimp only
      rw [outcome_pinInPlace, hChoice, pin?,
        ← Wheel.overlay?_eq odometer.scope.sorted
          hOrdered.increasing hLength]
      cases Wheel.overlay? odometer.scope.axes
        odometer.wheels condition.pairs <;> rfl

end Odometer

end JointMax

------------------------------------------------------------
-- Every History
------------------------------------------------------------

namespace JointMax

namespace Odometer

open InPlace

/-
  After any moves, the odometer is the fresh one, conditioned
  once by all accepted conditions, after some steps. A
  further condition is accepted just if it is in order and in
  range. Then the odometer is the fresh one, conditioned by
  all of them, and else it is left as it was.
-/
theorem merges_afterAll
    (scope : Scope)
    (moves : List Move) :
    let here := (start scope).afterAll moves
    let earlier := accepted (start scope) moves
    (∃ fresh rounds,
      (start scope).conditionOn? (merge earlier) =
          .ok fresh ∧
        here = step^[rounds] fresh) ∧
      (∀ condition,
        (∃ next, here.meet? condition = .ok next) ↔
          condition.Ordered ∧
            scope.Accepts condition.choice) ∧
      (∀ condition fault,
        here.meet? condition = .error fault →
          Misfit scope condition fault) ∧
      (∀ condition next,
        here.meet? condition = .ok next →
          (start scope).conditionOn?
              (merge (earlier ++ [condition])) =
            .ok next) ∧
      (∀ condition,
        outcome (meetInPlace condition) here =
          concluded here (here.meet? condition)) ∧
      ∀ condition, Atomic (meetInPlace condition) := by
  intro here earlier
  have hMerges : Merges scope (merge earlier) here :=
    (merges_start scope).afterAll moves
  rcases hMerges.held with ⟨hPlaced, hScope, _⟩
  have hLength := hPlaced.length_eq
  refine ⟨hMerges, ?_, ?_, ?_, ?_, atomic_meetInPlace⟩
  · intro condition
    rw [exists_meet?_iff hLength, hScope]
  · intro condition fault hRefused
    rw [← hScope]
    exact misfit_of_meet? hLength hRefused
  · intro condition next hMeet
    rw [merge, mergeInto_concat]
    exact hMerges.meet? hMeet
  · exact outcome_meetInPlace hLength

end Odometer

end JointMax
