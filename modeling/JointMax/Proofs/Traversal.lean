import Mathlib
import JointMax.Proofs.Pinning

/-
  Walks of an odometer. Whatever has been done to it before,
  the index is the number of the digits that it shows, and
  from each restart it passes the joint values that keep the
  pinned variables, once each and in increasing order.

  Main declarations:
    * `Odometer.Move` and `Odometer.afterAll`
    * `Odometer.Placed`, which holds of every state
    * `Odometer.step?`, the step with its subtractions
      checked
    * `Odometer.Walks`, the loop that steps to the end
    * `Odometer.traversal_afterAll`
-/

------------------------------------------------------------
-- Moves
------------------------------------------------------------

namespace JointMax

namespace Odometer

/- What an odometer may be asked to pin. -/
inductive Condition where
  | listed (vars : List VarId) (digits : List Nat)
  | chosen (assignment : Assignment)
  | followed (other : Odometer)

namespace Condition

/- The digits that are asked for. -/
def choice : Condition → VarId → Option Nat
  | listed vars digits => aligned vars digits
  | chosen assignment => assignment.choice
  | followed other => aligned other.vars other.digits

end Condition

/- The odometer after an accepted condition. -/
def meet?
    (odometer : Odometer) :
    Condition → Except Fault Odometer
  | .listed vars digits => odometer.condition? vars digits
  | .chosen assignment => odometer.conditionOn? assignment
  | .followed other => odometer.follow? other

inductive Move where
  | advance
  | condition (condition : Condition)

/- A refused condition leaves the odometer as it is. -/
def after (odometer : Odometer) : Move → Odometer
  | .advance => odometer.step
  | .condition condition =>
      match odometer.meet? condition with
      | .ok next => next
      | .error _ => odometer

def afterAll (odometer : Odometer) (moves : List Move) :
    Odometer :=
  moves.foldl after odometer

/- Only the choice of an accepted condition matters. -/
theorem pin?_of_meet?
    {odometer next : Odometer}
    {condition : Condition}
    (hMeet : odometer.meet? condition = .ok next) :
    odometer.pin? condition.choice = .ok next := by
  cases condition with
  | listed vars digits =>
      simp only [meet?, condition?] at hMeet
      split at hMeet
      · split at hMeet
        · exact hMeet
        · cases hMeet
      · cases hMeet
  | chosen assignment => exact hMeet
  | followed other => exact hMeet

end Odometer

end JointMax

------------------------------------------------------------
-- Pinned Variables
------------------------------------------------------------

namespace JointMax

namespace Odometer

/- The digit at which a variable is pinned. -/
def heldAt (odometer : Odometer) (var : VarId) :
    Option Nat :=
  if odometer.isPinned var then
    aligned odometer.vars odometer.digits var
  else
    none

theorem isPinned_eq (odometer : Odometer) (var : VarId) :
    odometer.isPinned var =
      (aligned odometer.vars
        (odometer.wheels.map Wheel.pinned) var).getD
          false := by
  rw [isPinned, aligned_map]
  cases aligned odometer.vars odometer.wheels var <;> rfl

theorem heldAt_eq (odometer : Odometer) :
    odometer.heldAt =
      Wheel.heldAt odometer.vars odometer.wheels := by
  funext var
  rw [heldAt, isPinned_eq, Wheel.heldAt, digits,
    aligned_map, aligned_map, aligned_map]
  cases aligned odometer.vars odometer.wheels var with
  | none => rfl
  | some wheel =>
      cases hPinned : wheel.pinned <;>
        simp [Wheel.held, hPinned]

/- The free variables are those beside the free wheels. -/
theorem axes_freeScope
    {odometer : Odometer}
    (hLength :
      odometer.wheels.length = odometer.scope.axes.length) :
    odometer.freeScope.axes =
      Wheel.loose odometer.wheels odometer.scope.axes := by
  have hAligned :
      odometer.vars.map
          (aligned odometer.vars
            (odometer.wheels.map Wheel.pinned)) =
        (odometer.wheels.map Wheel.pinned).map some := by
    apply map_aligned odometer.scope.nodup_vars
    simp [Scope.vars, hLength]
  have hPinned :
      odometer.scope.axes.map
          (fun axis => odometer.isPinned axis.var) =
        odometer.wheels.map Wheel.pinned := by
    have hBoth :=
      congrArg (List.map fun pinned => pinned.getD false)
        hAligned
    simpa [isPinned_eq, vars, Scope.vars, List.map_map,
      Function.comp_def] using hBoth
  rw [Wheel.loose_eq_filter hPinned]
  rfl

theorem sizes_freeScope
    {odometer : Odometer}
    (hLength :
      odometer.wheels.length = odometer.scope.axes.length) :
    odometer.freeScope.sizes =
      Wheel.loose odometer.wheels odometer.scope.sizes := by
  unfold Scope.sizes
  rw [axes_freeScope hLength, Wheel.loose_map]

end Odometer

end JointMax

------------------------------------------------------------
-- Positions
------------------------------------------------------------

namespace JointMax

namespace Odometer

/- The wheels are in range, and the index is their number. -/
structure Placed (odometer : Odometer) : Prop where
  within :
    MixedRadix.Within odometer.scope.sizes odometer.digits
  index_eq :
    odometer.index =
      MixedRadix.encode odometer.scope.sizes odometer.digits

/- Number that the free wheels show by themselves. -/
def freeNumber (odometer : Odometer) : Nat :=
  Wheel.freeNumber odometer.scope.axes odometer.wheels

/- The wheels that are pinned, with their digits. -/
def pins (odometer : Odometer) : List (Option Nat) :=
  odometer.wheels.map Wheel.held

/-
  The step, breaking off where more would be taken from the
  index than it holds.
-/
def step? (odometer : Odometer) : Option Odometer :=
  if odometer.finished then
    some odometer
  else
    (Wheel.turn? odometer.scope.axes odometer.wheels 1
      odometer.index).map fun (wheels, index, wrapped) =>
        { odometer with
          wheels := wheels
          index := index
          finished := wrapped }

variable {odometer next : Odometer}

theorem step_eq (hNext : odometer.finished = false) :
    odometer.step =
      { odometer with
        wheels :=
          (Wheel.turn odometer.scope.axes odometer.wheels 1
            odometer.index).1
        index :=
          (Wheel.turn odometer.scope.axes odometer.wheels 1
            odometer.index).2.1
        finished :=
          (Wheel.turn odometer.scope.axes odometer.wheels 1
            odometer.index).2.2 } := by
  simp [step, hNext]

theorem step_of_finished
    (hDone : odometer.finished = true) :
    odometer.step = odometer := by
  simp [step, hDone]

@[simp] theorem scope_step (odometer : Odometer) :
    odometer.step.scope = odometer.scope := by
  unfold step
  split <;> rfl

theorem placed_start (scope : Scope) :
    (start scope).Placed := by
  have hDigits :
      (start scope).digits =
        List.replicate scope.axes.length 0 := by
    simp [start, digits, Scope.length]
  constructor
  · rw [hDigits, ← List.map_const']
    exact MixedRadix.within_map fun axis _ => axis.size_pos
  · rw [hDigits]
    exact (MixedRadix.encode_zeros _ _).symm

namespace Placed

theorem length_eq (hPlaced : odometer.Placed) :
    odometer.wheels.length = odometer.scope.axes.length := by
  have hLength := hPlaced.within.length_eq
  simpa [digits, Scope.sizes] using hLength

theorem index_lt (hPlaced : odometer.Placed) :
    odometer.index < odometer.scope.count := by
  rw [hPlaced.index_eq]
  exact MixedRadix.encode_lt hPlaced.within

/- The index stands at weight one, with nothing before it. -/
theorem index_eq_shown (hPlaced : odometer.Placed) :
    odometer.index =
      0 + 1 * Wheel.shownNumber odometer.scope.axes
        odometer.wheels := by
  rw [hPlaced.index_eq, Nat.one_mul, Nat.zero_add]
  rfl

theorem turned
    (hPlaced : odometer.Placed)
    (hNext : odometer.finished = false) :
    Wheel.Turned odometer.scope.axes odometer.wheels
      odometer.step.wheels odometer.step.finished := by
  rw [step_eq hNext]
  exact Wheel.turned hPlaced.within _ _

protected theorem step (hPlaced : odometer.Placed) :
    odometer.step.Placed := by
  cases hNext : odometer.finished
  · constructor
    · rw [scope_step]
      exact (hPlaced.turned hNext).within hPlaced.within
    · have hIndex :=
        Wheel.turn_index hPlaced.within 0 1
      rw [← hPlaced.index_eq_shown] at hIndex
      simp only [Nat.one_mul, Nat.zero_add] at hIndex
      rw [step_eq hNext]
      exact hIndex
  · rwa [step_of_finished hNext]

/- No subtraction goes below zero. -/
theorem step?_eq (hPlaced : odometer.Placed) :
    odometer.step? = some odometer.step := by
  unfold step?
  cases hNext : odometer.finished
  · have hTurn := Wheel.turn?_eq_turn hPlaced.within 0 1
    rw [← hPlaced.index_eq_shown] at hTurn
    rw [hTurn, step_eq hNext]
    rfl
  · rw [step_of_finished hNext]
    rfl

theorem pins_step (hPlaced : odometer.Placed) :
    odometer.step.pins = odometer.pins := by
  cases hNext : odometer.finished
  · exact (hPlaced.turned hNext).held_eq
  · rw [step_of_finished hNext]

theorem pinned_of_pin?
    {choice : VarId → Option Nat}
    (hPlaced : odometer.Placed)
    (hPin : odometer.pin? choice = .ok next) :
    next.Placed ∧
      next.scope = odometer.scope ∧
      next.finished = false ∧
      Wheel.Pinned choice odometer.scope.axes
        odometer.wheels next.wheels := by
  unfold pin? at hPin
  split at hPin
  · rename_i wheels hWheels
    cases hPin
    have hPinned :=
      Wheel.pinned_of_pin? hPlaced.length_eq hWheels
    exact ⟨⟨hPinned.within hPlaced.within, rfl⟩, rfl, rfl,
      hPinned⟩
  · cases hPin

protected theorem after
    (hPlaced : odometer.Placed)
    (move : Move) :
    (odometer.after move).Placed ∧
      (odometer.after move).scope = odometer.scope := by
  cases move with
  | advance => exact ⟨hPlaced.step, scope_step odometer⟩
  | condition condition =>
      simp only [after]
      split
      · rename_i next hMeet
        have hPin := pin?_of_meet? hMeet
        rcases hPlaced.pinned_of_pin? hPin with
          ⟨hNext, hScope, _⟩
        exact ⟨hNext, hScope⟩
      · exact ⟨hPlaced, rfl⟩

protected theorem afterAll
    (hPlaced : odometer.Placed)
    (moves : List Move) :
    (odometer.afterAll moves).Placed ∧
      (odometer.afterAll moves).scope = odometer.scope := by
  induction moves generalizing odometer with
  | nil => exact ⟨hPlaced, rfl⟩
  | cons move moves ih =>
      rcases hPlaced.after move with ⟨hNext, hScope⟩
      rcases ih hNext with ⟨hLast, hSame⟩
      exact ⟨hLast, hSame.trans hScope⟩

end Placed

end Odometer

end JointMax

------------------------------------------------------------
-- Walks
------------------------------------------------------------

namespace JointMax

namespace Odometer

/-
  The loop that steps while there is a next joint value, with
  the positions at which its body runs. There is no bound on
  the number of rounds.
-/
inductive Walks : Odometer → List Odometer → Prop where
  | done {odometer : Odometer}
      (hDone : odometer.hasNext = false) :
      Walks odometer []
  | next {odometer : Odometer} {rest : List Odometer}
      (hNext : odometer.hasNext = true)
      (later : Walks odometer.step rest) :
      Walks odometer (odometer :: rest)

variable {odometer : Odometer} {positions : List Odometer}

theorem Walks.unique
    {others : List Odometer}
    (hFirst : Walks odometer positions)
    (hSecond : Walks odometer others) :
    positions = others := by
  induction hFirst generalizing others with
  | done hDone =>
      cases hSecond with
      | done => rfl
      | next hNext _ => simp [hDone] at hNext
  | next hNext _ ih =>
      cases hSecond with
      | done hDone => simp [hDone] at hNext
      | next _ later => rw [ih later]

theorem Walks.walk_eq
    (hWalks : Walks odometer positions)
    {bound : Nat}
    (hBound : positions.length ≤ bound) :
    walk bound odometer = positions := by
  induction hWalks generalizing bound with
  | @done odometer hDone =>
      have hFinished : odometer.finished = true := by
        simpa [hasNext] using hDone
      cases bound <;> simp [walk, hFinished]
  | @next odometer rest hNext later ih =>
      have hRunning : odometer.finished = false := by
        simpa [hasNext] using hNext
      cases bound with
      | zero => cases hBound
      | succ bound =>
          simp only [walk, hRunning, Bool.false_eq_true,
            if_false]
          rw [ih (by simpa using hBound)]

/- A walk from a placed odometer, described by its numbers. -/
structure Route
    (odometer : Odometer)
    (positions : List Odometer) : Prop where
  walks : Walks odometer positions
  numbers :
    positions.map freeNumber =
      List.range' odometer.freeNumber
        (odometer.freeScope.count - odometer.freeNumber)
  increasing :
    positions.Pairwise fun first second =>
      first.index < second.index
  later :
    ∀ position ∈ positions,
      odometer.index ≤ position.index
  placed : ∀ position ∈ positions, position.Placed
  scope_eq :
    ∀ position ∈ positions,
      position.scope = odometer.scope
  pins_eq :
    ∀ position ∈ positions, position.pins = odometer.pins

namespace Placed

theorem count_freeScope (hPlaced : odometer.Placed) :
    odometer.freeScope.count =
      Wheel.freeCount odometer.scope.axes
        odometer.wheels := by
  rw [Scope.count, sizes_freeScope hPlaced.length_eq]
  rfl

theorem freeNumber_lt (hPlaced : odometer.Placed) :
    odometer.freeNumber < odometer.freeScope.count := by
  rw [hPlaced.count_freeScope]
  exact MixedRadix.encode_lt
    (Wheel.within_loose hPlaced.within)

theorem count_step (hPlaced : odometer.Placed) :
    odometer.step.freeScope.count =
      odometer.freeScope.count := by
  rw [hPlaced.step.count_freeScope, hPlaced.count_freeScope,
    Wheel.freeCount, scope_step,
    Wheel.loose_congr hPlaced.pins_step]
  rfl

/-
  From any state that is not at the end, the loop runs
  through the free numbers that are left.
-/
theorem exists_route
    (hPlaced : odometer.Placed)
    (hNext : odometer.finished = false) :
    ∃ positions, Route odometer positions := by
  have hBelow := hPlaced.freeNumber_lt
  generalize hLeft :
    odometer.freeScope.count - odometer.freeNumber = left
  induction left generalizing odometer with
  | zero => omega
  | succ left ih =>
      have hTurned := hPlaced.turned hNext
      have hHas : odometer.hasNext = true := by
        simp [hasNext, hNext]
      cases hWrapped : odometer.step.finished
      · have hNumber :
            odometer.step.freeNumber =
              odometer.freeNumber + 1 := by
          unfold freeNumber
          rw [scope_step]
          exact hTurned.freeNumber_succ hWrapped
        have hIndex :
            odometer.index < odometer.step.index := by
          rw [hPlaced.index_eq, hPlaced.step.index_eq,
            scope_step]
          exact hTurned.shownNumber_lt hWrapped
        rcases ih hPlaced.step hWrapped
            hPlaced.step.freeNumber_lt
            (by rw [hPlaced.count_step, hNumber]; omega) with
          ⟨rest, hRest⟩
        refine ⟨odometer :: rest, ?_⟩
        constructor
        · exact Walks.next hHas hRest.walks
        · rw [List.map_cons, hRest.numbers, hNumber,
            hPlaced.count_step, hLeft, List.range'_succ]
          congr 2
          omega
        · refine List.pairwise_cons.mpr
            ⟨?_, hRest.increasing⟩
          intro position hPosition
          exact lt_of_lt_of_le hIndex
            (hRest.later position hPosition)
        · rw [List.forall_mem_cons]
          refine ⟨le_refl _, ?_⟩
          intro position hPosition
          exact hIndex.le.trans
            (hRest.later position hPosition)
        · exact List.forall_mem_cons.mpr
            ⟨hPlaced, hRest.placed⟩
        · rw [List.forall_mem_cons]
          refine ⟨rfl, ?_⟩
          intro position hPosition
          rw [hRest.scope_eq position hPosition, scope_step]
        · rw [List.forall_mem_cons]
          refine ⟨rfl, ?_⟩
          intro position hPosition
          rw [hRest.pins_eq position hPosition,
            hPlaced.pins_step]
      · have hLast := hTurned.freeNumber_last hWrapped
        have hOne :
            odometer.freeScope.count -
              odometer.freeNumber = 1 := by
          rw [hPlaced.count_freeScope, ← hLast]
          exact Nat.add_sub_cancel_left ..
        refine ⟨[odometer], ?_⟩
        constructor
        · exact Walks.next hHas
            (Walks.done (by simp [hasNext, hWrapped]))
        · rw [hOne]
          rfl
        · exact List.pairwise_singleton ..
        · simp
        · simpa using hPlaced
        · simp
        · simp

end Placed

namespace Route

theorem length_eq
    (hRoute : Route odometer positions)
    (hFirst : odometer.freeNumber = 0) :
    positions.length = odometer.freeScope.count := by
  have hLength := congrArg List.length hRoute.numbers
  simpa [hFirst] using hLength

/- No more joint values are passed than there are. -/
theorem length_le (hRoute : Route odometer positions) :
    positions.length ≤ odometer.scope.count := by
  have hNodup : (positions.map index).Nodup :=
    List.pairwise_map.mpr
      (hRoute.increasing.imp fun hLess => hLess.ne)
  have hSubset :
      positions.map index ⊆ List.range odometer.scope.count := by
    intro number hNumber
    rcases List.mem_map.mp hNumber with
      ⟨position, hPosition, rfl⟩
    rw [List.mem_range, ← hRoute.scope_eq position hPosition]
    exact (hRoute.placed position hPosition).index_lt
  simpa using (hNodup.subperm hSubset).length_le

/- The digits passed are those that keep the pins. -/
theorem mem_digits_iff
    (hRoute : Route odometer positions)
    (hPlaced : odometer.Placed)
    (hFirst : odometer.freeNumber = 0)
    {shown : List Nat} :
    shown ∈ positions.map digits ↔
      MixedRadix.Within odometer.scope.sizes shown ∧
        Wheel.Shown odometer.wheels shown := by
  constructor
  · intro hShown
    rcases List.mem_map.mp hShown with
      ⟨position, hPosition, rfl⟩
    rw [← hRoute.scope_eq position hPosition]
    exact ⟨(hRoute.placed position hPosition).within,
      (Wheel.shown_digits position.wheels).congr
        (hRoute.pins_eq position hPosition).symm⟩
  · rintro ⟨hWithin, hShown⟩
    have hFree :
        MixedRadix.Within odometer.freeScope.sizes
          (Wheel.loose odometer.wheels shown) := by
      rw [sizes_freeScope hPlaced.length_eq]
      exact Wheel.within_loose hWithin
    -- some position has the same free number
    have hNumber :
        MixedRadix.encode odometer.freeScope.sizes
            (Wheel.loose odometer.wheels shown) ∈
          positions.map freeNumber := by
      rw [hRoute.numbers, hFirst, Nat.sub_zero,
        ← List.range_eq_range', List.mem_range]
      exact MixedRadix.encode_lt hFree
    rcases List.mem_map.mp hNumber with
      ⟨position, hPosition, hSame⟩
    have hPins := hRoute.pins_eq position hPosition
    have hSizes :
        Wheel.loose position.wheels
            (position.scope.axes.map Axis.size) =
          odometer.freeScope.sizes := by
      rw [sizes_freeScope hPlaced.length_eq,
        hRoute.scope_eq position hPosition]
      exact Wheel.loose_congr hPins _
    have hThere :
        MixedRadix.Within odometer.freeScope.sizes
          (Wheel.loose position.wheels position.digits) := by
      rw [← hSizes]
      exact Wheel.within_loose
        (hRoute.placed position hPosition).within
    rw [freeNumber, Wheel.freeNumber, hSizes] at hSame
    have hLoose :
        Wheel.loose position.wheels position.digits =
          Wheel.loose position.wheels shown := by
      rw [Wheel.loose_congr hPins shown,
        ← MixedRadix.decode_encode hFree, ← hSame]
      exact (MixedRadix.decode_encode hThere).symm
    -- pinned and free digits together make up all of them
    refine List.mem_map.mpr ⟨position, hPosition, ?_⟩
    rw [← Wheel.weave_loose (hShown.congr hPins), ← hLoose]
    exact (Wheel.weave_loose
      (Wheel.shown_digits position.wheels)).symm

end Route

end Odometer

end JointMax

------------------------------------------------------------
-- Traversal
------------------------------------------------------------

namespace JointMax

namespace Scope

theorem encode?_of_within
    {scope : Scope}
    {digits : List Nat}
    (hWithin : MixedRadix.Within scope.sizes digits) :
    scope.encode? digits =
      .ok (MixedRadix.encode scope.sizes digits) := by
  have hAxes :
      ∀ (axes : List Axis) (digits : List Nat),
        MixedRadix.Within (axes.map Axis.size) digits →
          Axis.encode? axes digits =
            .ok (MixedRadix.encode (axes.map Axis.size)
              digits) := by
    intro axes
    induction axes with
    | nil =>
        rintro _ ⟨⟩
        rfl
    | cons axis axes ih =>
        rintro _ (_ | ⟨head, tail⟩)
        simp only [Axis.encode?, head, if_true, ih _ tail]
        rfl
  rw [encode?, if_pos (by
    simpa [sizes, length] using hWithin.length_eq)]
  exact hAxes scope.axes digits hWithin

end Scope

namespace Odometer

/- A variable is pinned where the condition asks for it. -/
theorem Placed.heldAt_of_meet?
    {odometer next : Odometer}
    {condition : Condition}
    (hPlaced : odometer.Placed)
    (hMeet : odometer.meet? condition = .ok next)
    {var : VarId}
    (hVar : var ∈ odometer.vars) :
    next.heldAt var =
      (condition.choice var).or (odometer.heldAt var) := by
  rcases hPlaced.pinned_of_pin? (pin?_of_meet? hMeet) with
    ⟨_, hScope, _, hPinned⟩
  rw [heldAt_eq, heldAt_eq, vars, hScope]
  exact hPinned.heldAt_eq hVar

theorem Placed.heldAt_step
    {odometer : Odometer}
    (hPlaced : odometer.Placed)
    (var : VarId) :
    odometer.step.heldAt var = odometer.heldAt var := by
  have hPins := hPlaced.pins_step
  unfold pins at hPins
  rw [heldAt_eq, heldAt_eq, Wheel.heldAt, Wheel.heldAt,
    hPins, vars, scope_step]
  rfl

/- A start, and every accepted condition, starts a walk. -/
theorem Placed.restarted
    {odometer next : Odometer}
    (hPlaced : odometer.Placed)
    (hNext :
      next = start odometer.scope ∨
        ∃ condition, odometer.meet? condition = .ok next) :
    next.Placed ∧ next.scope = odometer.scope ∧
      next.finished = false ∧ next.freeNumber = 0 := by
  rcases hNext with rfl | ⟨condition, hMeet⟩
  · exact ⟨placed_start _, rfl, rfl,
      Wheel.freeNumber_zeros odometer.scope.axes⟩
  · rcases hPlaced.pinned_of_pin? (pin?_of_meet? hMeet) with
      ⟨hPlacedNext, hScope, hRunning, hPinned⟩
    refine ⟨hPlacedNext, hScope, hRunning, ?_⟩
    rw [freeNumber, hScope]
    exact hPinned.freeNumber_eq

/-
  Reading an odometer after any moves, accepted or not. Its
  index is the number of its digits, a step subtracts no more
  than there is and leaves the pinned variables alone, the
  end is stable, and conditions pin what they ask for or
  change nothing. A walk from the start or from an accepted
  condition ends after as many positions as the free
  variables have joint values, in increasing order, and it
  passes exactly the joint values that keep the pinned
  variables.
-/
theorem traversal_afterAll
    (scope : Scope)
    (moves : List Move) :
    let here := (start scope).afterAll moves
    here.scope = scope ∧
      scope.encode? here.digits = .ok here.index ∧
      here.index < scope.count ∧
      here.step? = some here.step ∧
      (∀ var, here.step.heldAt var = here.heldAt var) ∧
      (here.hasNext = false →
        ∀ rounds, step^[rounds] here = here) ∧
      (∀ condition,
        match here.meet? condition with
        | .ok next =>
            ∀ var ∈ scope.vars,
              next.heldAt var =
                (condition.choice var).or (here.heldAt var)
        | .error _ =>
            here.after (.condition condition) = here) ∧
      ∀ next,
        (next = start scope ∨
          ∃ condition, here.meet? condition = .ok next) →
        ∃ positions,
          Walks next positions ∧
          next.trail = positions ∧
          positions.length = next.freeScope.count ∧
          (positions.map index).Pairwise (· < ·) ∧
          ∀ shown, shown ∈ positions.map digits ↔
            MixedRadix.Within scope.sizes shown ∧
              ∀ var digit, next.heldAt var = some digit →
                aligned scope.vars shown var =
                  some digit := by
  intro here
  rcases (placed_start scope).afterAll moves with
    ⟨hPlaced, hScope⟩
  change here.Placed at hPlaced
  change here.scope = scope at hScope
  refine ⟨hScope, ?_, ?_, hPlaced.step?_eq,
    hPlaced.heldAt_step, ?_, ?_, ?_⟩
  · rw [← hScope, hPlaced.index_eq]
    exact Scope.encode?_of_within hPlaced.within
  · rw [← hScope]
    exact hPlaced.index_lt
  · intro hDone rounds
    have hFinished : here.finished = true := by
      simpa [hasNext] using hDone
    exact Function.iterate_fixed
      (step_of_finished hFinished) rounds
  · intro condition
    split
    · rename_i next hMeet
      intro var hVar
      exact hPlaced.heldAt_of_meet? hMeet (by
        rwa [vars, hScope])
    · rename_i fault hMeet
      simp only [after, hMeet]
  · intro next hNext
    rw [← hScope] at hNext ⊢
    rcases hPlaced.restarted hNext with
      ⟨hPlacedNext, hSame, hRunning, hFirst⟩
    rcases hPlacedNext.exists_route hRunning with
      ⟨positions, hRoute⟩
    refine ⟨positions, hRoute.walks,
      hRoute.walks.walk_eq hRoute.length_le,
      hRoute.length_eq hFirst,
      List.pairwise_map.mpr hRoute.increasing, ?_⟩
    intro shown
    rw [hRoute.mem_digits_iff hPlacedNext hFirst, hSame]
    apply and_congr_right
    intro hWithin
    rw [heldAt_eq, vars, hSame]
    apply Wheel.shown_iff (Scope.nodup_vars _)
    · rw [hPlacedNext.length_eq, hSame]
      simp [Scope.vars]
    · simpa [Scope.sizes, Scope.vars] using
        hWithin.length_eq

end Odometer

end JointMax
