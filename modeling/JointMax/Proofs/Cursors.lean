import Mathlib
import JointMax.Cursor
import JointMax.Proofs.Loops
import JointMax.Proofs.WordScopes

/-
  Walks of a cursor in machine words. As long as the joint
  values are counted by a word, the weights are exact, and a
  cursor does what the odometer below it does: no step breaks
  off, and no subtraction goes below zero. From there on a
  weight may wrap around to zero, and different joint values
  get the same index: a walk that wraps around passes the
  remainders of all numbers below the count.

  Main declarations:
    * `MixedRadix.weights` and `MixedRadix.weights?_eq`
    * `Wheel.turnWord?_eq`
    * `Odometer.cursor`, the cursor with exact weights
    * `Cursor.step?_eq`, `Cursor.meet?_eq` and
      `Cursor.afterAll?_eq`
    * `Odometer.wrapped` and `Cursor.exists_walk_wrapped`
    * `Cursor.Traversed`, `Cursor.Traverses` and
      `Cursor.traverses_of_lt`
-/

------------------------------------------------------------
-- Exact Weights
------------------------------------------------------------

namespace JointMax

namespace MixedRadix

def weights : Nat → List Nat → List Nat
  | _, [] => []
  | weight, radix :: radices =>
      weight :: weights (weight * radix) radices

variable {build : Build} {radices digits : List Nat}

theorem weights?_eq
    {weight : Nat}
    (hPos : ∀ radix ∈ radices, 0 < radix)
    (hBound : weight * count radices < wordLimit) :
    weights? build.fit weight radices =
      some (weights weight radices) := by
  induction radices generalizing weight with
  | nil => rfl
  | cons radix radices ih =>
      rw [List.forall_mem_cons] at hPos
      rw [count, ← Nat.mul_assoc] at hBound
      have hHeavier : weight * radix < wordLimit :=
        lt_of_le_of_lt
          (Nat.le_mul_of_pos_right _ (count_pos hPos.2))
          hBound
      rw [weights?, Build.fit_eq hHeavier,
        Option.bind_eq_bind, Option.bind_some,
        ih hPos.2 hBound]
      rfl

/- Low digits and those from a weight on stay in range. -/
theorem add_mul_encode_lt
    {low weight : Nat}
    (hLow : low < weight)
    (hWithin : Within radices digits) :
    low + weight * encode radices digits <
      weight * count radices :=
  digit_add_lt hLow (encode_lt hWithin)

theorem weigh?_eq
    {index weight : Nat}
    (hWithin : Within radices digits)
    (hIndex : index < weight)
    (hBound : weight * count radices < wordLimit) :
    weigh? build.fit index digits (weights weight radices) =
      some (index + weight * encode radices digits) := by
  induction hWithin generalizing index weight with
  | nil => rfl
  | @cons radix digit radices digits head tail ih =>
      rw [count, ← Nat.mul_assoc] at hBound
      have hNext := add_mul_lt head hIndex
      have hRest := add_mul_encode_lt hNext tail
      rw [weights, weigh?, Build.fit_eq (by omega),
        Option.bind_eq_bind, Option.bind_some,
        Build.fit_eq (by omega), Option.bind_some,
        ih hNext hBound, encode]
      congr 1
      ring

end MixedRadix

end JointMax

------------------------------------------------------------
-- Turning
------------------------------------------------------------

namespace JointMax

namespace Wheel

variable {build : Build}
variable {axes : List Axis} {wheels : List Wheel}

/-
  A turn in words is the turn. What is added leads to the
  index of another joint value, and what is taken away is in
  the index.
-/
theorem turnWord?_eq
    {low stride : Nat}
    (hWithin :
      MixedRadix.Within (axes.map Axis.size)
        (wheels.map Wheel.digit))
    (hLow : low < stride)
    (hBound :
      stride * MixedRadix.count (axes.map Axis.size) <
        wordLimit) :
    turnWord? build axes
        (MixedRadix.weights stride (axes.map Axis.size))
        wheels (low + stride * shownNumber axes wheels) =
      some (turn axes wheels stride
        (low + stride * shownNumber axes wheels)) := by
  induction axes generalizing wheels low stride with
  | nil =>
      cases wheels with
      | nil => rfl
      | cons wheel wheels => cases hWithin
  | cons axis axes ih =>
      cases wheels with
      | nil => cases hWithin
      | cons wheel wheels =>
          cases hWithin with
          | cons head tail =>
              have hHere :=
                MixedRadix.add_mul_lt head hLow
              rw [List.map_cons, MixedRadix.count,
                ← Nat.mul_assoc] at hBound
              rw [index_cons]
              have hIndex :=
                MixedRadix.add_mul_encode_lt hHere tail
              change _ + _ * shownNumber axes wheels < _
                at hIndex
              simp only [List.map_cons, MixedRadix.weights,
                turnWord?, turn, Option.bind_eq_bind]
              cases hPinned : wheel.pinned
              · by_cases hDigit : wheel.digit + 1 < axis.size
                · have hFurther :=
                    MixedRadix.add_mul_encode_lt
                      (MixedRadix.add_mul_lt hDigit hLow)
                      tail
                  change _ + _ * shownNumber axes wheels < _
                    at hFurther
                  rw [Nat.add_mul, Nat.one_mul] at hFurther
                  simp only [hDigit, Bool.false_eq_true,
                    if_false, if_true]
                  rw [Build.fit_eq (by omega)]
                  rfl
                · simp only [hDigit, Bool.false_eq_true,
                    if_false]
                  rw [Build.fit_eq (by omega),
                    Option.bind_some,
                    Build.minus_eq (by omega) (by omega),
                    Option.bind_some, index_reset,
                    ih tail (by omega) hBound]
                  rfl
              · simp only [if_true]
                rw [ih tail hHere hBound]
                rfl

end Wheel

end JointMax

------------------------------------------------------------
-- Cursors of Odometers
------------------------------------------------------------

namespace JointMax

namespace Odometer

/- The same position, with the exact weights at hand. -/
def cursor (odometer : Odometer) : Cursor where
  toOdometer := odometer
  strides := MixedRadix.weights 1 odometer.scope.sizes

end Odometer

namespace Cursor

/- The cursor after an accepted condition. -/
def meet?
    (build : Build)
    (cursor : Cursor) :
    Odometer.Condition → Option (Except Fault Cursor)
  | .listed vars digits =>
      cursor.condition? build vars digits
  | .chosen assignment =>
      cursor.conditionOn? build assignment
  | .followed other => cursor.follow? build other

/- A refused condition leaves the cursor as it is. -/
def after?
    (build : Build)
    (cursor : Cursor) :
    Odometer.Move → Option Cursor
  | .advance => cursor.step? build
  | .condition condition => do
      match ← cursor.meet? build condition with
      | .ok next => return next
      | .error _ => return cursor

def afterAll?
    (build : Build)
    (cursor : Cursor)
    (moves : List Odometer.Move) : Option Cursor :=
  moves.foldlM (after? build) cursor

variable {build : Build}

theorem start?_eq
    {scope : Scope}
    (hWords : scope.count < wordLimit) :
    start? build scope =
      some (Odometer.start scope).cursor := by
  have hWeights :=
    @MixedRadix.weights?_eq build scope.sizes 1
      (by simpa [Scope.sizes] using
        fun axis _ => axis.size_pos)
      (by rwa [Nat.one_mul])
  rw [start?, hWeights]
  rfl

section

variable {odometer : Odometer}

theorem step?_eq
    (hPlaced : odometer.Placed)
    (hWords : odometer.scope.count < wordLimit) :
    odometer.cursor.step? build =
      some odometer.step.cursor := by
  unfold step?
  cases hNext : odometer.finished
  · have hTurn :=
      @Wheel.turnWord?_eq build _ _ 0 1 hPlaced.within
        Nat.one_pos (by rwa [Nat.one_mul])
    rw [← hPlaced.index_eq_shown] at hTurn
    simp only [Odometer.cursor, hNext, Bool.false_eq_true,
      if_false, Option.bind_eq_bind]
    rw [Scope.sizes, hTurn, Odometer.step_eq hNext]
    rfl
  · simp only [Odometer.cursor, hNext, if_true]
    rw [Odometer.step_of_finished hNext]

theorem pin?_eq
    (hPlaced : odometer.Placed)
    (hWords : odometer.scope.count < wordLimit)
    (choice : VarId → Option Nat) :
    odometer.cursor.pin? build choice =
      some ((odometer.pin? choice).map
        Odometer.cursor) := by
  simp only [pin?, Odometer.pin?, Odometer.cursor]
  cases hWheels :
      Wheel.pin? choice odometer.scope.axes
        odometer.wheels with
  | error fault => rfl
  | ok wheels =>
      have hWithin :
          MixedRadix.Within odometer.scope.sizes
            (wheels.map Wheel.digit) :=
        (Wheel.pinned_of_pin? hPlaced.length_eq
          hWheels).within hPlaced.within
      simp only [Option.bind_eq_bind]
      rw [MixedRadix.weigh?_eq hWithin Nat.one_pos
          (by rwa [Nat.one_mul]),
        Nat.one_mul, Nat.zero_add]
      rfl

theorem meet?_eq
    (hPlaced : odometer.Placed)
    (hWords : odometer.scope.count < wordLimit)
    (condition : Odometer.Condition) :
    odometer.cursor.meet? build condition =
      some ((odometer.meet? condition).map
        Odometer.cursor) := by
  cases condition with
  | listed vars digits =>
      simp only [meet?, Odometer.meet?, condition?,
        Odometer.condition?]
      split
      · split
        · exact pin?_eq hPlaced hWords _
        · rfl
      · rfl
  | chosen assignment => exact pin?_eq hPlaced hWords _
  | followed other => exact pin?_eq hPlaced hWords _

theorem after?_eq
    (hPlaced : odometer.Placed)
    (hWords : odometer.scope.count < wordLimit)
    (move : Odometer.Move) :
    odometer.cursor.after? build move =
      some (odometer.after move).cursor := by
  cases move with
  | advance => exact step?_eq hPlaced hWords
  | condition condition =>
      simp only [after?, Odometer.after,
        Option.bind_eq_bind]
      rw [meet?_eq hPlaced hWords]
      cases odometer.meet? condition <;> rfl

theorem afterAll?_eq
    (hPlaced : odometer.Placed)
    (hWords : odometer.scope.count < wordLimit)
    (moves : List Odometer.Move) :
    odometer.cursor.afterAll? build moves =
      some (odometer.afterAll moves).cursor := by
  induction moves generalizing odometer with
  | nil => rfl
  | cons move moves ih =>
      rcases hPlaced.after move with ⟨hNext, hScope⟩
      rw [afterAll?, List.foldlM_cons,
        after?_eq hPlaced hWords]
      exact ih hNext (by rwa [hScope])

end

end Cursor

end JointMax

------------------------------------------------------------
-- Walks
------------------------------------------------------------

namespace JointMax

namespace Cursor

/-
  The loop that steps while there is a next joint value, with
  the positions at which its body runs. There is no bound on
  the number of rounds, and no step of it breaks off.
-/
inductive Walks (build : Build) :
    Cursor → List Cursor → Prop where
  | done {cursor : Cursor}
      (hDone : cursor.hasNext = false) :
      Walks build cursor []
  | next {cursor later : Cursor} {rest : List Cursor}
      (hNext : cursor.hasNext = true)
      (hStep : cursor.step? build = some later)
      (hRest : Walks build later rest) :
      Walks build cursor (cursor :: rest)

variable {build : Build} {odometer : Odometer}

theorem walks_map
    {positions : List Odometer}
    (hWalks : odometer.Walks positions)
    (hPlaced : odometer.Placed)
    (hWords : odometer.scope.count < wordLimit) :
    Walks build odometer.cursor
      (positions.map Odometer.cursor) := by
  induction hWalks with
  | done hDone => exact .done hDone
  | next hNext _ ih =>
      refine .next hNext (step?_eq hPlaced hWords) ?_
      exact ih hPlaced.step
        (by rwa [Odometer.scope_step])

theorem walk?_eq
    (hPlaced : odometer.Placed)
    (hWords : odometer.scope.count < wordLimit)
    (bound : Nat) :
    odometer.cursor.walk? build bound =
      some ((odometer.walk bound).map Odometer.cursor) := by
  induction bound generalizing odometer with
  | zero => rfl
  | succ bound ih =>
      simp only [walk?, Odometer.walk]
      cases hNext : odometer.finished
      · have hRest :=
          ih hPlaced.step (by rwa [Odometer.scope_step])
        simp only [Odometer.cursor, hNext,
          Bool.false_eq_true, if_false, Option.bind_eq_bind]
        rw [← Odometer.cursor, step?_eq hPlaced hWords,
          Option.bind_some, hRest]
        rfl
      · simp [Odometer.cursor, hNext]

end Cursor

end JointMax

------------------------------------------------------------
-- Wrapped Walks
------------------------------------------------------------

namespace JointMax

namespace Build

theorem fit_wrapping (n : Nat) :
    wrapping.fit n = some (n % wordLimit) :=
  rfl

/- What wraps around is the difference, not only its parts. -/
theorem minus_wrapping
    {n m : Nat}
    (hLe : m ≤ n) :
    wrapping.minus (n % wordLimit) (m % wordLimit) =
      some ((n - m) % wordLimit) := by
  have hRest : m % wordLimit ≤ wordLimit :=
    (Nat.mod_lt m (Nat.two_pow_pos 64)).le
  have hParts := Nat.div_add_mod m wordLimit
  have hWhole :
      n + (wordLimit - m % wordLimit) =
        n - m + wordLimit * (m / wordLimit + 1) := by
    rw [Nat.mul_add_one]
    omega
  rw [minus, Nat.add_sub_assoc hRest, Nat.mod_add_mod, hWhole,
    Nat.add_mul_mod_self_left]

end Build

namespace MixedRadix

theorem weights?_wrapping (weight : Nat) (radices : List Nat) :
    weights? Build.wrapping.fit (weight % wordLimit)
        radices =
      some ((weights weight radices).map (· % wordLimit)) := by
  induction radices generalizing weight with
  | nil => rfl
  | cons radix radices ih =>
      simp only [weights?, Build.fit, Nat.mod_mul_mod,
        Option.bind_eq_bind, Option.bind_some]
      rw [ih]
      rfl

end MixedRadix

namespace Wheel

variable {axes : List Axis} {wheels : List Wheel}

/- The outcome of a turn, with its index wrapped around. -/
def wrapped
    (next : List Wheel × Nat × Bool) :
    List Wheel × Nat × Bool :=
  (next.1, next.2.1 % wordLimit, next.2.2)

/-
  A turn with wrapped weights wraps the index and does nothing
  else to the turn.
-/
theorem turnWord?_wrapping
    (hWithin :
      MixedRadix.Within (axes.map Axis.size)
        (wheels.map Wheel.digit))
    (low stride : Nat) :
    turnWord? .wrapping axes
        ((MixedRadix.weights stride
          (axes.map Axis.size)).map (· % wordLimit))
        wheels
        ((low + stride * shownNumber axes wheels) %
          wordLimit) =
      some (wrapped (turn axes wheels stride
        (low + stride * shownNumber axes wheels))) := by
  induction axes generalizing wheels low stride with
  | nil =>
      cases wheels with
      | nil => rfl
      | cons wheel wheels => cases hWithin
  | cons axis axes ih =>
      cases wheels with
      | nil => cases hWithin
      | cons wheel wheels =>
          cases hWithin with
          | cons head tail =>
              rw [index_cons]
              simp only [List.map_cons, MixedRadix.weights,
                turnWord?, turn, Option.bind_eq_bind]
              cases hPinned : wheel.pinned
              · by_cases hDigit : wheel.digit + 1 < axis.size
                · simp only [hDigit, Bool.false_eq_true,
                    if_false, if_true]
                  rw [Build.fit_wrapping, ← Nat.add_mod]
                  rfl
                · have hEnough :
                      wheel.digit * stride ≤
                        low + wheel.digit * stride +
                          stride * axis.size *
                            shownNumber axes wheels := by
                    omega
                  simp only [hDigit, Bool.false_eq_true,
                    if_false]
                  rw [Build.fit_wrapping, Nat.mul_mod_mod,
                    Option.bind_some,
                    Build.minus_wrapping hEnough,
                    Option.bind_some, index_reset, ih tail]
                  rfl
              · simp only [if_true]
                rw [ih tail]
                rfl

end Wheel

namespace Odometer

/- The same position, with weights and index wrapped around. -/
def wrapped (odometer : Odometer) : Cursor where
  toOdometer :=
    { odometer with index := odometer.index % wordLimit }
  strides :=
    (MixedRadix.weights 1 odometer.scope.sizes).map
      (· % wordLimit)

end Odometer

namespace Cursor

theorem start?_wrapping (scope : Scope) :
    start? .wrapping scope =
      some (Odometer.start scope).wrapped := by
  have hOne : 1 % wordLimit = 1 :=
    Nat.mod_eq_of_lt (Nat.one_lt_two_pow (by omega))
  have hWeights :=
    MixedRadix.weights?_wrapping 1 scope.sizes
  rw [hOne] at hWeights
  rw [start?, hWeights]
  rfl

variable {odometer : Odometer}

/- Wrapped steps lose nothing but the multiples of the limit. -/
theorem step?_wrapping (hPlaced : odometer.Placed) :
    odometer.wrapped.step? .wrapping =
      some odometer.step.wrapped := by
  unfold step?
  cases hNext : odometer.finished
  · have hTurn :=
      Wheel.turnWord?_wrapping hPlaced.within 0 1
    rw [← hPlaced.index_eq_shown] at hTurn
    simp only [Odometer.wrapped, hNext, Bool.false_eq_true,
      if_false, Option.bind_eq_bind]
    rw [Scope.sizes, hTurn, Odometer.step_eq hNext]
    rfl
  · simp only [Odometer.wrapped, hNext, if_true]
    rw [Odometer.step_of_finished hNext]
    simp [hNext]

theorem walks_wrapped
    {positions : List Odometer}
    (hWalks : odometer.Walks positions)
    (hPlaced : odometer.Placed) :
    Walks .wrapping odometer.wrapped
      (positions.map Odometer.wrapped) := by
  induction hWalks with
  | done hDone => exact .done hDone
  | next hNext _ ih =>
      exact .next hNext (step?_wrapping hPlaced)
        (ih hPlaced.step)

/- Every number below the count is passed, wrapped around. -/
theorem exists_walk_wrapped (scope : Scope) :
    ∃ first positions,
      start? .wrapping scope = some first ∧
        Walks .wrapping first positions ∧
        positions.map (fun position => position.index) =
          (List.range scope.count).map (· % wordLimit) := by
  rcases Odometer.exists_route_start scope with
    ⟨positions, hRoute, hHere⟩
  have hNumbers :
      positions.map Odometer.index =
        List.range scope.count := by
    rw [← Odometer.count_freeScope_start scope,
      List.range_eq_range', ← Nat.sub_zero
        (Odometer.start scope).freeScope.count,
      ← Odometer.freeNumber_start scope, ← hRoute.numbers]
    apply List.map_congr_left
    intro position hPosition
    exact (hHere position hPosition).2.2.2.symm
  refine ⟨_, positions.map Odometer.wrapped,
    start?_wrapping scope,
    walks_wrapped hRoute.walks (Odometer.placed_start scope),
    ?_⟩
  rw [← hNumbers, List.map_map, List.map_map]
  rfl

end Cursor

end JointMax

------------------------------------------------------------
-- Traversal
------------------------------------------------------------

namespace JointMax

namespace Cursor

/-
  Reading a cursor somewhere on its way. Its index is the
  number of its digits and below the number of joint values.
  A step takes no more from the index than there is, and
  leaves the pinned variables alone. The end is stable, and
  conditions pin what they ask for or change nothing. A walk
  from the start or from an accepted condition ends after as
  many positions as the free variables have joint values, in
  increasing order, and it passes exactly the joint values
  that keep the pinned variables.
-/
structure Traversed
    (build : Build)
    (scope : Scope)
    (here : Cursor) : Prop where
  scope_eq : here.scope = scope
  index_eq :
    scope.encodeWord? build here.digits =
      some (.ok here.index)
  below :
    ∃ total,
      scope.countWord? build = some total ∧
        here.index < total
  stepped :
    ∃ next,
      here.step? build = some next ∧
        here.step? .checked = some next ∧
        ∀ var, next.heldAt var = here.heldAt var
  ended :
    here.hasNext = false →
      ∀ rounds,
        here.afterAll? build
            (List.replicate rounds .advance) =
          some here
  conditioned : ∀ condition,
    ∃ answer,
      here.meet? build condition = some answer ∧
        match answer with
        | .ok next =>
            ∀ var ∈ scope.vars,
              next.heldAt var =
                (condition.choice var).or (here.heldAt var)
        | .error _ =>
            here.after? build (.condition condition) =
              some here
  walked : ∀ next,
    (start? build scope = some next ∨
        ∃ condition,
          here.meet? build condition = some (.ok next)) →
      ∃ positions,
        Walks build next positions ∧
          next.trail? build = some positions ∧
          positions.length = next.freeScope.count ∧
          (positions.map fun position =>
            position.index).Pairwise (· < ·) ∧
          ∀ shown,
            shown ∈ positions.map (fun position =>
                position.digits) ↔
              MixedRadix.Within scope.sizes shown ∧
                ∀ var digit,
                  next.heldAt var = some digit →
                    aligned scope.vars shown var =
                      some digit

/- What is read after any moves, none of which breaks off. -/
def Traverses
    (build : Build)
    (scope : Scope)
    (moves : List Odometer.Move) : Prop :=
  ∃ first here,
    start? build scope = some first ∧
      first.afterAll? build moves = some here ∧
      Traversed build scope here

variable {build : Build} {scope : Scope}

/- A restart of a cursor is one of the odometer below it. -/
theorem exists_restarted
    {odometer : Odometer}
    {next : Cursor}
    (hPlaced : odometer.Placed)
    (hWords : odometer.scope.count < wordLimit)
    (hNext :
      start? build odometer.scope = some next ∨
        ∃ condition,
          odometer.cursor.meet? build condition =
            some (.ok next)) :
    ∃ plain : Odometer,
      next = plain.cursor ∧
        (plain = Odometer.start odometer.scope ∨
          ∃ condition,
            odometer.meet? condition = .ok plain) := by
  rcases hNext with hFirst | ⟨condition, hMeet⟩
  · rw [start?_eq hWords, Option.some.injEq] at hFirst
    exact ⟨_, hFirst.symm, .inl rfl⟩
  · rw [meet?_eq hPlaced hWords, Option.some.injEq] at hMeet
    rcases exists_of_map_eq_ok hMeet with
      ⟨plain, hPlain, hCursor⟩
    exact ⟨plain, hCursor.symm, .inr ⟨condition, hPlain⟩⟩

/- The end is stable, however often it is stepped on. -/
theorem afterAll?_advance
    {cursor : Cursor}
    (hDone : cursor.finished = true)
    (rounds : Nat) :
    cursor.afterAll? build
        (List.replicate rounds .advance) =
      some cursor := by
  induction rounds with
  | zero => rfl
  | succ rounds ih =>
      have hStep : cursor.step? build = some cursor := by
        rw [step?, if_pos hDone]
      rw [List.replicate_succ, afterAll?, List.foldlM_cons,
        after?, hStep]
      exact ih

/- A position in the last variable, the others pinned. -/
def vastAt (digit : Nat) : Cursor where
  scope := .vast
  wheels := List.replicate 4 ⟨0, true⟩ ++ [⟨digit, false⟩]
  index := 0
  finished := false
  strides := [1, Nat.pow 2 16, Nat.pow 2 32, Nat.pow 2 48, 0]

end Cursor

end JointMax
