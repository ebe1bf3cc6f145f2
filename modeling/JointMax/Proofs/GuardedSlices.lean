import Mathlib
import JointMax.Proofs.GuardedTables
import JointMax.Table.Marginal

/-
  Slices, marginals and writes with everything checked that
  they take for granted. A slice puts each value into the
  cell of its free digits, and a marginal folds each value
  into the cell of the digits that it keeps.

  Main declarations:
    * `Guarded.condition` and `Guarded.condition_eq`
    * `Guarded.marginal` and `Guarded.marginal_eq`
    * `Guarded.meanMarginal_eq`
    * `Guarded.write` and `Guarded.write_eq`
-/

------------------------------------------------------------
-- Places of Free Digits
------------------------------------------------------------

namespace JointMax

namespace Wheel

theorem mem_of_mem_loose
    {β : Type}
    {wheels : List Wheel}
    {items : List β}
    {item : β}
    (hItem : item ∈ loose wheels items) :
    item ∈ items := by
  induction wheels generalizing items with
  | nil => cases hItem
  | cons wheel wheels ih =>
      cases items with
      | nil => cases hItem
      | cons head items =>
          simp only [loose] at hItem
          split at hItem
          · exact List.mem_cons_of_mem _ (ih hItem)
          · rcases List.mem_cons.mp hItem with rfl | hItem
            · exact List.mem_cons_self ..
            · exact List.mem_cons_of_mem _ (ih hItem)

/- The walk passes over a variable that it does not look for. -/
theorem locate_skip
    {axes : List Axis}
    {var : VarId}
    {vars : List VarId}
    {digit : Nat}
    {digits : List Nat}
    (hVar : ∀ axis ∈ axes, axis.var ≠ var) :
    Axis.locate axes (var :: vars) (digit :: digits) =
      Axis.locate axes vars digits := by
  cases axes with
  | nil => cases vars <;> rfl
  | cons axis axes =>
      simp only [Axis.locate, hVar axis (by simp), if_false]

/- The free variables are located at their free digits. -/
theorem locate_loose
    {axes : List Axis}
    {wheels : List Wheel}
    {digits : List Nat}
    (hNodup : (axes.map Axis.var).Nodup)
    (hWheels : wheels.length = axes.length)
    (hDigits : digits.length = axes.length) :
    Axis.locate (loose wheels axes) (axes.map Axis.var)
        digits =
      MixedRadix.encode (loose wheels (axes.map Axis.size))
        (loose wheels digits) := by
  induction axes generalizing wheels digits with
  | nil =>
      rw [List.eq_nil_of_length_eq_zero hWheels]
      rfl
  | cons axis axes ih =>
      rcases List.exists_cons_of_length_eq_add_one hWheels
        with ⟨wheel, wheels, rfl⟩
      rcases List.exists_cons_of_length_eq_add_one hDigits
        with ⟨digit, digits, rfl⟩
      rcases List.nodup_cons.mp hNodup with ⟨hFresh, hRest⟩
      have hTail :=
        @ih wheels digits hRest (by simpa using hWheels)
          (by simpa using hDigits)
      cases hPinned : wheel.pinned
      · simp only [loose, hPinned, Bool.false_eq_true,
          if_false, List.map_cons, Axis.locate, if_true,
          MixedRadix.encode, hTail]
      · have hSkip : ∀ other ∈ loose wheels axes,
            other.var ≠ axis.var := by
          intro other hOther hSame
          apply hFresh
          rw [← hSame]
          exact List.mem_map_of_mem (mem_of_mem_loose hOther)
        simp only [loose, hPinned, if_true, List.map_cons,
          locate_skip hSkip, hTail]

end Wheel

namespace Odometer

variable {odometer position : Odometer}
variable {positions : List Odometer}

/- Free variables are the same all along a walk. -/
theorem Route.axes_freeScope
    (hRoute : Route odometer positions)
    (hPlaced : odometer.Placed)
    (hPosition : position ∈ positions) :
    odometer.freeScope.axes =
      Wheel.loose position.wheels position.scope.axes := by
  rw [Odometer.axes_freeScope hPlaced.length_eq,
    hRoute.scope_eq position hPosition]
  exact (Wheel.loose_congr
    (hRoute.pins_eq position hPosition) _).symm

theorem includes_freeScope (odometer : Odometer) :
    odometer.scope.includes odometer.freeScope = true :=
  Scope.includes_iff.mpr fun _ hAxis =>
    (List.mem_filter.mp hAxis).1

theorem count_freeScope_lt
    (hWords : odometer.scope.count < wordLimit) :
    odometer.freeScope.count < wordLimit :=
  (Scope.count_le_of_includes
    odometer.includes_freeScope).trans_lt hWords

/- A position is located at its own free number. -/
theorem Route.locate?_freeScope
    (hRoute : Route odometer positions)
    (hPlaced : odometer.Placed)
    (hPosition : position ∈ positions)
    (hWords : odometer.freeScope.count < wordLimit) :
    odometer.freeScope.locate? position.vars
          position.digits =
        some position.freeNumber ∧
      position.freeNumber < odometer.freeScope.count := by
  have hThere := hRoute.placed position hPosition
  have hSame := hRoute.scope_eq position hPosition
  have hNumber :
      odometer.freeScope.locate position.scope.vars
          position.digits =
        position.freeNumber := by
    unfold Scope.locate freeNumber
    rw [hRoute.axes_freeScope hPlaced hPosition]
    exact Wheel.locate_loose position.scope.nodup_vars
      hThere.length_eq
      (by simpa [digits] using hThere.length_eq)
  have hFree :
      position.scope.includes odometer.freeScope = true := by
    rw [hSame]
    exact odometer.includes_freeScope
  rw [← hNumber, hThere.digits_eq]
  exact Scope.locate?_decode hFree hWords hThere.index_lt

/- The free number tells all digits of a position. -/
theorem Route.weave_freeNumber
    (hRoute : Route odometer positions)
    (hPlaced : odometer.Placed)
    (hPosition : position ∈ positions) :
    Wheel.weave odometer.wheels
        (odometer.freeScope.decode position.freeNumber) =
      position.digits := by
  have hThere := hRoute.placed position hPosition
  have hPins := hRoute.pins_eq position hPosition
  have hLoose :
      odometer.freeScope.decode position.freeNumber =
        Wheel.loose position.wheels position.digits := by
    unfold Scope.decode Scope.sizes
    rw [hRoute.axes_freeScope hPlaced hPosition,
      ← Wheel.loose_map]
    exact MixedRadix.decode_encode
      (Wheel.within_loose hThere.within)
  rw [hLoose, ← Wheel.weave_congr hPins]
  exact Wheel.weave_loose
    (Wheel.shown_digits position.wheels)

end Odometer

end JointMax

------------------------------------------------------------
-- Slices
------------------------------------------------------------

namespace JointMax

namespace Guarded

variable {α : Type} [Scalar α]

/- Put a value of the table into the cell of its free digits. -/
def copyCell
    (table : Table α)
    (free : Scope)
    (position : Odometer)
    (values : Array α) : Option (Array α) := do
  let place ←
    free.locate? position.vars position.digits
  let value ← table.values[position.index]?
  amend? values place fun _ => value

def slice (table : Table α) (odometer : Odometer) :
    Option (Table α) :=
  if odometer.pinnedCount = 0 then
    some table
  else if odometer.wheels.length = odometer.scope.length then
    do
      let free ←
        filter table.scope fun var => !odometer.isPinned var
      let count ← free.product?
      let values ←
        odometer.loop? (copyCell table free)
          (Array.replicate count Scalar.zero)
      pack free values
  else
    none

/-
  Pin the wheels of a fresh odometer, add up the index anew
  and take the slice.
-/
def condition
    (table : Table α)
    (condition : Odometer.Condition) :
    Option (Except Fault (Table α)) := do
  let fresh ← Odometer.start? table.scope
  match fresh.meet? condition with
  | .error fault => return .error fault
  | .ok next => do
      let index ← next.scope.sum? next.digits
      (slice table { next with index := index }).map .ok

variable {table : Table α} {odometer position : Odometer}

/- A position of a walk is copied to its own free number. -/
theorem copyCell_eq
    {positions : List Odometer}
    {values : Array α}
    (hPlaced : odometer.Placed)
    (hScope : odometer.scope = table.scope)
    (hWords : table.scope.count < wordLimit)
    (hRoute : odometer.Route positions)
    (hPosition : position ∈ positions)
    (hSize : values.size = odometer.freeScope.count) :
    copyCell table odometer.freeScope position values =
      some (values.modify position.freeNumber fun _ =>
        table.cell
          (MixedRadix.encode odometer.scope.sizes
            (Wheel.weave odometer.wheels
              (odometer.freeScope.decode
                position.freeNumber)))) := by
  have hThere := hRoute.placed position hPosition
  have hSame := hRoute.scope_eq position hPosition
  have hPart : odometer.freeScope.count < wordLimit :=
    Odometer.count_freeScope_lt (by rwa [hScope])
  rcases hRoute.locate?_freeScope hPlaced hPosition hPart
    with ⟨hLocate, hInside⟩
  have hIndex : position.index < table.scope.count := by
    rw [← hScope, ← hSame]
    exact hThere.index_lt
  rw [hRoute.weave_freeNumber hPlaced hPosition, ← hSame,
    ← hThere.index_eq]
  simp only [copyCell, hLocate, getElem?_values hIndex,
    Option.bind_eq_bind, Option.bind_some]
  exact amend?_eq (hSize ▸ hInside) _

/- From the first free number on, the loop makes the slice. -/
theorem slice_eq
    (hPlaced : odometer.Placed)
    (hRunning : odometer.finished = false)
    (hFirst : odometer.freeNumber = 0)
    (hScope : odometer.scope = table.scope)
    (hWords : table.scope.count < wordLimit) :
    slice table odometer = some (table.slice odometer) := by
  unfold slice Table.slice
  split
  · rfl
  · rcases hPlaced.exists_route hRunning with
      ⟨positions, hRoute⟩
    have hPart : odometer.freeScope.count < wordLimit :=
      Odometer.count_freeScope_lt (by rwa [hScope])
    let change : Nat → α → α := fun number _ =>
      table.cell
        (MixedRadix.encode odometer.scope.sizes
          (Wheel.weave odometer.wheels
            (odometer.freeScope.decode number)))
    have hLoop :=
      @Odometer.Route.loop? odometer positions
        (Array α) (Array α)
        (fun values ideal =>
          values = ideal ∧
            values.size = odometer.freeScope.count)
        (copyCell table odometer.freeScope)
        (fun values number =>
          values.modify number (change number))
        hRoute hFirst (by rwa [hScope])
        (by
          rintro position hPosition values _ ⟨rfl, hSize⟩
          refine ⟨_, copyCell_eq hPlaced hScope hWords hRoute
            hPosition hSize, rfl, ?_⟩
          rw [Array.size_modify, hSize])
        (Array.replicate odometer.freeScope.count
          Scalar.zero) _
        ⟨rfl, Array.size_replicate⟩
    rcases hLoop with ⟨values, hValues, hFinal, _⟩
    rw [foldl_modify_range change Array.size_replicate]
      at hFinal
    have hLength :
        odometer.wheels.length = odometer.scope.length :=
      hPlaced.length_eq
    have hFilter :
        filter table.scope
            (fun var => !odometer.isPinned var) =
          some odometer.freeScope := by
      rw [filter_eq, ← hScope]
      rfl
    rw [if_pos hLength, hFilter]
    simp only [Option.bind_eq_bind, Option.bind_some,
      Scope.product?_eq hPart, hValues]
    apply @pack_of_eq _ (Table.tabulate odometer.freeScope _)
    rw [hFinal]
    apply Array.ext
    · simp [Table.tabulate]
    · intro index hLeft hRight
      simp [Table.tabulate, change]

/- A condition is met, refused, or pins nothing, as before. -/
theorem condition_eq
    (hWords : table.scope.count < wordLimit)
    (request : Odometer.Condition) :
    condition table request =
      some (((Odometer.start table.scope).meet? request).map
        table.slice) := by
  have hPlaced := Odometer.placed_start table.scope
  rw [condition, Odometer.start?, Scope.product?_eq hWords]
  simp only [Option.pure_def, Option.bind_eq_bind,
    Option.bind_some]
  cases hMeet :
      (Odometer.start table.scope).meet? request with
  | error fault => rfl
  | ok next =>
      rcases hPlaced.restarted (.inr ⟨request, hMeet⟩) with
        ⟨hNext, hScope, hRunning, hFirst⟩
      have hSum :
          next.scope.sum? next.digits = some next.index := by
        rw [hNext.index_eq]
        exact Scope.sum?_eq (by rwa [hScope]) hNext.within
      simp only [hSum, Option.bind_some]
      change (slice table next).map Except.ok = _
      rw [slice_eq hNext hRunning hFirst hScope hWords]
      rfl

end Guarded

end JointMax

------------------------------------------------------------
-- Marginals
------------------------------------------------------------

namespace JointMax

/- Only the value that is there matters for a change. -/
theorem modify_congr
    {β : Type}
    {cells : Array β}
    {index : Nat}
    {value : β}
    (first second : β → β)
    (hValue : cells[index]? = some value)
    (hSame : first value = second value) :
    cells.modify index first = cells.modify index second := by
  apply Array.ext_getElem?
  intro other
  rw [Array.getElem?_modify, Array.getElem?_modify]
  by_cases hOther : index = other
  · subst hOther
    simp [hValue, hSame]
  · simp [hOther]

theorem modify_eq_self
    {β : Type}
    {cells : Array β}
    {index : Nat}
    {value : β}
    {change : β → β}
    (hValue : cells[index]? = some value)
    (hSame : change value = value) :
    cells.modify index change = cells := by
  apply Array.ext_getElem?
  intro other
  rw [Array.getElem?_modify]
  by_cases hOther : index = other
  · subst hOther
    simp [hValue, hSame]
  · simp [hOther]

theorem map_modify
    {β γ : Type}
    {cells : Array β}
    {index : Nat}
    {value : β}
    {change : β → β}
    (view : β → γ)
    (hValue : cells[index]? = some value) :
    (cells.modify index change).map view =
      (cells.map view).modify index
        fun _ => view (change value) := by
  apply Array.ext_getElem?
  intro other
  rw [Array.getElem?_map, Array.getElem?_modify,
    Array.getElem?_modify, Array.getElem?_map]
  by_cases hOther : index = other
  · subst hOther
    simp [hValue]
  · simp [hOther]

namespace Guarded

variable {α : Type} [Scalar α]

/- Absorbed values, and old ones where none was absorbed. -/
def settle (old : Array α) (cells : Array (Option α)) :
    Array α :=
  old.mapIdx fun index value =>
    (cells.getD index none).getD value

omit [Scalar α] in
theorem getElem?_settle
    {old : Array α}
    {cells : Array (Option α)}
    {index : Nat} :
    (settle old cells)[index]? =
      old[index]?.map fun value =>
        (cells.getD index none).getD value := by
  rw [settle, Array.getElem?_mapIdx]

omit [Scalar α] in
theorem settle_modify
    {old : Array α}
    {cells : Array (Option α)}
    {place : Nat}
    {cell : Option α}
    {change : Option α → Option α}
    {value : α}
    (hCell : cells[place]? = some cell)
    (hValue : change cell = some value) :
    settle old (cells.modify place change) =
      (settle old cells).modify place fun _ => value := by
  apply Array.ext_getElem?
  intro index
  rw [Array.getElem?_modify, getElem?_settle,
    getElem?_settle, Array.getD_eq_getD_getElem?,
    Array.getD_eq_getD_getElem?, Array.getElem?_modify]
  by_cases hIndex : place = index
  · subst hIndex
    simp [hCell, hValue, Function.comp_def]
  · simp [hIndex]

/-
  Fold the value of the input at a position into the cell of
  the digits that the output keeps, or seed the cell with it.
-/
def absorbCell
    (aggregate : α → α → α)
    (input : Table α)
    (output : Scope)
    (position : Odometer)
    (state : Array Bool × Array α) :
    Option (Array Bool × Array α) := do
  let next ← input.values[position.index]?
  let place ← output.locate? position.vars position.digits
  let seen ← state.1[place]?
  if seen then do
    let values ←
      amend? state.2 place fun old => aggregate old next
    return (state.1, values)
  else do
    let seeded ← amend? state.1 place fun _ => true
    let values ← amend? state.2 place fun _ => next
    return (seeded, values)

def marginal
    (aggregate : α → α → α)
    (input output : Table α) :
    Option (Except Fault (Table α)) :=
  if input.scope.includes output.scope then
    if input.scope = output.scope then
      if input.values.size = output.values.size then
        (pack output.scope input.values).map .ok
      else
        none
    else do
      let state ←
        Odometer.loopOver? input.scope
          (absorbCell aggregate input output.scope)
          (Array.replicate output.values.size false,
            output.values)
      (pack output.scope state.2).map .ok
  else
    some (.error
      (.badScope (.notSubset output.vars input.vars)))

/- A quotient, breaking off at the divisor zero. -/
def divide? (n divisor : Nat) : Option Nat :=
  if divisor = 0 then none else some (n / divisor)

def meanMarginal (input output : Table α) :
    Option (Except Fault (Table α)) := do
  match ← marginal (· + ·) input output with
  | .error fault => return .error fault
  | .ok total => do
      let share ←
        divide? input.values.size output.values.size
      return .ok (total.withScalar .div (Scalar.ofNat share))

/- The seeds and values that belong to some absorbed cells. -/
structure Absorbed
    (old : Array α)
    (state : Array Bool × Array α)
    (cells : Array (Option α)) : Prop where
  size_eq : cells.size = old.size
  seeded_eq : state.1 = cells.map Option.isSome
  values_eq : state.2 = settle old cells

omit [Scalar α] in
theorem Absorbed.start (old : Array α) :
    Absorbed old (Array.replicate old.size false, old)
      (Array.replicate old.size none) := by
  constructor
  · exact Array.size_replicate
  · simp
  · apply Array.ext_getElem?
    intro index
    rw [getElem?_settle]
    by_cases hIndex : index < old.size
    · simp [hIndex]
    · simp [hIndex]

section

variable {old values : Array α} {seeded : Array Bool}
variable {cells : Array (Option α)} {place : Nat}
variable {aggregate : α → α → α} {value : α}

omit [Scalar α] in
theorem Absorbed.seeded_at
    (hAbsorbed : Absorbed old (seeded, values) cells)
    {cell : Option α}
    (hCell : cells[place]? = some cell) :
    seeded[place]? = some cell.isSome := by
  have hSeeds : seeded = cells.map Option.isSome :=
    hAbsorbed.seeded_eq
  rw [hSeeds, Array.getElem?_map, hCell]
  rfl

/- The first value that a cell absorbs seeds it. -/
omit [Scalar α] in
theorem Absorbed.seed
    (hAbsorbed : Absorbed old (seeded, values) cells)
    (hCell : cells[place]? = some none) :
    Absorbed old
      (seeded.modify place fun _ => true,
        values.modify place fun _ => value)
      (cells.modify place
        (Table.absorb aggregate value)) := by
  rcases hAbsorbed with ⟨hSize, rfl, rfl⟩
  constructor
  · rw [Array.size_modify, hSize]
  · rw [map_modify Option.isSome hCell]
    rfl
  · exact (settle_modify hCell rfl).symm

/- Later values are folded into what there is. -/
omit [Scalar α] in
theorem Absorbed.fold
    (hAbsorbed : Absorbed old (seeded, values) cells)
    {previous : α}
    (hCell : cells[place]? = some (some previous)) :
    Absorbed old
      (seeded,
        values.modify place (aggregate · value))
      (cells.modify place
        (Table.absorb aggregate value)) := by
  have hSeeded := hAbsorbed.seeded_at hCell
  rcases hAbsorbed with ⟨hSize, rfl, rfl⟩
  have hInside : place < old.size := by
    rw [← hSize]
    exact (Array.getElem?_eq_some_iff.mp hCell).1
  have hOld :
      (settle old cells)[place]? = some previous := by
    rw [getElem?_settle, Array.getD_eq_getD_getElem?, hCell]
    simp [hInside]
  constructor
  · rw [Array.size_modify, hSize]
  · rw [map_modify Option.isSome hCell]
    exact (modify_eq_self hSeeded rfl).symm
  · rw [settle_modify hCell rfl]
    exact modify_congr (aggregate · value)
      (fun _ => aggregate previous value) hOld rfl

end

omit [Scalar α] in
theorem Absorbed.next
    {aggregate : α → α → α}
    {old : Array α}
    {input : Table α}
    {output : Scope}
    {position : Odometer}
    {state : Array Bool × Array α}
    {cells : Array (Option α)}
    {place : Nat}
    {value : α}
    (hAbsorbed : Absorbed old state cells)
    (hValue :
      input.values[position.index]? = some value)
    (hPlace :
      output.locate? position.vars position.digits =
        some place)
    (hInside : place < old.size) :
    ∃ next,
      absorbCell aggregate input output position state =
          some next ∧
        Absorbed old next
          (cells.modify place
            (Table.absorb aggregate value)) := by
  rcases state with ⟨seeded, values⟩
  have hCells : place < cells.size :=
    hAbsorbed.size_eq ▸ hInside
  have hSettled : values = settle old cells :=
    hAbsorbed.values_eq
  have hValues : place < values.size := by
    rw [hSettled]
    simpa [settle] using hInside
  have hCell : cells[place]? = some cells[place] :=
    Array.getElem?_eq_getElem hCells
  have hSeen := hAbsorbed.seeded_at hCell
  have hSeeds : place < seeded.size :=
    (Array.getElem?_eq_some_iff.mp hSeen).1
  cases hFound : cells[place] with
  | none =>
      rw [hFound] at hCell hSeen
      refine ⟨_, ?_, hAbsorbed.seed hCell⟩
      simp [absorbCell, hValue, hPlace, hSeen,
        amend?_eq hSeeds, amend?_eq hValues]
  | some previous =>
      rw [hFound] at hCell hSeen
      refine ⟨_, ?_, hAbsorbed.fold hCell⟩
      simp [absorbCell, hValue, hPlace, hSeen,
        amend?_eq hValues]

variable {input output : Table α}

/- The loop folds as one pass over the values does. -/
theorem marginal_eq
    (aggregate : α → α → α)
    (hWords : input.scope.count < wordLimit) :
    marginal aggregate input output =
      some (Table.marginal? aggregate input output) := by
  unfold marginal Table.marginal?
  by_cases hIncludes :
      input.scope.includes output.scope = true
  · rw [if_pos hIncludes, if_pos hIncludes]
    by_cases hScope : input.scope = output.scope
    · have hSize :
          input.values.size = output.values.size := by
        rw [input.size_eq, output.size_eq, hScope]
      rw [if_pos hScope, if_pos hScope, if_pos hSize,
        ← hScope, pack_eq]
      rfl
    · rw [if_neg hScope, if_neg hScope]
      have hPart :=
        (Scope.count_le_of_includes hIncludes).trans_lt hWords
      have hLoop :=
        @Odometer.exists_loopOver? (Array Bool × Array α)
          (Array (Option α)) (Absorbed output.values)
          (absorbCell aggregate input output.scope)
          (fun cells index =>
            cells.modify
              (output.scope.locate input.vars
                (input.scope.decode index))
              (Table.absorb aggregate (input.cell index)))
          input.scope hWords
          (by
            intro position hPosition hIndex hDigits state
              cells hAbsorbed
            rcases Scope.locate?_decode hIncludes hPart
                hIndex with
              ⟨hLocate, hInside⟩
            rw [← output.size_eq] at hInside
            apply hAbsorbed.next (getElem?_values hIndex)
              _ hInside
            rw [Odometer.vars, hPosition, hDigits]
            exact hLocate)
          _ _ (Absorbed.start output.values)
      rcases hLoop with ⟨state, hState, hAbsorbed⟩
      rw [hState]
      simp only [Option.bind_eq_bind, Option.bind_some]
      rw [hAbsorbed.values_eq, output.size_eq]
      exact congrArg (Option.map Except.ok)
        (@pack_eq _ ⟨output.scope, _, _⟩)
  · rw [if_neg hIncludes, if_neg hIncludes]

theorem meanMarginal_eq
    (hWords : input.scope.count < wordLimit) :
    meanMarginal input output =
      some (Table.meanMarginal? input output) := by
  have hSize : output.values.size ≠ 0 := by
    rw [output.size_eq]
    exact Nat.ne_of_gt output.scope.count_pos
  rw [meanMarginal, marginal_eq (· + ·) hWords,
    Table.meanMarginal?]
  cases Table.marginal? (· + ·) input output with
  | error fault => rfl
  | ok total =>
      simp only [Option.bind_eq_bind, Option.bind_some,
        divide?, if_neg hSize]
      rfl

end Guarded

end JointMax

------------------------------------------------------------
-- Writes
------------------------------------------------------------

namespace JointMax

namespace Guarded

variable {α : Type} [Scalar α]

/-
  Write a cell whose index has been accepted, adding it up
  anew in words.
-/
def write
    (table : Table α)
    (found : Except Fault Nat)
    (walk : Option Nat)
    (value : α) : Option (Except Fault (Table α)) :=
  match found with
  | .error fault => some (.error fault)
  | .ok _ => do
      let index ← walk
      let values ← amend? table.values index fun _ => value
      (pack table.scope values).map .ok

def setAt
    (table : Table α)
    (digits : List Nat)
    (value : α) : Option (Except Fault (Table α)) :=
  write table (table.scope.encode? digits)
    (table.scope.sum? digits) value

def setAtVars
    (table : Table α)
    (vars : List VarId)
    (digits : List Nat)
    (value : α) : Option (Except Fault (Table α)) :=
  write table (table.scope.select? vars digits)
    (table.scope.locate? vars digits) value

def setAtAssignment
    (table : Table α)
    (assignment : Assignment)
    (value : α) : Option (Except Fault (Table α)) :=
  write table (table.scope.indexOf? assignment)
    (table.scope.sum? (table.vars.map assignment.digit))
    value

variable {table : Table α}

omit [Scalar α] in
theorem modify_eq_put
    {index : Nat}
    (hIndex : index < table.values.size)
    (value : α) :
    table.values.modify index (fun _ => value) =
      (table.put index value).values := by
  apply Array.ext_getElem?
  intro other
  rw [Table.put, Array.getElem?_modify,
    Array.getElem?_setIfInBounds]
  by_cases hOther : index = other
  · subst hOther
    simp [hIndex]
  · simp [hOther]

omit [Scalar α] in
theorem write_eq
    {found : Except Fault Nat}
    {walk : Option Nat}
    (hWalk : ∀ index, found = .ok index →
      walk = some index ∧ index < table.scope.count)
    (value : α) :
    write table found walk value =
      some (found.map (table.put · value)) := by
  cases found with
  | error fault => rfl
  | ok index =>
      rcases hWalk index rfl with ⟨hIndex, hInside⟩
      have hCell : index < table.values.size := by
        rwa [table.size_eq]
      simp only [write, hIndex, amend?_eq hCell,
        Option.bind_eq_bind, Option.bind_some]
      exact congrArg (Option.map Except.ok)
        (@pack_of_eq _ (table.put index value) _
          (modify_eq_put hCell value))

omit [Scalar α] in
theorem setAt_eq
    (hWords : table.scope.count < wordLimit)
    (digits : List Nat)
    (value : α) :
    setAt table digits value =
      some (table.setAt? digits value) := by
  apply write_eq
  intro index hFound
  rcases Scope.within_of_encode? hFound with
    ⟨hWithin, rfl⟩
  exact ⟨Scope.sum?_eq hWords hWithin,
    MixedRadix.encode_lt hWithin⟩

omit [Scalar α] in
theorem setAtVars_eq
    (hWords : table.scope.count < wordLimit)
    (vars : List VarId)
    (digits : List Nat)
    (value : α) :
    setAtVars table vars digits value =
      some (table.setAtVars? vars digits value) :=
  write_eq
    (fun _ hFound => Scope.locate?_of_select? hWords hFound)
    value

omit [Scalar α] in
theorem setAtAssignment_eq
    (hWords : table.scope.count < wordLimit)
    (assignment : Assignment)
    (value : α) :
    setAtAssignment table assignment value =
      some (table.setAtAssignment? assignment value) := by
  apply write_eq
  intro index hFound
  rcases Scope.within_of_indexOf? hFound with
    ⟨hWithin, rfl⟩
  exact ⟨Scope.sum?_eq hWords hWithin,
    MixedRadix.encode_lt hWithin⟩

end Guarded

end JointMax
