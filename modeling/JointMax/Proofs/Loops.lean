import Mathlib
import JointMax.Proofs.Slices
import JointMax.Proofs.Words

/-
  Loops over the positions of an odometer that read and write
  cells. A loop whose body never breaks off does not break
  off, and it does in turn what the body does for each number
  of the free variables.

  Main declarations:
    * `Odometer.loop?`
    * `Odometer.Route.loop?` and `Odometer.exists_loopOver?`
    * `Odometer.loopOver?_amend`
    * `amend?` and `foldl_modify_range`
-/

------------------------------------------------------------
-- Cells
------------------------------------------------------------

namespace JointMax

/- Change a cell, breaking off where there is none. -/
def amend?
    {β : Type}
    (cells : Array β)
    (index : Nat)
    (change : β → β) : Option (Array β) :=
  if index < cells.size then
    some (cells.modify index change)
  else
    none

theorem amend?_eq
    {β : Type}
    {cells : Array β}
    {index : Nat}
    (hIndex : index < cells.size)
    (change : β → β) :
    amend? cells index change =
      some (cells.modify index change) :=
  if_pos hIndex

/- Changing all cells in turn changes each one once. -/
theorem foldl_modify_range
    {β : Type}
    {cells : Array β}
    {count : Nat}
    (change : Nat → β → β)
    (hSize : cells.size = count) :
    (List.range count).foldl
      (fun cells index =>
        cells.modify index (change index)) cells =
      cells.mapIdx change := by
  apply Array.ext_getElem?
  intro target
  rw [getElem?_foldl_modify, Array.getElem?_mapIdx]
  by_cases hTarget : target < cells.size
  · have hOnce :
        (List.range count).filter
            (fun index => decide (index = target)) =
          [target] := by
      rw [List.filter_eq, List.count_eq_one_of_mem
        List.nodup_range
        (List.mem_range.mpr (hSize ▸ hTarget))]
      rfl
    rw [hOnce]
    rfl
  · rw [Array.getElem?_eq_none (not_lt.mp hTarget)]
    rfl

end JointMax

------------------------------------------------------------
-- Loops
------------------------------------------------------------

namespace JointMax

/- A fold that may break off, next to one that does not. -/
theorem exists_foldlM
    {ι σ τ : Type}
    {R : σ → τ → Prop}
    {body : σ → ι → Option σ}
    {number : ι → Nat}
    {effect : τ → Nat → τ}
    {items : List ι}
    (hBody : ∀ item ∈ items, ∀ state ideal,
      R state ideal →
        ∃ next,
          body state item = some next ∧
            R next (effect ideal (number item)))
    {state : σ}
    {ideal : τ}
    (hStart : R state ideal) :
    ∃ last,
      items.foldlM body state = some last ∧
        R last ((items.map number).foldl effect ideal) := by
  induction items generalizing state ideal with
  | nil => exact ⟨state, rfl, hStart⟩
  | cons item items ih =>
      rcases hBody item (by simp) state ideal hStart with
        ⟨next, hNext, hRelated⟩
      rcases ih
          (fun other hOther =>
            hBody other (by simp [hOther])) hRelated with
        ⟨last, hLast, hEnd⟩
      refine ⟨last, ?_, hEnd⟩
      rw [List.foldlM_cons, hNext]
      exact hLast

namespace Odometer

/-
  The start over a scope, when the weights of its digits have
  been multiplied up.
-/
def start? (scope : Scope) : Option Odometer := do
  let _ ← scope.product?
  return start scope

/- The checked step, with its index as a word. -/
def stepWord? (odometer : Odometer) : Option Odometer := do
  let next ← odometer.step?
  let _ ← word? next.index
  return next

/-
  The loop from the current position to the end. It breaks
  off where its body or a step breaks off.
-/
def loop?
    {σ : Type}
    (body : Odometer → σ → Option σ)
    (odometer : Odometer)
    (state : σ) : Option σ :=
  odometer.trail.foldlM
    (fun state position => do
      let next ← body position state
      let _ ← position.stepWord?
      return next)
    state

/- The loop over all joint values of a scope. -/
def loopOver?
    {σ : Type}
    (scope : Scope)
    (body : Odometer → σ → Option σ)
    (state : σ) : Option σ := do
  let fresh ← start? scope
  fresh.loop? body state

variable {odometer : Odometer} {positions : List Odometer}

theorem Placed.stepWord?_eq
    (hPlaced : odometer.Placed)
    (hWords : odometer.scope.count < wordLimit) :
    odometer.stepWord? = some odometer.step := by
  have hIndex : odometer.step.index < wordLimit := by
    have hBelow := hPlaced.step.index_lt
    rw [scope_step] at hBelow
    exact hBelow.trans hWords
  simp [stepWord?, hPlaced.step?_eq, word?_eq hIndex]

/-
  A loop from the first free number on does in turn what its
  body does at each free number.
-/
theorem Route.loop?
    {σ τ : Type}
    {R : σ → τ → Prop}
    {body : Odometer → σ → Option σ}
    {effect : τ → Nat → τ}
    (hRoute : Route odometer positions)
    (hFirst : odometer.freeNumber = 0)
    (hWords : odometer.scope.count < wordLimit)
    (hBody : ∀ position ∈ positions, ∀ state ideal,
      R state ideal →
        ∃ next,
          body position state = some next ∧
            R next (effect ideal position.freeNumber))
    {state : σ}
    {ideal : τ}
    (hStart : R state ideal) :
    ∃ last,
      odometer.loop? body state = some last ∧
        R last
          ((List.range odometer.freeScope.count).foldl
            effect ideal) := by
  have hTrail : odometer.trail = positions :=
    hRoute.walks.walk_eq hRoute.length_le
  have hNumbers :
      positions.map freeNumber =
        List.range odometer.freeScope.count := by
    rw [hRoute.numbers, hFirst, Nat.sub_zero,
      List.range_eq_range']
  rw [Odometer.loop?, hTrail, ← hNumbers]
  apply exists_foldlM _ hStart
  intro position hPosition state ideal hRelated
  rcases hBody position hPosition state ideal hRelated with
    ⟨next, hNext, hAfter⟩
  have hStep :=
    (hRoute.placed position hPosition).stepWord?_eq (by
      rwa [hRoute.scope_eq position hPosition])
  exact ⟨next, by simp [hNext, hStep], hAfter⟩

theorem Placed.digits_eq (hPlaced : odometer.Placed) :
    odometer.digits =
      odometer.scope.decode odometer.index := by
  rw [hPlaced.index_eq]
  exact (MixedRadix.decode_encode hPlaced.within).symm

/- With no pinned wheel every number is a free number. -/
theorem Placed.freeNumber_eq_index
    (hPlaced : odometer.Placed)
    (hFree : ∀ wheel ∈ odometer.wheels,
      wheel.pinned = false) :
    odometer.freeNumber = odometer.index := by
  have hLength :
      (odometer.scope.axes.map Axis.size).length =
        odometer.wheels.length := by
    rw [hPlaced.length_eq, List.length_map]
  unfold freeNumber Wheel.freeNumber
  rw [Wheel.loose_of_free hFree hLength,
    Wheel.loose_of_free hFree (by simp), hPlaced.index_eq]
  rfl

theorem freeNumber_start (scope : Scope) :
    (start scope).freeNumber = 0 :=
  Wheel.freeNumber_zeros scope.axes

theorem free_start (scope : Scope) :
    ∀ wheel ∈ (start scope).wheels,
      wheel.pinned = false := by
  intro wheel hWheel
  rw [List.eq_of_mem_replicate hWheel]

theorem count_freeScope_start (scope : Scope) :
    (start scope).freeScope.count = scope.count := by
  rw [(placed_start scope).count_freeScope,
    Wheel.freeCount,
    Wheel.loose_of_free (free_start scope)
      (by simp [start, Scope.length])]
  rfl

/- Where the walk over a whole scope comes through. -/
theorem exists_route_start (scope : Scope) :
    ∃ positions,
      Route (start scope) positions ∧
        ∀ position ∈ positions,
          position.scope = scope ∧
            position.index < scope.count ∧
            position.digits =
              scope.decode position.index ∧
            position.freeNumber = position.index := by
  rcases (placed_start scope).exists_route rfl with
    ⟨positions, hRoute⟩
  refine ⟨positions, hRoute, ?_⟩
  intro position hPosition
  have hThere := hRoute.placed position hPosition
  have hScope : position.scope = scope :=
    hRoute.scope_eq position hPosition
  have hNone : ∀ wheel ∈ position.wheels,
      wheel.pinned = false :=
    Wheel.free_of_held_eq
      (hRoute.pins_eq position hPosition)
      (free_start scope)
  refine ⟨hScope, ?_, ?_, hThere.freeNumber_eq_index hNone⟩
  · rw [← hScope]
    exact hThere.index_lt
  · rw [← hScope]
    exact hThere.digits_eq

/-
  A loop over all joint values of a scope does in turn what
  its body does at each of their numbers.
-/
theorem exists_loopOver?
    {σ τ : Type}
    {R : σ → τ → Prop}
    {body : Odometer → σ → Option σ}
    {effect : τ → Nat → τ}
    {scope : Scope}
    (hWords : scope.count < wordLimit)
    (hBody : ∀ position : Odometer,
      position.scope = scope →
      position.index < scope.count →
      position.digits = scope.decode position.index →
      ∀ state ideal, R state ideal →
        ∃ next,
          body position state = some next ∧
            R next (effect ideal position.index))
    {state : σ}
    {ideal : τ}
    (hStart : R state ideal) :
    ∃ last,
      loopOver? scope body state = some last ∧
        R last
          ((List.range scope.count).foldl effect ideal) := by
  rcases exists_route_start scope with
    ⟨positions, hRoute, hHere⟩
  rw [loopOver?, start?, Scope.product?_eq hWords,
    ← count_freeScope_start scope]
  apply hRoute.loop? (freeNumber_start scope) hWords _ hStart
  intro position hPosition state ideal hRelated
  rcases hHere position hPosition with
    ⟨hScope, hIndex, hDigits, hNumber⟩
  rw [hNumber]
  exact hBody position hScope hIndex hDigits state ideal
    hRelated

/- A loop that changes the cell of each position. -/
theorem loopOver?_amend
    {β : Type}
    {body : Odometer → Array β → Option (Array β)}
    {change : Nat → β → β}
    {scope : Scope}
    {cells : Array β}
    (hWords : scope.count < wordLimit)
    (hSize : cells.size = scope.count)
    (hBody : ∀ position : Odometer,
      position.scope = scope →
      position.index < scope.count →
      position.digits = scope.decode position.index →
      ∀ cells,
        body position cells =
          amend? cells position.index
            (change position.index)) :
    loopOver? scope body cells =
      some (cells.mapIdx change) := by
  have hLoop :=
    @exists_loopOver? (Array β) (Array β)
      (fun cells ideal =>
        cells = ideal ∧ cells.size = scope.count)
      body
      (fun cells index => cells.modify index (change index))
      scope hWords
      (by
        rintro position hScope hIndex hDigits cells _
          ⟨rfl, hCells⟩
        refine ⟨_, ?_, rfl, ?_⟩
        · rw [hBody position hScope hIndex hDigits]
          exact amend?_eq (hCells ▸ hIndex) _
        · rw [Array.size_modify, hCells])
      cells cells ⟨rfl, hSize⟩
  rcases hLoop with ⟨last, hLast, hFinal, _⟩
  rw [hLast, hFinal, foldl_modify_range change hSize]

end Odometer

end JointMax
