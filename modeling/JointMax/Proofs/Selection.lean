import Mathlib
import JointMax.Proofs.Makings
import JointMax.Proofs.Pointwise
import JointMax.Proofs.SweepOutcome
import JointMax.Proofs.Traversal
import JointMax.Proofs.WordScopes

/-
  Places of values in a table, and the ways to give them: by
  one digit for each variable, by digits beside an increasing
  list of further variables, by an assignment, or by the
  position of an odometer. Each way has its own walk. They
  all answer as the walk over an assignment does, and its
  answer depends on nothing but what is chosen for the
  table's variables.

  Indices are added up in words. They are exact as long as
  the number of joint values is a word. From there on an
  index may wrap around to that of another cell.

  Main declarations:
    * `Axis.select?_eq_indexOf?` and
      `Axis.encode?_eq_indexOf?`
    * `Axis.indexOf?_eq_ok_iff`
    * `Address`, `Address.index?_eq` and
      `Address.agree_of_index?_eq`
    * `Address.indexWord?_eq` and `Table.readWord?_eq`
    * `Table.Written` and `Table.written_put`
    * `Scope.Selective` and `Scope.selective_of_lt`
-/

------------------------------------------------------------
-- Listed and Mapped Choices
------------------------------------------------------------

namespace JointMax

/- A variable that is listed once stands beside one item. -/
theorem aligned_eq_some_iff
    {β : Type}
    {vars : List VarId}
    {items : List β}
    (hNodup : vars.Nodup)
    {var : VarId}
    {item : β} :
    aligned vars items var = some item ↔
      (var, item) ∈ vars.zip items := by
  induction vars generalizing items with
  | nil => simp [aligned]
  | cons head vars ih =>
      cases items with
      | nil => simp [aligned]
      | cons first items =>
          rcases List.nodup_cons.mp hNodup with
            ⟨hFresh, hRest⟩
          rw [aligned_cons, List.zip_cons_cons,
            List.mem_cons]
          split
          · rename_i hVar
            subst hVar
            have hOnce : (var, item) ∉ vars.zip items :=
              fun hPair => hFresh (List.of_mem_zip hPair).1
            simp [hOnce, eq_comm]
          · rename_i hVar
            simp [hVar, ih hRest]

namespace Assignment

/- The choices of an increasing list are those of its map. -/
theorem choice_ofPairs
    {vars : List VarId}
    {digits : List Nat}
    (hVars : Increasing vars)
    (hLength : vars.length = digits.length) :
    (ofPairs (vars.zip digits)).choice =
      aligned vars digits := by
  have hNodup := nodup_of_increasing hVars
  funext var
  apply Option.ext
  intro digit
  rw [aligned_eq_some_iff hNodup]
  apply getElem?_ofList_iff
  rwa [List.map_fst_zip hLength.le]

theorem increasing_vars (assignment : Assignment) :
    Increasing (assignment.toList.map Prod.fst) := by
  rw [Std.ExtTreeMap.map_fst_toList_eq_keys]
  apply Std.ExtTreeMap.ordered_keys.imp
  intro first second hOrder
  exact Std.compare_eq_lt.mp hOrder

/- A map is the list of its choices. -/
theorem aligned_toList (assignment : Assignment) :
    aligned (assignment.toList.map Prod.fst)
        (assignment.toList.map Prod.snd) =
      assignment.choice := by
  funext var
  apply Option.ext
  intro digit
  rw [aligned_eq_some_iff
      (nodup_of_increasing assignment.increasing_vars),
    ← List.zip_of_prod rfl rfl,
    Std.ExtTreeMap.mem_toList_iff_getElem?_eq_some]
  rfl

end Assignment

end JointMax

------------------------------------------------------------
-- One Walk for All
------------------------------------------------------------

namespace JointMax

namespace Axis

theorem indexOf?_congr
    {first second : VarId → Option Nat}
    {axes : List Axis}
    (hAgree : ∀ axis ∈ axes,
      first axis.var = second axis.var) :
    indexOf? first axes = indexOf? second axes := by
  induction axes with
  | nil => rfl
  | cons axis axes ih =>
      rcases List.forall_mem_cons.mp hAgree with
        ⟨hAxis, hAxes⟩
      simp only [indexOf?, hAxis, ih hAxes]

/-
  An index is given just if a digit in range is chosen for
  each axis, and then it is their number.
-/
theorem indexOf?_eq_ok_iff
    {choice : VarId → Option Nat}
    {axes : List Axis}
    {index : Nat} :
    indexOf? choice axes = .ok index ↔
      ∃ digits : List Nat,
        (axes.map fun axis => choice axis.var) =
            digits.map some ∧
          MixedRadix.Within (axes.map Axis.size) digits ∧
          MixedRadix.encode (axes.map Axis.size) digits =
            index := by
  induction axes generalizing index with
  | nil =>
      constructor
      · intro hIndex
        cases hIndex
        exact ⟨[], rfl, .nil, rfl⟩
      · rintro ⟨_, _, hWithin, rfl⟩
        cases hWithin
        rfl
  | cons axis axes ih =>
      simp only [indexOf?]
      constructor
      · intro hIndex
        split at hIndex
        · rename_i digit hChoice
          split at hIndex
          · rename_i hDigit
            rcases exists_of_bind_eq_ok hIndex with
              ⟨high, hHigh, hOk⟩
            cases hOk
            rcases ih.mp hHigh with
              ⟨digits, hChosen, hWithin, rfl⟩
            exact ⟨digit :: digits,
              by simp [hChoice, hChosen],
              .cons hDigit hWithin, rfl⟩
          · cases hIndex
        · cases hIndex
      · rintro ⟨_, hChosen, hWithin, rfl⟩
        cases hWithin with
        | @cons _ digit _ digits hDigit hTail =>
            rw [List.map_cons, List.map_cons,
              List.cons.injEq] at hChosen
            rcases hChosen with ⟨hChoice, hChosen⟩
            simp only [hChoice, if_pos hDigit,
              ih.mpr ⟨digits, hChosen, hTail, rfl⟩]
            rfl

theorem exists_indexOf?_iff
    {choice : VarId → Option Nat}
    {axes : List Axis} :
    (∃ index, indexOf? choice axes = .ok index) ↔
      ∀ axis ∈ axes, ∃ digit,
        choice axis.var = some digit ∧ digit < axis.size := by
  induction axes with
  | nil => simp [indexOf?]
  | cons axis axes ih =>
      rw [List.forall_mem_cons, ← ih]
      simp only [indexOf?]
      constructor
      · rintro ⟨index, hIndex⟩
        split at hIndex
        · rename_i digit hChoice
          split at hIndex
          · rename_i hDigit
            rcases exists_of_bind_eq_ok hIndex with
              ⟨high, hHigh, _⟩
            exact ⟨⟨digit, hChoice, hDigit⟩, high, hHigh⟩
          · cases hIndex
        · cases hIndex
      · rintro ⟨⟨digit, hChoice, hDigit⟩, high, hHigh⟩
        exact ⟨digit + axis.size * high, by
          simp only [hChoice, if_pos hDigit, hHigh]
          rfl⟩

/-
  The walk along two increasing lists meets every listed
  choice, and reports the same axis as the other walk does.
-/
theorem select?_eq_indexOf?
    {axes : List Axis}
    {vars : List VarId}
    {digits : List Nat}
    (hAxes : Sorted axes)
    (hVars : Increasing vars)
    (hLength : vars.length = digits.length) :
    select? axes vars digits =
      indexOf? (aligned vars digits) axes := by
  induction vars generalizing axes digits with
  | nil => cases axes <;> rfl
  | cons var vars ih =>
      cases digits with
      | nil => cases hLength
      | cons digit digits =>
          cases axes with
          | nil => rfl
          | cons axis axes =>
              rcases List.pairwise_cons.mp hAxes with
                ⟨hHead, hTail⟩
              rcases List.pairwise_cons.mp hVars with
                ⟨hFirst, hRest⟩
              have hLater :
                  vars.length = digits.length := by
                simpa using hLength
              simp only [select?]
              split
              · rename_i hBelow
                -- The list has only later variables left.
                have hNone :
                    aligned (var :: vars)
                      (digit :: digits) axis.var = none := by
                  apply aligned_of_not_mem
                  intro hMember
                  rcases List.mem_cons.mp hMember with
                    hSame | hOther
                  · exact UInt32.ne_of_lt hBelow hSame
                  · exact UInt32.lt_asymm hBelow
                      (hFirst axis.var hOther)
                simp only [indexOf?, hNone]
              · rename_i hNotBelow
                split
                · rename_i hVar
                  subst hVar
                  -- The later axes are later variables.
                  have hOthers :
                      indexOf? (aligned (axis.var :: vars)
                          (digit :: digits)) axes =
                        indexOf? (aligned vars digits)
                          axes := by
                    apply indexOf?_congr
                    intro other hOther
                    rw [aligned_cons, if_neg
                      (UInt32.ne_of_lt
                        (hHead other hOther)).symm]
                  simp only [indexOf?, aligned_cons, if_pos,
                    hOthers, ih hTail hRest hLater]
                · rename_i hNe
                  rw [ih hAxes hRest hLater]
                  have hLess : var < axis.var :=
                    UInt32.lt_of_le_of_ne
                      (UInt32.not_lt.mp hNotBelow)
                      (Ne.symm hNe)
                  apply indexOf?_congr
                  intro other hOther
                  have hBeyond : var < other.var := by
                    rcases List.mem_cons.mp hOther with
                      rfl | hOther
                    · exact hLess
                    · exact UInt32.lt_trans hLess
                        (hHead other hOther)
                  rw [aligned_cons, if_neg
                    (UInt32.ne_of_lt hBeyond).symm]

/- Own digits are digits beside the own variables. -/
theorem encode?_eq_indexOf?
    {axes : List Axis}
    {digits : List Nat}
    (hAxes : Sorted axes)
    (hLength : digits.length = axes.length) :
    encode? axes digits =
      indexOf? (aligned (axes.map var) digits) axes := by
  induction axes generalizing digits with
  | nil => rfl
  | cons axis axes ih =>
      cases digits with
      | nil => cases hLength
      | cons digit digits =>
          rcases List.pairwise_cons.mp hAxes with
            ⟨hHead, hTail⟩
          have hOthers :
              indexOf? (aligned (axis.var :: axes.map var)
                  (digit :: digits)) axes =
                indexOf? (aligned (axes.map var) digits)
                  axes := by
            apply indexOf?_congr
            intro other hOther
            rw [aligned_cons, if_neg
              (UInt32.ne_of_lt (hHead other hOther)).symm]
          simp only [encode?, indexOf?, List.map_cons,
            aligned_cons, if_pos, hOthers,
            ih hTail (by simpa using hLength)]

/-
  Whatever the list is like, an index is in range, and the
  unchecked walk finds it.
-/
theorem locate_of_select?
    {axes : List Axis}
    {vars : List VarId}
    {digits : List Nat}
    {index : Nat}
    (hSelect : select? axes vars digits = .ok index) :
    index < MixedRadix.count (axes.map size) ∧
      locate axes vars digits = index := by
  induction vars generalizing axes digits index with
  | nil =>
      cases axes with
      | nil =>
          cases hSelect
          exact ⟨Nat.one_pos, rfl⟩
      | cons axis axes => cases hSelect
  | cons var vars ih =>
      cases axes with
      | nil =>
          cases hSelect
          exact ⟨Nat.one_pos, rfl⟩
      | cons axis axes =>
          cases digits with
          | nil => cases hSelect
          | cons digit digits =>
              simp only [select?] at hSelect
              split at hSelect
              · cases hSelect
              · split at hSelect
                · rename_i hVar
                  split at hSelect
                  · rename_i hDigit
                    rcases exists_of_bind_eq_ok hSelect with
                      ⟨high, hHigh, hOk⟩
                    cases hOk
                    rcases ih hHigh with
                      ⟨hInside, hLocate⟩
                    rw [locate, if_pos hVar, hLocate]
                    exact ⟨MixedRadix.digit_add_lt hDigit
                      hInside, rfl⟩
                  · cases hSelect
                · rename_i hVar
                  rw [locate, if_neg hVar]
                  exact ih hSelect

end Axis

end JointMax

------------------------------------------------------------
-- Addresses
------------------------------------------------------------

namespace JointMax

namespace Scope

variable {scope : Scope} {vars : List VarId} {digits : List Nat}

theorem select?_eq_indexOf?
    (hVars : Increasing vars)
    (hLength : vars.length = digits.length) :
    scope.select? vars digits =
      Axis.indexOf? (aligned vars digits) scope.axes := by
  rw [select?, if_pos hLength]
  exact Axis.select?_eq_indexOf? scope.sorted hVars hLength

theorem locate_of_select?
    {index : Nat}
    (hSelect : scope.select? vars digits = .ok index) :
    index < scope.count ∧
      scope.locate vars digits = index := by
  unfold select? at hSelect
  split at hSelect
  · exact Axis.locate_of_select? hSelect
  · cases hSelect

end Scope

/- The ways to say which value of a table is meant. -/
inductive Address where
  | own (digits : List Nat)
  | listed (vars : List VarId) (digits : List Nat)
  | mapped (assignment : Assignment)
  | shown (odometer : Odometer)

namespace Address

def index? (scope : Scope) : Address → Except Fault Nat
  | .own digits => scope.encode? digits
  | .listed vars digits => scope.select? vars digits
  | .mapped assignment => scope.indexOf? assignment
  | .shown odometer =>
      scope.select? odometer.vars odometer.digits

/- The index in words. -/
def indexWord? (build : Build) (scope : Scope) :
    Address → Option (Except Fault Nat)
  | .own digits => scope.encodeWord? build digits
  | .listed vars digits => scope.selectWord? build vars digits
  | .mapped assignment => scope.indexWord? build assignment
  | .shown odometer =>
      scope.selectWord? build odometer.vars odometer.digits

/- The digits that are chosen, by variable. -/
def choice (scope : Scope) : Address → VarId → Option Nat
  | .own digits => aligned scope.vars digits
  | .listed vars digits => aligned vars digits
  | .mapped assignment => assignment.choice
  | .shown odometer => aligned odometer.vars odometer.digits

/- One digit for each variable, of a list that increases. -/
def Orderly (scope : Scope) : Address → Prop
  | .own digits => digits.length = scope.length
  | .listed vars digits =>
      Increasing vars ∧ vars.length = digits.length
  | .mapped _ => True
  | .shown odometer =>
      odometer.vars.length = odometer.digits.length

variable {scope : Scope} {address first second : Address}

theorem indexWord?_eq
    {build : Build}
    (hWords : scope.count < wordLimit)
    (address : Address) :
    address.indexWord? build scope =
      some (address.index? scope) := by
  cases address with
  | own digits => exact Scope.encodeWord?_eq hWords digits
  | listed vars digits =>
      exact Scope.selectWord?_eq hWords vars digits
  | mapped assignment =>
      exact Scope.indexWord?_eq hWords assignment
  | shown odometer =>
      exact Scope.selectWord?_eq hWords _ _

/- Odometers that were started and moved are orderly. -/
theorem orderly_shown
    {odometer : Odometer}
    (hPlaced : odometer.Placed) :
    (shown odometer).Orderly scope := by
  have hWheels := hPlaced.length_eq
  simpa [Orderly, Odometer.vars, Odometer.digits,
    Scope.vars, Scope.length] using hWheels.symm

/- Every walk is the walk over what is chosen. -/
theorem index?_eq
    (hOrderly : address.Orderly scope) :
    address.index? scope =
      Axis.indexOf? (address.choice scope) scope.axes := by
  cases address with
  | own digits =>
      have hLength : digits.length = scope.length := hOrderly
      rw [index?, Scope.encode?, if_pos hLength]
      exact Axis.encode?_eq_indexOf? scope.sorted hLength
  | listed vars digits =>
      exact Scope.select?_eq_indexOf? hOrderly.1 hOrderly.2
  | mapped assignment => rfl
  | shown odometer =>
      exact Scope.select?_eq_indexOf?
        odometer.scope.increasing_vars hOrderly

theorem index?_congr
    (hFirst : first.Orderly scope)
    (hSecond : second.Orderly scope)
    (hAgree : ∀ var ∈ scope.vars,
      first.choice scope var = second.choice scope var) :
    first.index? scope = second.index? scope := by
  rw [index?_eq hFirst, index?_eq hSecond]
  apply Axis.indexOf?_congr
  intro axis hAxis
  exact hAgree axis.var (Scope.mem_vars hAxis)

/- One index is the index of one choice. -/
theorem agree_of_index?_eq
    {index : Nat}
    (hFirst : first.Orderly scope)
    (hSecond : second.Orderly scope)
    (hIndex : first.index? scope = .ok index)
    (hOther : second.index? scope = .ok index) :
    ∀ var ∈ scope.vars,
      first.choice scope var = second.choice scope var := by
  rw [index?_eq hFirst] at hIndex
  rw [index?_eq hSecond] at hOther
  rcases Axis.indexOf?_eq_ok_iff.mp hIndex with
    ⟨digits, hChosen, hWithin, hEncode⟩
  rcases Axis.indexOf?_eq_ok_iff.mp hOther with
    ⟨others, hOthers, hInside, hSame⟩
  have hDigits : digits = others := by
    rw [← MixedRadix.decode_encode hWithin, hEncode,
      ← hSame, MixedRadix.decode_encode hInside]
  subst hDigits
  intro var hVar
  rcases Scope.mem_vars_iff.mp hVar with ⟨axis, hAxis, rfl⟩
  exact List.map_inj_left.mp (hChosen.trans hOthers.symm)
    axis hAxis

theorem lt_count_of_index?
    {index : Nat}
    (hIndex : address.index? scope = .ok index) :
    index < scope.count := by
  cases address with
  | own digits =>
      rcases Scope.within_of_encode? hIndex with
        ⟨hWithin, rfl⟩
      exact MixedRadix.encode_lt hWithin
  | listed vars digits =>
      exact (Scope.locate_of_select? hIndex).1
  | mapped assignment =>
      rcases Scope.within_of_indexOf? hIndex with
        ⟨hWithin, rfl⟩
      exact MixedRadix.encode_lt hWithin
  | shown odometer =>
      exact (Scope.locate_of_select? hIndex).1

end Address

end JointMax

------------------------------------------------------------
-- Reading and Writing
------------------------------------------------------------

namespace JointMax

namespace Table

variable {α : Type}

def write? (table : Table α) (value : α) :
    Address → Except Fault (Table α)
  | .own digits => table.setAt? digits value
  | .listed vars digits =>
      table.setAtVars? vars digits value
  | .mapped assignment =>
      table.setAtAssignment? assignment value
  | .shown odometer => table.setAtOdometer? odometer value

theorem write?_eq
    (table : Table α)
    (value : α)
    (address : Address) :
    table.write? value address =
      (address.index? table.scope).map
        (table.put · value) := by
  cases address <;> rfl

theorem get?_put
    {table : Table α}
    {index : Nat}
    (hIndex : index < table.scope.count)
    (value : α)
    (other : Nat) :
    (table.put index value).get? other =
      if index = other then some value
      else table.get? other := by
  rw [← table.size_eq] at hIndex
  simp only [get?, put, Array.getElem?_setIfInBounds,
    if_pos hIndex]

variable [Scalar α]

def read? (table : Table α) : Address → Except Fault α
  | .own digits => table.at? digits
  | .listed vars digits => table.atVars? vars digits
  | .mapped assignment => table.atAssignment? assignment
  | .shown odometer => table.atOdometer? odometer

theorem read?_eq
    (table : Table α)
    (address : Address) :
    table.read? address =
      (address.index? table.scope).map table.cell := by
  cases address <;> rfl

theorem cell_eq_getD (table : Table α) (index : Nat) :
    table.cell index =
      (table.get? index).getD Scalar.zero := by
  rw [cell, get?, Array.getD_eq_getD_getElem?]

theorem get?_of_lt
    {table : Table α}
    {index : Nat}
    (hIndex : index < table.scope.count) :
    table.get? index = some (table.cell index) := by
  rw [← table.size_eq] at hIndex
  rw [get?, cell_eq_getElem hIndex,
    Array.getElem?_eq_getElem hIndex]

theorem cell_put
    {table : Table α}
    {index : Nat}
    (hIndex : index < table.scope.count)
    (value : α)
    (other : Nat) :
    (table.put index value).cell other =
      if index = other then value
      else table.cell other := by
  rw [cell_eq_getD, get?_put hIndex, cell_eq_getD]
  split <;> rfl

/-
  The value at an index in words. An index that is not one of
  a cell breaks off.
-/
def readWord?
    (build : Build)
    (table : Table α)
    (address : Address) :
    Option (Except Fault α) := do
  match ← address.indexWord? build table.scope with
  | .ok index => return .ok (← table.get? index)
  | .error fault => return .error fault

def writeWord?
    (build : Build)
    (table : Table α)
    (value : α)
    (address : Address) :
    Option (Except Fault (Table α)) := do
  match ← address.indexWord? build table.scope with
  | .ok index => return .ok (← table.set? index value)
  | .error fault => return .error fault

/- The value of digits that are known to be in range. -/
def alongWord?
    (build : Build)
    (table : Table α)
    (vars : List VarId)
    (digits : List Nat) : Option α := do
  let index ← table.scope.locateWord? build vars digits
  table.get? index

section

variable {build : Build} {table : Table α}

/- Every index in words is one of a cell. -/
theorem readWord?_eq
    (hWords : table.scope.count < wordLimit)
    (address : Address) :
    table.readWord? build address =
      some (table.read? address) := by
  rw [readWord?, Address.indexWord?_eq hWords, read?_eq]
  cases hIndex : address.index? table.scope with
  | error fault => rfl
  | ok index =>
      have hInside := Address.lt_count_of_index? hIndex
      simp only [Option.bind_eq_bind, Option.bind_some,
        get?_of_lt hInside]
      rfl

omit [Scalar α] in
theorem writeWord?_eq
    (hWords : table.scope.count < wordLimit)
    (value : α)
    (address : Address) :
    table.writeWord? build value address =
      some (table.write? value address) := by
  rw [writeWord?, Address.indexWord?_eq hWords, write?_eq]
  cases hIndex : address.index? table.scope with
  | error fault => rfl
  | ok index =>
      have hInside : index < table.values.size := by
        rw [table.size_eq]
        exact Address.lt_count_of_index? hIndex
      simp only [Option.bind_eq_bind, Option.bind_some,
        set?, if_pos hInside]
      rfl

omit [Scalar α] in
theorem alongWord?_eq
    {vars : List VarId}
    {digits : List Nat}
    {index : Nat}
    (hWords : table.scope.count < wordLimit)
    (hSelect : table.scope.select? vars digits = .ok index) :
    table.alongWord? build vars digits =
      table.get? index := by
  rw [alongWord?, Scope.locateWord?_eq hWords hSelect]
  rfl

end

/-
  What is read after a value was written. It is found at
  every address of the same cell, so wherever the same digits
  are chosen, and nothing else has changed.
-/
structure Written
    (build : Build)
    (table next : Table α)
    (address : Address)
    (value : α) : Prop where
  scope : next.scope = table.scope
  cell : ∀ index,
    address.indexWord? build table.scope =
        some (.ok index) →
      next.get? index = some value
  others : ∀ index,
    address.indexWord? build table.scope ≠
        some (.ok index) →
      next.get? index = table.get? index
  reads : ∀ other : Address,
    next.readWord? build other =
      if other.indexWord? build table.scope =
          address.indexWord? build table.scope then
        some (.ok value)
      else table.readWord? build other
  same : ∀ other : Address,
    address.Orderly table.scope →
      other.Orderly table.scope →
      (∀ var ∈ table.vars,
        other.choice table.scope var =
          address.choice table.scope var) →
      next.readWord? build other = some (.ok value)
  along : ∀ vars digits,
    address.Orderly table.scope →
      Increasing vars → vars.length = digits.length →
      (∀ var ∈ table.vars,
        aligned vars digits var =
          address.choice table.scope var) →
      next.alongWord? build vars digits = some value
  elsewhere : ∀ other : Address,
    address.Orderly table.scope →
      other.Orderly table.scope →
      (∃ var ∈ table.vars,
        other.choice table.scope var ≠
          address.choice table.scope var) →
      next.readWord? build other =
        table.readWord? build other

theorem read?_put
    {table : Table α}
    {address : Address}
    {index : Nat}
    (hIndex : address.index? table.scope = .ok index)
    (value : α)
    (other : Address) :
    (table.put index value).read? other =
      if other.index? table.scope =
          address.index? table.scope then
        .ok value
      else table.read? other := by
  have hInside := Address.lt_count_of_index? hIndex
  rw [read?_eq, read?_eq, hIndex]
  change (other.index? table.scope).map _ = _
  cases other.index? table.scope with
  | error fault => simp [Except.map]
  | ok place =>
      simp only [Except.map, cell_put hInside, eq_comm,
        Except.ok.injEq]
      split <;> rfl

theorem written_put
    {build : Build}
    {table : Table α}
    {address : Address}
    {index : Nat}
    (hWords : table.scope.count < wordLimit)
    (hIndex : address.index? table.scope = .ok index)
    (value : α) :
    table.Written build (table.put index value) address
      value := by
  have hInside := Address.lt_count_of_index? hIndex
  have hNext : (table.put index value).scope.count <
      wordLimit := hWords
  have hReads := read?_put hIndex value
  constructor
  case scope => rfl
  case cell =>
    intro found hFound
    rw [Address.indexWord?_eq hWords, hIndex] at hFound
    cases hFound
    rw [get?_put hInside, if_pos rfl]
  case others =>
    intro other hOther
    have hNe : index ≠ other := by
      rintro rfl
      rw [Address.indexWord?_eq hWords, hIndex] at hOther
      exact hOther rfl
    rw [get?_put hInside, if_neg hNe]
  case reads =>
    intro other
    simp only [readWord?_eq hNext, readWord?_eq hWords,
      Address.indexWord?_eq hWords, hReads,
      Option.some.injEq]
    split <;> rfl
  case same =>
    intro other hAddress hOther hAgree
    rw [readWord?_eq hNext, hReads, if_pos
      (Address.index?_congr hOther hAddress hAgree)]
  case along =>
    intro vars digits hAddress hVars hLength hAgree
    have hSelect :
        table.scope.select? vars digits = .ok index :=
      (@Address.index?_congr table.scope
        (.listed vars digits) address ⟨hVars, hLength⟩
        hAddress hAgree).trans hIndex
    rw [alongWord?_eq hNext hSelect, get?_put hInside,
      if_pos rfl]
  case elsewhere =>
    rintro other hAddress hOther ⟨var, hVar, hDiffers⟩
    rw [readWord?_eq hNext, readWord?_eq hWords, hReads,
      if_neg]
    intro hEqual
    exact hDiffers (Address.agree_of_index?_eq hOther
      hAddress (hEqual.trans hIndex) hIndex var hVar)

end Table

end JointMax

------------------------------------------------------------
-- Agreement
------------------------------------------------------------

namespace JointMax

namespace Scope

/-
  What the walks over a scope have in common. None of them
  breaks off, they agree on increasing lists, and the cell
  that any of them finds is there. A value that is written by
  way of one is read by way of all.
-/
structure Selective
    (α : Type)
    [Scalar α]
    (build : Build)
    (scope : Scope) : Prop where
  answered : ∀ address : Address,
    ∃ answer, address.indexWord? build scope = some answer
  listed : ∀ vars digits,
    Increasing vars → vars.length = digits.length →
      scope.selectWord? build vars digits =
        scope.indexWord? build
          (Assignment.ofPairs (vars.zip digits))
  mapped : ∀ assignment : Assignment,
    Increasing (assignment.toList.map Prod.fst) ∧
      scope.indexWord? build assignment =
        scope.selectWord? build
          (assignment.toList.map Prod.fst)
          (assignment.toList.map Prod.snd)
  accepted : ∀ vars digits,
    Increasing vars → vars.length = digits.length →
      ((∃ index,
          scope.selectWord? build vars digits =
            some (.ok index)) ↔
        ∀ axis ∈ scope.axes, ∃ digit,
          (axis.var, digit) ∈ vars.zip digits ∧
            digit < axis.size)
  restricted : ∀ vars digits index,
    Increasing vars → vars.length = digits.length →
      scope.selectWord? build vars digits =
          some (.ok index) →
        ∃ own : List Nat,
          scope.vars.map (aligned vars digits) =
              own.map some ∧
            scope.encodeWord? build own = some (.ok index)
  inside : ∀ vars digits index,
    scope.selectWord? build vars digits =
        some (.ok index) →
      (∃ total,
        scope.countWord? build = some total ∧
          index < total) ∧
        scope.locateWord? build vars digits = some index ∧
        ∀ table : Table α, table.scope = scope →
          ∃ value,
            table.get? index = some value ∧
              table.readWord? build (.listed vars digits) =
                some (.ok value)
  alike : ∀ first second : Address,
    first.Orderly scope → second.Orderly scope →
      (∀ var ∈ scope.vars,
        first.choice scope var = second.choice scope var) →
      first.indexWord? build scope =
        second.indexWord? build scope
  positions : ∀ odometer : Odometer,
    odometer.Placed → (Address.shown odometer).Orderly scope
  written : ∀ (table : Table α) address value,
    table.scope = scope →
      (∃ fault,
        table.readWord? build address =
            some (.error fault) ∧
          table.writeWord? build value address =
            some (.error fault)) ∨
      ∃ old next,
        table.readWord? build address = some (.ok old) ∧
          table.writeWord? build value address =
            some (.ok next) ∧
          table.Written build next address value

variable {scope : Scope} {vars : List VarId} {digits : List Nat}

theorem select?_eq_ofPairs
    (hVars : Increasing vars)
    (hLength : vars.length = digits.length) :
    scope.select? vars digits =
      scope.indexOf? (Assignment.ofPairs (vars.zip digits)) :=
    by
  rw [select?_eq_indexOf? hVars hLength, indexOf?,
    Assignment.choice_ofPairs hVars hLength]

theorem indexOf?_eq_select? (assignment : Assignment) :
    scope.indexOf? assignment =
      scope.select? (assignment.toList.map Prod.fst)
        (assignment.toList.map Prod.snd) := by
  rw [select?_eq_indexOf? assignment.increasing_vars
      (by simp),
    assignment.aligned_toList, indexOf?]

theorem exists_select?_iff
    (hVars : Increasing vars)
    (hLength : vars.length = digits.length) :
    (∃ index, scope.select? vars digits = .ok index) ↔
      ∀ axis ∈ scope.axes, ∃ digit,
        (axis.var, digit) ∈ vars.zip digits ∧
          digit < axis.size := by
  simp only [select?_eq_indexOf? hVars hLength,
    Axis.exists_indexOf?_iff,
    aligned_eq_some_iff (nodup_of_increasing hVars)]

theorem exists_encode?_of_select?
    {index : Nat}
    (hVars : Increasing vars)
    (hLength : vars.length = digits.length)
    (hSelect : scope.select? vars digits = .ok index) :
    ∃ own : List Nat,
      scope.vars.map (aligned vars digits) = own.map some ∧
        scope.encode? own = .ok index := by
  rw [select?_eq_indexOf? hVars hLength] at hSelect
  rcases Axis.indexOf?_eq_ok_iff.mp hSelect with
    ⟨own, hOwn, hWithin, rfl⟩
  refine ⟨own, ?_, encode?_of_within hWithin⟩
  rw [Scope.vars, List.map_map]
  exact hOwn

/- The list holds more, and the walks report the same axis. -/
example :
    sixfold.select? [1, 2, 4, 5] [7, 2, 0, 1] = .ok 5 ∧
      sixfold.encode? [2, 1] = .ok 5 ∧
      sixfold.select? [1, 2, 4] [7, 2, 0] =
        .error (.badScope (.missing 5)) ∧
      sixfold.select? [2, 5, 2] [2, 1, 9] = .ok 5 := by
  decide

end Scope

end JointMax
