import Mathlib
import JointMax.Proofs.GuardedTables
import JointMax.Table.Grid

/-
  Printed tables. A table over some variables is printed as a
  header and one grid for each joint value of the variables
  after the second, in the order of their numbers. The entry
  in a row and a column is the value at the digits that row,
  column and label give, and each value of the table is
  printed once. No value is looked for outside the table, and
  every label can be computed.

  Main declarations:
    * `MixedRadix.within_take` and `MixedRadix.exists_take`
    * `Table.position`, the digits of an entry
    * `Table.perm_positions`
    * `Guarded.grids` and `Guarded.grids_eq`
    * `Table.Printed` and `Table.printed`
-/

------------------------------------------------------------
-- Row, Column and Label
------------------------------------------------------------

namespace JointMax

namespace MixedRadix

variable {radices digits label : List Nat}
variable {row column : Nat}

/-
  Row, column and label, as far as there are radices, are
  digits of the number that the strides give.
-/
theorem within_take
    (hSome : radices ≠ [])
    (hRow : row < radices.headD 1)
    (hColumn : column < radices.tail.headD 1)
    (hLabel : Within (radices.drop 2) label) :
    Within radices
        ((row :: column :: label).take radices.length) ∧
      encode radices
          ((row :: column :: label).take radices.length) =
        row + radices.headD 1 *
          (column + radices.tail.headD 1 *
            encode (radices.drop 2) label) := by
  match radices, hSome with
  | [rows], _ =>
      cases hLabel
      obtain rfl : column = 0 := Nat.lt_one_iff.mp hColumn
      exact ⟨.cons hRow .nil, rfl⟩
  | rows :: columns :: outer, _ =>
      have hLength : label.length = outer.length :=
        hLabel.length_eq
      rw [List.length_cons, List.length_cons,
        List.take_succ_cons, List.take_succ_cons,
        List.take_of_length_le hLength.le]
      exact ⟨.cons hRow (.cons hColumn hLabel), rfl⟩

/- All digits are those of some row, column and label. -/
theorem exists_take
    (hSome : radices ≠ [])
    (hDigits : Within radices digits) :
    ∃ row column label,
      row < radices.headD 1 ∧
        column < radices.tail.headD 1 ∧
        Within (radices.drop 2) label ∧
        digits =
          (row :: column :: label).take radices.length := by
  match radices, hDigits, hSome with
  | [_], .cons hRow .nil, _ =>
      exact ⟨_, 0, [], hRow, Nat.one_pos, .nil, rfl⟩
  | _ :: _ :: outer, .cons hRow (.cons hColumn hLabel), _ =>
      refine ⟨_, _, _, hRow, hColumn, hLabel, ?_⟩
      rw [List.length_cons, List.length_cons,
        List.take_succ_cons, List.take_succ_cons,
        List.take_of_length_le hLabel.length_eq.le]

theorem count_eq_mul (hSome : radices ≠ []) :
    count radices =
      radices.headD 1 *
        (radices.tail.headD 1 * count (radices.drop 2)) := by
  match radices, hSome with
  | [_], _ => rfl
  | _ :: _ :: _, _ => rfl

end MixedRadix

end JointMax

------------------------------------------------------------
-- Digits of Entries
------------------------------------------------------------

namespace JointMax

namespace Table

variable {α : Type} {table : Table α}
variable {row column : Nat} {label : List Nat}

/- Labels of the grids, in the order of their numbers. -/
def labels (table : Table α) : List (List Nat) :=
  (List.range (MixedRadix.count table.outerSizes)).map
    (MixedRadix.decode table.outerSizes)

/- Digits of the entry in a row and a column under a label. -/
def position
    (table : Table α)
    (row column : Nat)
    (label : List Nat) : List Nat :=
  (row :: column :: label).take table.scope.length

/- The digits of all entries, in the order of printing. -/
def positions (table : Table α) : List (List Nat) :=
  table.labels.flatMap fun label =>
    (List.range table.rowCount).flatMap fun row =>
      (List.range table.columnCount).map fun column =>
        table.position row column label

theorem length_sizes (table : Table α) :
    table.sizes.length = table.scope.length := by
  simp [sizes, Scope.sizes, Scope.length]

theorem sizes_ne_nil (hSome : 0 < table.scope.length) :
    table.sizes ≠ [] := by
  rw [← List.length_pos_iff, length_sizes]
  exact hSome

theorem mem_labels_iff :
    label ∈ table.labels ↔
      MixedRadix.Within table.outerSizes label := by
  constructor
  · intro hLabel
    rcases List.mem_map.mp hLabel with ⟨outer, hOuter, rfl⟩
    exact MixedRadix.within_decode (List.mem_range.mp hOuter)
  · intro hWithin
    refine List.mem_map.mpr
      ⟨MixedRadix.encode table.outerSizes label, ?_,
        MixedRadix.decode_encode hWithin⟩
    exact List.mem_range.mpr (MixedRadix.encode_lt hWithin)

/- Digits of an entry are in range, and the strides fit. -/
theorem within_position
    (hSome : 0 < table.scope.length)
    (hRow : row < table.rowCount)
    (hColumn : column < table.columnCount)
    (hLabel : MixedRadix.Within table.outerSizes label) :
    MixedRadix.Within table.sizes
        (table.position row column label) ∧
      MixedRadix.encode table.sizes
          (table.position row column label) =
        row + table.rowCount *
          (column + table.columnCount *
            MixedRadix.encode table.outerSizes label) := by
  rw [position, ← length_sizes]
  exact MixedRadix.within_take (sizes_ne_nil hSome) hRow
    hColumn hLabel

theorem length_positions (hSome : 0 < table.scope.length) :
    table.positions.length = table.scope.count := by
  have hCount : table.scope.count =
      table.rowCount * (table.columnCount *
        MixedRadix.count table.outerSizes) :=
    MixedRadix.count_eq_mul (sizes_ne_nil hSome)
  simp [positions, labels, hCount, List.length_flatMap,
    Function.comp_def]
  ring

theorem mem_positions
    (hRow : row < table.rowCount)
    (hColumn : column < table.columnCount)
    (hLabel : MixedRadix.Within table.outerSizes label) :
    table.position row column label ∈ table.positions :=
  List.mem_flatMap.mpr ⟨label, mem_labels_iff.mpr hLabel,
    List.mem_flatMap.mpr ⟨row, List.mem_range.mpr hRow,
      List.mem_map_of_mem (List.mem_range.mpr hColumn)⟩⟩

/-
  Every number is that of a printed entry. There are as many
  entries as numbers, so none is printed twice.
-/
theorem perm_positions (hSome : 0 < table.scope.length) :
    (table.positions.map
      (MixedRadix.encode table.sizes)).Perm
        (List.range table.scope.count) := by
  have hAll : List.range table.scope.count ⊆
      table.positions.map (MixedRadix.encode table.sizes) := by
    intro index hIndex
    have hBelow :
        index < MixedRadix.count table.sizes :=
      List.mem_range.mp hIndex
    rcases MixedRadix.exists_take (sizes_ne_nil hSome)
        (MixedRadix.within_decode hBelow) with
      ⟨row, column, label, hRow, hColumn, hLabel, hDigits⟩
    rw [length_sizes] at hDigits
    refine List.mem_map.mpr
      ⟨table.position row column label,
        mem_positions hRow hColumn hLabel, ?_⟩
    rw [position, ← hDigits, MixedRadix.encode_decode hBelow]
  have hSub :=
    List.subperm_of_subset List.nodup_range hAll
  apply (hSub.perm_of_length_le _).symm
  rw [List.length_map, length_positions hSome,
    List.length_range]

end Table

end JointMax

------------------------------------------------------------
-- Guarded Grids
------------------------------------------------------------

namespace JointMax

/- Steps that all have a result have their results in order. -/
theorem mapM_eq_some_map
    {β γ : Type}
    {f : β → Option γ}
    {g : β → γ}
    {items : List β}
    (hEach : ∀ item ∈ items, f item = some (g item)) :
    items.mapM f = some (items.map g) := by
  induction items with
  | nil => rfl
  | cons item items ih =>
      rw [List.forall_mem_cons] at hEach
      rw [List.mapM_cons, hEach.1, ih hEach.2]
      rfl

namespace Guarded

variable {α : Type} [Scalar α]

/-
  The grid under a number. It breaks off at a number that has
  no label, and at a value that the table does not hold.
-/
def grid (table : Table α) (outer : Nat) :
    Option (Grid α) := do
  let label ←
    (MixedRadix.decode? table.outerSizes outer).toOption
  let rows ←
    (List.range table.rowCount).mapM fun row =>
      (List.range table.columnCount).mapM fun column =>
        table.values[row + table.rowCount *
          (column + table.columnCount * outer)]?
  return ⟨label, rows⟩

def grids (table : Table α) : Option (List (Grid α)) :=
  (List.range (MixedRadix.count table.outerSizes)).mapM
    (grid table)

variable {table : Table α}

theorem grid_eq
    (hSome : 0 < table.scope.length)
    {outer : Nat}
    (hOuter : outer < MixedRadix.count table.outerSizes) :
    grid table outer = some (table.grid outer) := by
  have hLabel := MixedRadix.within_decode hOuter
  have hNumber := MixedRadix.encode_decode hOuter
  have hRows :
      ((List.range table.rowCount).mapM fun row =>
        (List.range table.columnCount).mapM fun column =>
          table.values[row + table.rowCount *
            (column + table.columnCount * outer)]?) =
        some (table.grid outer).rows := by
    apply mapM_eq_some_map
    intro row hRow
    apply mapM_eq_some_map
    intro column hColumn
    rcases Table.within_position hSome
        (List.mem_range.mp hRow) (List.mem_range.mp hColumn)
        hLabel with
      ⟨hWithin, hIndex⟩
    rw [hNumber] at hIndex
    rw [← hIndex]
    exact getElem?_values (MixedRadix.encode_lt hWithin)
  rw [grid, hRows, MixedRadix.decode?, if_pos hOuter]
  rfl

theorem grids_eq (hSome : 0 < table.scope.length) :
    grids table = some table.grids := by
  apply mapM_eq_some_map
  intro outer hOuter
  exact grid_eq hSome (List.mem_range.mp hOuter)

end Guarded

end JointMax

------------------------------------------------------------
-- Printed Text
------------------------------------------------------------

namespace JointMax

namespace Table

variable {table : Table Float} {label : List Nat}

/- The value at row, column and label. -/
def entry
    (table : Table Float)
    (label : List Nat)
    (row column : Nat) : Float :=
  table.cell
    (MixedRadix.encode table.sizes
      (table.position row column label))

def labelLine (label : List Nat) : String :=
  "(:,:," ++ ",".intercalate (label.map toString) ++ ") ="

def rowLine (entries : List Float) : String :=
  String.join (entries.map fun value => " " ++ showEntry value)

/- The lines of one grid. -/
def gridLines
    (table : Table Float)
    (label : List Nat) : List String :=
  (if 3 ≤ table.scope.length then [labelLine label] else []) ++
    (List.range table.rowCount).map fun row =>
      rowLine ((List.range table.columnCount).map fun column =>
        table.entry label row column)

/- Only from three variables on is there anything to label. -/
theorem isEmpty_label
    (hLabel : MixedRadix.Within table.outerSizes label) :
    label.isEmpty = true ↔ ¬ 3 ≤ table.scope.length := by
  have hLength := hLabel.length_eq
  rw [outerSizes, List.length_drop, length_sizes] at hLength
  rw [List.isEmpty_iff_length_eq_zero, hLength]
  omega

theorem lines_grid
    (hSome : 0 < table.scope.length)
    {outer : Nat}
    (hOuter : outer < MixedRadix.count table.outerSizes) :
    (table.grid outer).lines showEntry =
      table.gridLines
        (MixedRadix.decode table.outerSizes outer) := by
  have hLabel := MixedRadix.within_decode hOuter
  have hNumber := MixedRadix.encode_decode hOuter
  have hRows :
      ((table.grid outer).rows.map fun row =>
        String.join (row.map fun value =>
          " " ++ showEntry value)) =
        (List.range table.rowCount).map fun row =>
          rowLine ((List.range table.columnCount).map
            fun column => table.entry
              (MixedRadix.decode table.outerSizes outer)
              row column) := by
    rw [grid, List.map_map]
    apply List.map_congr_left
    intro row hRow
    apply congrArg rowLine
    apply List.map_congr_left
    intro column hColumn
    rw [entry, (within_position hSome
      (List.mem_range.mp hRow) (List.mem_range.mp hColumn)
      hLabel).2, hNumber]
  rw [Grid.lines, hRows, gridLines]
  by_cases hThree : 3 ≤ table.scope.length
  · rw [if_pos hThree, if_neg]
    · rfl
    · exact fun hEmpty =>
        (isEmpty_label hLabel).mp hEmpty hThree
  · rw [if_neg hThree, if_pos]
    · rfl
    · exact (isEmpty_label hLabel).mpr hThree

/-
  What is printed of a table: a header, and a grid under each
  label. Rows are the values of the first variable, columns
  those of the second, and labels those of the others. Each
  value is printed once.
-/
structure Printed (table : Table Float) : Prop where
  shape :
    table.sizes =
      (table.rowCount :: table.columnCount ::
        table.outerSizes).take table.scope.length
  single : table.scope.length = 1 → table.columnCount = 1
  labelled : ∀ label,
    label ∈ table.labels ↔
      MixedRadix.Within table.outerSizes label
  ordered :
    table.labels.map (MixedRadix.encode table.outerSizes) =
      List.range (MixedRadix.count table.outerSizes)
  text :
    table.render =
      String.join
        ((table.header ::
          table.labels.flatMap table.gridLines).map
            fun line => line ++ "\n")
  entries : ∀ label ∈ table.labels,
    ∀ row < table.rowCount, ∀ column < table.columnCount,
      table.at? (table.position row column label) =
        .ok (table.entry label row column)
  once :
    (table.positions.map
      (MixedRadix.encode table.sizes)).Perm
        (List.range table.scope.count)
  guarded : Guarded.grids table = some table.grids

theorem shape_sizes (hSome : 0 < table.scope.length) :
    table.sizes =
        (table.rowCount :: table.columnCount ::
          table.outerSizes).take table.scope.length ∧
      (table.scope.length = 1 → table.columnCount = 1) := by
  have hSizes := sizes_ne_nil hSome
  rw [← length_sizes, rowCount, columnCount, outerSizes]
  match table.sizes, hSizes with
  | [_], _ => exact ⟨rfl, fun _ => rfl⟩
  | _ :: _ :: outer, _ => simp

theorem lines_eq (hSome : 0 < table.scope.length) :
    table.lines =
      table.header ::
        table.labels.flatMap table.gridLines := by
  have hScope : table.scope.isEmpty = false := by
    rw [Scope.isEmpty, List.isEmpty_eq_false_iff,
      ← List.length_pos_iff]
    exact hSome
  have hGrids :
      table.grids.flatMap (Grid.lines showEntry) =
        table.labels.flatMap table.gridLines := by
    rw [grids, labels, List.flatMap_map, List.flatMap_map]
    apply List.flatMap_congr
    intro outer hOuter
    exact lines_grid hSome (List.mem_range.mp hOuter)
  rw [lines, hScope, hGrids]
  rfl

theorem printed (hSome : 0 < table.scope.length) :
    table.Printed := by
  rcases shape_sizes hSome with ⟨hShape, hSingle⟩
  refine
    { shape := hShape
      single := hSingle
      labelled := fun _ => mem_labels_iff
      ordered := ?_
      text := ?_
      entries := ?_
      once := perm_positions hSome
      guarded := Guarded.grids_eq hSome }
  · rw [labels, List.map_map]
    conv_rhs =>
      rw [← List.map_id
        (List.range (MixedRadix.count table.outerSizes))]
    apply List.map_congr_left
    intro outer hOuter
    exact MixedRadix.encode_decode (List.mem_range.mp hOuter)
  · rw [render, lines_eq hSome]
  · intro label hLabel row hRow column hColumn
    rcases within_position hSome hRow hColumn
        (mem_labels_iff.mp hLabel) with
      ⟨hWithin, _⟩
    rw [at?, Scope.encode?_of_within hWithin]
    rfl

/- Three variables of two values each. -/
def cube : Table Float where
  scope :=
    ⟨[⟨1, 2, Nat.two_pos⟩, ⟨2, 2, Nat.two_pos⟩,
      ⟨3, 2, Nat.two_pos⟩], by decide⟩
  values := #[0, 1, 2, 3, 4, 5, 6, 7]
  size_eq := rfl

/- Two grids; the value at digits one, zero, one is five. -/
theorem printed_cube :
    0 < cube.scope.length ∧ cube.Printed ∧
      cube.labels = [[0], [1]] ∧
      cube.position 1 0 [1] = [1, 0, 1] ∧
      cube.lines =
        ["DiscreteFunction over [1, 2, 3] (sizes [2, 2, 2])",
          "(:,:,0) =",
          "     0.0000     2.0000",
          "     1.0000     3.0000",
          "(:,:,1) =",
          "     4.0000     6.0000",
          "     5.0000     7.0000"] :=
  ⟨by decide, printed (by decide), by decide, by decide,
    by decide +kernel⟩

end Table

end JointMax
