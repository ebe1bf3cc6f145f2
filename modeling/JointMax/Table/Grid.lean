import JointMax.Table.Basic
import JointMax.Decimal.Shortest
import JointMax.Decimal.Fixed

/-
  Tables as text. A table is cut into grids, one for each
  joint value of the variables after the second; the first
  variable counts rows and the second columns.

  Key definitions include:
    * `Grid` and `Table.grids`
    * `Table.render`
-/

------------------------------------------------------------
-- Grids
------------------------------------------------------------

namespace JointMax

/-
  The values of one slice in rows and columns, labelled with
  the digits of the variables after the second.
-/
structure Grid (α : Type) where
  label : List Nat
  rows : List (List α)
deriving DecidableEq

namespace Table

variable {α : Type} [Scalar α]

/- Number of rows: the size of the first variable. -/
def rowCount (table : Table α) : Nat :=
  table.sizes.headD 1

/- Number of columns: the size of the second variable. -/
def columnCount (table : Table α) : Nat :=
  table.sizes.tail.headD 1

/- Sizes of the variables after the second. -/
def outerSizes (table : Table α) : List Nat :=
  table.sizes.drop 2

/- The grid under a number of the outer variables. -/
def grid (table : Table α) (outer : Nat) : Grid α where
  label := MixedRadix.decode table.outerSizes outer
  rows :=
    (List.range table.rowCount).map fun row =>
      (List.range table.columnCount).map fun column =>
        table.cell
          (row + table.rowCount *
            (column + table.columnCount * outer))

/- Every grid, in the order of the outer variables' values. -/
def grids (table : Table α) : List (Grid α) :=
  (List.range (MixedRadix.count table.outerSizes)).map
    table.grid

end Table

end JointMax

------------------------------------------------------------
-- Text
------------------------------------------------------------

namespace JointMax

namespace Grid

variable {α : Type}

/-
  Lines of a grid: its label, unless that is empty, and one
  line for each row, with a blank before each entry.
-/
def lines (entry : α → String) (grid : Grid α) :
    List String :=
  let rows :=
    grid.rows.map fun row =>
      String.join (row.map fun value => " " ++ entry value)
  if grid.label.isEmpty then
    rows
  else
    ("(:,:," ++ ",".intercalate (grid.label.map toString) ++
      ") =") :: rows

end Grid

namespace Table

/- Entries of a grid: four decimals in ten columns. -/
def showEntry (value : Float) : String :=
  Decimal.rightAligned 10 (Decimal.fixed 4 value)

def header (table : Table Float) : String :=
  "DiscreteFunction over " ++ showVars table.vars ++
    " (sizes " ++ showSizes table.sizes ++ ")"

/- Lines of a table. A constant is its shortest decimal. -/
def lines (table : Table Float) : List String :=
  if table.scope.isEmpty then
    [Decimal.shortest (table.cell 0)]
  else
    table.header ::
      table.grids.flatMap (Grid.lines showEntry)

/- The lines of a table, each with its end of line. -/
def render (table : Table Float) : String :=
  String.join (table.lines.map fun line => line ++ "\n")

end Table

end JointMax
