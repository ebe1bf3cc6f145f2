import JointMax.Table.Combine

/-
  Elementary functions of tables of doubles, value by value.

  Key definitions include:
    * `Table.ln`, `Table.exp`, `Table.sin`, `Table.cos`,
      `Table.tan`
    * `Table.sqrt`, `Table.ceil`, `Table.floor`
    * `Table.powScalar` and `Table.pow?`
-/

------------------------------------------------------------
-- Functions of One Argument
------------------------------------------------------------

namespace JointMax

namespace Table

def ln (table : Table Float) : Table Float :=
  table.map Float.log

def exp (table : Table Float) : Table Float :=
  table.map Float.exp

def sin (table : Table Float) : Table Float :=
  table.map Float.sin

def cos (table : Table Float) : Table Float :=
  table.map Float.cos

def tan (table : Table Float) : Table Float :=
  table.map Float.tan

def sqrt (table : Table Float) : Table Float :=
  table.map Float.sqrt

def ceil (table : Table Float) : Table Float :=
  table.map Float.ceil

def floor (table : Table Float) : Table Float :=
  table.map Float.floor

end Table

end JointMax

------------------------------------------------------------
-- Powers
------------------------------------------------------------

namespace JointMax

namespace Table

/- Every value raised to one power. -/
def powScalar (table : Table Float) (exponent : Float) :
    Table Float :=
  table.map fun value => Float.pow value exponent

/- Powers by a table of exponents, over both scopes. -/
def pow? (base exponent : Table Float) :
    Except Fault (Table Float) :=
  zipWith? Float.pow base exponent

end Table

end JointMax
