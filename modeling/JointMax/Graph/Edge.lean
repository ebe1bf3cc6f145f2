import JointMax.Fault
import Std.Data.ExtTreeMap

/-
  Edges of a factor graph, ordered by their factor and then
  by their variable.

  Key definitions include:
    * `Edge`
    * `Edge.order`, a lawful linear order
-/

------------------------------------------------------------
-- Edges
------------------------------------------------------------

namespace JointMax

/- A factor and a variable that it depends on. -/
structure Edge where
  factor : FactorId
  var : VarId
deriving DecidableEq, Repr

namespace Edge

/- Compare factors first. -/
def order (left right : Edge) : Ordering :=
  (compare left.factor right.factor).then
    (compare left.var right.var)

instance : Std.TransCmp Edge.order :=
  inferInstanceAs (Std.TransCmp
    (compareLex (compareOn Edge.factor)
      (compareOn Edge.var)))

instance : Std.LawfulEqCmp Edge.order where
  eq_of_compare := by
    intro left right hOrder
    rcases left with ⟨leftFactor, leftVar⟩
    rcases right with ⟨rightFactor, rightVar⟩
    simp only [order, Ordering.then_eq_eq,
      Std.compare_eq_iff_eq] at hOrder
    rw [hOrder.1, hOrder.2]

end Edge

end JointMax
