/-
  The numbers that tables hold. Everything above this module
  is written against `Scalar`, which names the operations a
  table needs and assumes no law about them, so the same
  definitions run on IEEE doubles and are reasoned about on
  exact rationals or on arbitrary operations.

  Key definitions include:
    * `Scalar` and its instances for `Float` and `Rat`
    * `Extremes`, for scalars with two infinities
    * `laneSum`, the summation order of whole-table sums
-/

------------------------------------------------------------
-- Scalar Operations
------------------------------------------------------------

namespace JointMax

/-
  The operations on the values of a table. `larger` and
  `smaller` ignore an operand that is not a number; `lt`,
  `le` and `same` are false when either operand is not a
  number.
-/
class Scalar (α : Type) extends
    Add α, Sub α, Mul α, Div α, Neg α where
  ofNat : Nat → α
  abs : α → α
  larger : α → α → α
  smaller : α → α → α
  lt : α → α → Bool
  le : α → α → Bool
  same : α → α → Bool
  isNaN : α → Bool

/- Scalars with a value above and a value below all others. -/
class Extremes (α : Type) where
  top : α
  bottom : α

namespace Scalar

variable {α : Type} [Scalar α]

def zero : α := ofNat 0

def one : α := ofNat 1

end Scalar

/- IEEE doubles. -/
instance : Scalar Float where
  ofNat := Float.ofNat
  abs := Float.abs
  larger := fun a b =>
    if a.isNaN then b
    else if b.isNaN then a
    else if a < b then b
    else a
  smaller := fun a b =>
    if a.isNaN then b
    else if b.isNaN then a
    else if b < a then b
    else a
  lt := fun a b => decide (a < b)
  le := fun a b => decide (a ≤ b)
  same := fun a b => a == b
  isNaN := Float.isNaN

instance : Extremes Float where
  top := 1.0 / 0.0
  bottom := -1.0 / 0.0

/- Exact rationals. -/
instance : Scalar Rat where
  ofNat := fun n => (n : Rat)
  abs := fun a => if a < 0 then -a else a
  larger := fun a b => if a < b then b else a
  smaller := fun a b => if b < a then b else a
  lt := fun a b => decide (a < b)
  le := fun a b => decide (a ≤ b)
  same := fun a b => decide (a = b)
  isNaN := fun _ => false

end JointMax

------------------------------------------------------------
-- Sum in Eight Lanes
------------------------------------------------------------

namespace JointMax

variable {α : Type} [Scalar α]

/- Eight running sums, each fed every eighth value. -/
structure Lanes (α : Type) where
  s0 : α
  s1 : α
  s2 : α
  s3 : α
  s4 : α
  s5 : α
  s6 : α
  s7 : α

namespace Lanes

/- Every lane starts at zero. -/
def start : Lanes α :=
  ⟨Scalar.zero, Scalar.zero, Scalar.zero, Scalar.zero,
    Scalar.zero, Scalar.zero, Scalar.zero, Scalar.zero⟩

/-
  Feed whole blocks of eight, and return the lanes with the
  at most seven values left over.
-/
def feed : Lanes α → List α → Lanes α × List α
  | l, x0 :: x1 :: x2 :: x3 :: x4 :: x5 :: x6 :: x7 :: rest =>
      feed
        ⟨l.s0 + x0, l.s1 + x1, l.s2 + x2, l.s3 + x3,
          l.s4 + x4, l.s5 + x5, l.s6 + x6, l.s7 + x7⟩
        rest
  | l, rest => (l, rest)

/- Lanes are added in pairs four apart, onto zero. -/
def total (l : Lanes α) : α :=
  Scalar.zero + (l.s0 + l.s4) + (l.s1 + l.s5) +
    (l.s2 + l.s6) + (l.s3 + l.s7)

end Lanes

/-
  The sum of a list: the lanes' total, then the left-over
  values in order.
-/
def laneSum (xs : List α) : α :=
  let (lanes, rest) := Lanes.start.feed xs
  rest.foldl (· + ·) lanes.total

end JointMax
