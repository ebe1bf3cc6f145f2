import JointMax.Scalar

/-
  Parameters of a run, and what a run reports.

  Key definitions include:
    * `Config`, with `Config.standard` and
      `Config.sequential`
    * `RunStats`
-/

namespace JointMax

/-
  Bounds of a run. `parallel` allows messages of one sweep to
  be computed side by side; no result depends on it.
-/
structure Config (α : Type) where
  maxIterations : Nat
  tolerance : α
  parallel : Bool
deriving DecidableEq

namespace Config

def ofBounds {α : Type} (maxIterations : Nat) (tolerance : α) :
    Config α :=
  ⟨maxIterations, tolerance, true⟩

/- At most a hundred sweeps. -/
def standard : Config Float := ofBounds 100 1e-7

def sequential : Config Float :=
  { standard with parallel := false }

end Config

/-
  Outcome of a run: the number of sweeps, whether beliefs
  settled within them, and the largest change in the last.
-/
structure RunStats (α : Type) where
  iterations : Nat
  converged : Bool
  maxDelta : α
deriving DecidableEq

end JointMax
