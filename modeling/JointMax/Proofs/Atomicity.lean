import Mathlib
import JointMax.Fault

/-
  Programs that change a state piece by piece and may break
  off with a fault. What such a program did before it broke
  off stays done, unless it makes all its checks before its
  first change. Then it changes the state as a function does
  that returns a state or a fault.

  Main declarations:
    * `InPlace` and `InPlace.outcome`
    * `InPlace.concluded`
    * `InPlace.Atomic` and `InPlace.atomic_of_concluded`
    * `InWords`, with the like for programs that count in
      words
-/

------------------------------------------------------------
-- Programs in Place
------------------------------------------------------------

namespace JointMax

/- Programs over a state that may break off. -/
abbrev InPlace (σ : Type) :=
  ExceptT Fault (StateM σ)

namespace InPlace

variable {σ : Type} {here : σ}

def change (f : σ → σ) : InPlace σ Unit :=
  modify f

/- How a program ends from a state, and in which state. -/
def outcome (program : InPlace σ Unit) (here : σ) :
    Except Fault Unit × σ :=
  program.run.run here

theorem outcome_get_bind (next : σ → InPlace σ Unit) :
    outcome (do let found ← get; next found) here =
      outcome (next here) here :=
  rfl

/- A refusal ends the program and changes nothing. -/
theorem outcome_lift_bind
    {β : Type}
    (answer : Except Fault β)
    (next : β → InPlace σ Unit) :
    outcome (do let found ← answer; next found) here =
      match answer with
      | .ok found => outcome (next found) here
      | .error fault => (.error fault, here) := by
  cases answer with
  | ok found => rfl
  | error fault => rfl

theorem outcome_bind (first next : InPlace σ Unit) :
    outcome (do first; next) here =
      match outcome first here with
      | (.ok _, there) => outcome next there
      | (.error fault, there) => (.error fault, there) := by
  unfold outcome
  rw [ExceptT.run_bind, StateT.run_bind]
  rcases first.run.run here with ⟨_ | _, there⟩
  · rfl
  · rfl

end InPlace

end JointMax

------------------------------------------------------------
-- All or Nothing
------------------------------------------------------------

namespace JointMax

namespace InPlace

variable {σ : Type} {here there : σ} {fault : Fault}

/-
  How a program ends that takes a new state as a whole, or
  else leaves the state as it was.
-/
def concluded (here : σ) :
    Except Fault σ → Except Fault Unit × σ
  | .ok next => (.ok (), next)
  | .error fault => (.error fault, here)

/- A program that breaks off has changed nothing. -/
def Atomic (program : InPlace σ Unit) : Prop :=
  ∀ here fault there,
    outcome program here = (.error fault, there) →
      there = here

theorem atomic_throw (fault : Fault) :
    Atomic (throw fault : InPlace σ Unit) := by
  intro here found there hEnd
  change (Except.error fault, here) = _ at hEnd
  cases hEnd
  rfl

theorem atomic_of_concluded
    {program : InPlace σ Unit}
    {answer : σ → Except Fault σ}
    (hOutcome : ∀ here,
      outcome program here = concluded here (answer here)) :
    Atomic program := by
  intro here fault there hEnd
  rw [hOutcome] at hEnd
  cases hAnswer : answer here with
  | ok next =>
      rw [hAnswer] at hEnd
      cases hEnd
  | error found =>
      rw [hAnswer] at hEnd
      cases hEnd
      rfl

end InPlace

end JointMax

------------------------------------------------------------
-- Programs That Count in Words
------------------------------------------------------------

namespace JointMax

/-
  Programs over a state that may end with a fault, and whose
  arithmetic may break off and leave no state at all.
-/
abbrev InWords (σ : Type) :=
  ExceptT Fault (StateT σ Option)

namespace InWords

variable {σ : Type} {here : σ}

def change (f : σ → σ) : InWords σ Unit :=
  modify f

/- Take over what is counted elsewhere. -/
def counted
    {β : Type}
    (answer : Option (Except Fault β)) : InWords σ β :=
  ExceptT.mk (StateT.lift answer)

def outcome (program : InWords σ Unit) (here : σ) :
    Option (Except Fault Unit × σ) :=
  program.run.run here

theorem outcome_get_bind (next : σ → InWords σ Unit) :
    outcome (do let found ← get; next found) here =
      outcome (next here) here :=
  rfl

theorem outcome_counted_bind
    {β : Type}
    (answer : Option (Except Fault β))
    (next : β → InWords σ Unit) :
    outcome (do let found ← counted answer; next found)
        here =
      match answer with
      | some (.ok found) => outcome (next found) here
      | some (.error fault) => some (.error fault, here)
      | none => none := by
  rcases answer with _ | _ | _ <;> rfl

theorem outcome_lift_bind
    {β : Type}
    (answer : Except Fault β)
    (next : β → InWords σ Unit) :
    outcome (do let found ← answer; next found) here =
      match answer with
      | .ok found => outcome (next found) here
      | .error fault => some (.error fault, here) := by
  cases answer <;> rfl

theorem outcome_bind (first next : InWords σ Unit) :
    outcome (do first; next) here =
      match outcome first here with
      | some (.ok _, there) => outcome next there
      | some (.error fault, there) =>
          some (.error fault, there)
      | none => none := by
  unfold outcome
  rw [ExceptT.run_bind, StateT.run_bind]
  rcases first.run.run here with _ | ⟨_ | _, there⟩ <;> rfl

/- A program that ends with a fault has changed nothing. -/
def Atomic (program : InWords σ Unit) : Prop :=
  ∀ here fault there,
    outcome program here = some (.error fault, there) →
      there = here

theorem atomic_of_concluded
    {program : InWords σ Unit}
    {answer : σ → Option (Except Fault σ)}
    (hOutcome : ∀ here,
      outcome program here =
        (answer here).map (InPlace.concluded here)) :
    Atomic program := by
  intro here fault there hEnd
  rw [hOutcome] at hEnd
  rcases Option.map_eq_some_iff.mp hEnd with
    ⟨_ | _, _, hConcluded⟩
  · cases hConcluded
    rfl
  · cases hConcluded

end InWords

end JointMax
