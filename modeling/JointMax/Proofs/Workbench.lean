import Mathlib
import JointMax.Proofs.Makings

/-
  A workbench: numbered slots with tables in them, and steps
  that make tables from what lies there. A refused step
  changes nothing. Whatever has been done, every scope and
  every table on it is well formed. Scopes and tables carry
  the proof of this with them; that the bare lists and arrays
  deserve it, at every step, is what the checked run shows.
  None of its checks fails, as long as the numbers of joint
  values are machine words.

  Main declarations:
    * `Bench`, `Bench.Shape`, `Bench.Making`, `Bench.Step`
    * `Bench.result?` and `Bench.afterAll`
    * `Guarded.result` and `Guarded.afterAll`, with all
      checks
    * `Scope.WellFormed` and `Table.WellFormed`
    * `Bench.safe_afterAll`
-/

------------------------------------------------------------
-- Well-Formedness
------------------------------------------------------------

namespace JointMax

/- What the stored lists of a scope are like. -/
structure Scope.WellFormed (scope : Scope) : Prop where
  increasing : Increasing scope.vars
  aligned : scope.sizes.length = scope.vars.length
  positive : ∀ size ∈ scope.sizes, 1 ≤ size

/- What the stored values of a table are like. -/
structure Table.WellFormed
    {α : Type}
    (table : Table α) : Prop where
  scope : table.scope.WellFormed
  counted : table.values.size = table.sizes.prod
  inhabited : 1 ≤ table.values.size
  constant : table.vars = [] → table.values.size = 1

theorem Scope.wellFormed (scope : Scope) :
    scope.WellFormed where
  increasing := scope.increasing_vars
  aligned := by simp [sizes, vars]
  positive := by
    simpa [sizes] using fun axis _ => axis.size_pos

theorem Table.wellFormed
    {α : Type}
    (table : Table α) :
    table.WellFormed where
  scope := table.scope.wellFormed
  counted := by
    rw [table.size_eq]
    exact MixedRadix.count_eq_prod table.sizes
  inhabited := by
    rw [table.size_eq]
    exact table.scope.count_pos
  constant := by
    intro hVars
    have hAxes : table.scope.axes = [] :=
      List.map_eq_nil_iff.mp hVars
    rw [table.size_eq, Scope.count, Scope.sizes, hAxes]
    rfl

end JointMax

------------------------------------------------------------
-- Steps
------------------------------------------------------------

namespace JointMax

/- Numbered slots, each with a table or empty. -/
abbrev Bench (α : Type) := Nat → Option (Table α)

namespace Bench

/-
  The ways to give a scope: listed, looked up, taken from a
  table, or formed from two others.
-/
inductive Shape where
  | parts (vars : List VarId) (sizes : List Nat)
  | registered (registry : Registry) (vars : List VarId)
  | single (registry : Registry) (var : VarId)
  | ofTable (place : Nat)
  | union (first second : Shape)

/-
  The ways to make a table. Arithmetic of two tables is a
  pairing, arithmetic with a scalar and the elementary
  functions are maps, and a table changes in its place when
  the result is put into its own slot.
-/
inductive Making (α : Type) where
  | constant (value : α)
  | source (shape : Shape) (source : Source α)
  | decode (bytes : Bytes)
  | copy (place : Nat)
  | revise (place : Nat) (revision : Revision α)
  | expand (place : Nat) (shape : Shape)
  | expandVar
      (place : Nat) (registry : Registry) (var : VarId)
  | pair (pairing : Pairing α) (left right : Nat)
  | addAll (total : Nat) (others : List Nat)

/- A table is made and put into a slot, or slots change places. -/
inductive Step (α : Type) where
  | make (place : Nat) (making : Making α)
  | swap (first second : Nat)

def empty {α : Type} : Bench α := fun _ => none

def store {α : Type}
    (bench : Bench α)
    (place : Nat)
    (table : Table α) : Bench α :=
  Function.update bench place (some table)

def exchange {α : Type}
    (bench : Bench α)
    (first second : Nat) : Bench α :=
  bench ∘ Equiv.swap first second

def fetch? {α : Type}
    (bench : Bench α)
    (place : Nat) : Except Refusal (Table α) :=
  match bench place with
  | some table => .ok table
  | none => .error (.vacant place)

def form? {α : Type} (bench : Bench α) :
    Shape → Except Refusal Scope
  | .parts vars sizes => judged (Scope.ofParts? vars sizes)
  | .registered registry vars =>
      judged (Scope.ofVars? registry vars)
  | .single registry var =>
      judged (Scope.ofVar? registry var)
  | .ofTable place => (bench.fetch? place).map Table.scope
  | .union first second => do
      let left ← bench.form? first
      let right ← bench.form? second
      judged (left.union? right)

variable {α : Type} [Scalar α] [Binary64 α]

def result? (bench : Bench α) :
    Making α → Except Refusal (Table α)
  | .constant value => .ok (Table.constant value)
  | .source shape source => do
      let scope ← bench.form? shape
      judged (source.table? scope)
  | .decode bytes =>
      (Table.decode? bytes).mapError .unreadable
  | .copy place => bench.fetch? place
  | .revise place revision => do
      let table ← bench.fetch? place
      revision.result? table
  | .expand place shape => do
      let table ← bench.fetch? place
      let scope ← bench.form? shape
      judged (table.expand? scope)
  | .expandVar place registry var => do
      let table ← bench.fetch? place
      judged (table.expandVar? registry var)
  | .pair pairing left right => do
      let first ← bench.fetch? left
      let second ← bench.fetch? right
      judged (pairing.result? first second)
  | .addAll total others => do
      let first ← bench.fetch? total
      let tables ← others.mapM bench.fetch?
      judged (first.addAll? tables)

def after (bench : Bench α) : Step α → Bench α
  | .make place making =>
      match bench.result? making with
      | .ok table => bench.store place table
      | .error _ => bench
  | .swap first second => bench.exchange first second

def afterAll (bench : Bench α) (steps : List (Step α)) :
    Bench α :=
  steps.foldl after bench

end Bench

end JointMax

------------------------------------------------------------
-- Checked Steps
------------------------------------------------------------

namespace JointMax

namespace Guarded

/- Go on with a result, unless it was refused. -/
def andThen
    {ε β γ : Type}
    (first : Option (Except ε β))
    (next : β → Option (Except ε γ)) :
    Option (Except ε γ) := do
  match ← first with
  | .ok value => next value
  | .error cause => return .error cause

theorem andThen_eq
    {ε β γ : Type}
    {first : Option (Except ε β)}
    {next : β → Option (Except ε γ)}
    {found : Except ε β}
    {follow : β → Except ε γ}
    (hFirst : first = some found)
    (hNext : ∀ value, found = .ok value →
      next value = some (follow value)) :
    andThen first next = some (found >>= follow) := by
  subst hFirst
  cases found with
  | error cause => rfl
  | ok value => exact hNext value rfl

def form {α : Type} (bench : Bench α) :
    Bench.Shape → Option (Except Refusal Scope)
  | .parts vars sizes =>
      some (judged (Scope.ofParts? vars sizes))
  | .registered registry vars =>
      (ofVars registry vars).map judged
  | .single registry var =>
      (ofVar registry var).map judged
  | .ofTable place =>
      some ((bench.fetch? place).map Table.scope)
  | .union first second =>
      andThen (form bench first) fun left =>
        andThen (form bench second) fun right =>
          (union left right).map judged

theorem form_eq
    {α : Type}
    (bench : Bench α)
    (shape : Bench.Shape) :
    form bench shape = some (bench.form? shape) := by
  induction shape with
  | parts vars sizes => rfl
  | registered registry vars =>
      rw [form, ofVars_eq]
      rfl
  | single registry var =>
      rw [form, ofVar_eq]
      rfl
  | ofTable place => rfl
  | union first second ihFirst ihSecond =>
      apply andThen_eq ihFirst
      intro left _
      apply andThen_eq ihSecond
      intro right _
      rw [union_eq]
      rfl

variable {α : Type} [Scalar α] [Binary64 α]

/- The registry is not read if the variable is there. -/
def expandVar
    (table : Table α)
    (registry : Registry)
    (var : VarId) : Option (Except Fault (Table α)) :=
  if table.dependsOn var then
    some (.ok table)
  else
    andThen (ofVar registry var) (expand table)

def result (bench : Bench α) :
    Bench.Making α → Option (Except Refusal (Table α))
  | .constant value =>
      (pack Scope.empty #[value]).map .ok
  | .source shape kind =>
      andThen (form bench shape) fun scope =>
        (source scope kind).map judged
  | .decode bytes =>
      (decode bytes).map (Except.mapError .unreadable)
  | .copy place =>
      andThen (some (bench.fetch? place)) fun table =>
        (pack table.scope table.values).map .ok
  | .revise place revision =>
      andThen (some (bench.fetch? place)) fun table =>
        revise table revision
  | .expand place shape =>
      andThen (some (bench.fetch? place)) fun table =>
        andThen (form bench shape) fun scope =>
          (expand table scope).map judged
  | .expandVar place registry var =>
      andThen (some (bench.fetch? place)) fun table =>
        (expandVar table registry var).map judged
  | .pair pairing left right =>
      andThen (some (bench.fetch? left)) fun first =>
        andThen (some (bench.fetch? right)) fun second =>
          (pair first second pairing).map judged
  | .addAll total others =>
      andThen (some (bench.fetch? total)) fun first =>
        andThen (some (others.mapM bench.fetch?))
          fun tables =>
            (addAll first tables).map judged

def after (bench : Bench α) :
    Bench.Step α → Option (Bench α)
  | .make place making => do
      match ← result bench making with
      | .ok table => return bench.store place table
      | .error _ => return bench
  | .swap first second => some (bench.exchange first second)

def afterAll (bench : Bench α) (steps : List (Bench.Step α)) :
    Option (Bench α) :=
  steps.foldlM after bench

end Guarded

end JointMax

------------------------------------------------------------
-- Numbers of Joint Values
------------------------------------------------------------

namespace JointMax

namespace Bench

variable {α : Type} [Scalar α] [Binary64 α]

/- The scope that a making works towards. -/
def target? (bench : Bench α) :
    Making α → Except Refusal Scope
  | .constant _ => .ok Scope.empty
  | .source shape _ => bench.form? shape
  | .decode bytes =>
      ((Table.readParts bytes :
          Except WireFault ((Scope × Array α) × Bytes)).map
        fun found => found.1.1).mapError .unreadable
  | .copy place => (bench.fetch? place).map Table.scope
  | .revise place _ =>
      (bench.fetch? place).map Table.scope
  | .expand place shape => do
      let table ← bench.fetch? place
      let scope ← bench.form? shape
      judged (table.scope.union? scope)
  | .expandVar place registry var => do
      let table ← bench.fetch? place
      if table.dependsOn var then
        return table.scope
      else
        judged
          (Scope.ofVar? registry var >>= table.scope.union?)
  | .pair pairing left right => do
      let first ← bench.fetch? left
      let second ← bench.fetch? right
      judged (pairing.target? first.scope second.scope)
  | .addAll total others => do
      let first ← bench.fetch? total
      let tables ← others.mapM bench.fetch?
      judged
        (first.scope.unionAll? (tables.map Table.scope))

/- The number of joint values is a machine word. -/
def Fits (bench : Bench α) (making : Making α) : Prop :=
  ∀ scope, bench.target? making = .ok scope →
    scope.count < wordLimit

/- What each step works towards at its turn fits. -/
def AllFit : Bench α → List (Step α) → Prop
  | _, [] => True
  | bench, .make place making :: steps =>
      bench.Fits making ∧
        AllFit (bench.after (.make place making)) steps
  | bench, .swap first second :: steps =>
      AllFit (bench.after (.swap first second)) steps

instance
    (bench : Bench α)
    (making : Making α) :
    Decidable (bench.Fits making) :=
  match hTarget : bench.target? making with
  | .ok scope =>
      decidable_of_iff (scope.count < wordLimit)
        (by simp [Fits, hTarget])
  | .error _ => .isTrue (by simp [Fits, hTarget])

instance decidableAllFit :
    (bench : Bench α) → (steps : List (Step α)) →
      Decidable (bench.AllFit steps)
  | _, [] => .isTrue trivial
  | bench, .make place making :: steps =>
      have := decidableAllFit
        (bench.after (.make place making)) steps
      inferInstanceAs (Decidable (_ ∧ _))
  | bench, .swap first second :: steps =>
      decidableAllFit (bench.after (.swap first second)) steps

/- Every table on the bench fits. -/
def InWords (bench : Bench α) : Prop :=
  ∀ place table, bench place = some table →
    table.scope.count < wordLimit

end Bench

end JointMax

------------------------------------------------------------
-- Scopes of What Is Made
------------------------------------------------------------

namespace JointMax

namespace Bench

variable {α : Type} [Scalar α] [Binary64 α]
variable {bench : Bench α} {making : Making α}
variable {table : Table α}

omit [Scalar α] [Binary64 α] in
theorem eq_some_of_fetch?
    {place : Nat}
    (hFetch : bench.fetch? place = .ok table) :
    bench place = some table := by
  unfold fetch? at hFetch
  split at hFetch
  · rename_i found hFound
    cases hFetch
    exact hFound
  · cases hFetch

/- Nothing is made over more than the scope worked towards. -/
theorem includes_of_result?
    (hResult : bench.result? making = .ok table) :
    ∃ scope,
      bench.target? making = .ok scope ∧
        scope.includes table.scope = true := by
  have hSame : bench.target? making = .ok table.scope →
      ∃ scope,
        bench.target? making = .ok scope ∧
          scope.includes table.scope = true :=
    fun hTarget =>
      ⟨_, hTarget, Scope.includes_self table.scope⟩
  cases making with
  | constant value =>
      cases hResult
      exact hSame rfl
  | source shape source =>
      rcases exists_of_bind_eq_ok hResult with
        ⟨scope, hScope, hMade⟩
      apply hSame
      rw [target?, hScope,
        Source.scope_of_table? (eq_ok_of_mapError hMade)]
  | decode bytes =>
      rcases Table.exists_of_decode?
          (eq_ok_of_mapError hResult) with
        ⟨values, rest, hParts⟩
      apply hSame
      rw [target?, hParts]
      rfl
  | copy place =>
      change bench.fetch? place = .ok table at hResult
      apply hSame
      rw [target?, hResult]
      rfl
  | revise place revision =>
      rcases exists_of_bind_eq_ok hResult with
        ⟨old, hOld, hMade⟩
      refine ⟨old.scope, ?_,
        Revision.includes_of_result? hMade⟩
      rw [target?, hOld]
      rfl
  | expand place shape =>
      rcases exists_of_bind_eq_ok hResult with
        ⟨old, hOld, hRest⟩
      rcases exists_of_bind_eq_ok hRest with
        ⟨scope, hScope, hMade⟩
      apply hSame
      simp only [target?, hOld, hScope]
      exact congrArg judged
        (Table.scope_of_expand? (eq_ok_of_mapError hMade))
  | expandVar place registry var =>
      rcases exists_of_bind_eq_ok hResult with
        ⟨old, hOld, hRest⟩
      have hMade := eq_ok_of_mapError hRest
      apply hSame
      simp only [target?, hOld]
      change (if old.dependsOn var = true then _ else _) = _
      split
      · rename_i hDepends
        rw [Table.expandVar?, if_pos hDepends] at hMade
        cases hMade
        rfl
      · rename_i hDepends
        exact congrArg judged
          (Table.scope_of_expandVar? hDepends hMade)
  | pair pairing left right =>
      rcases exists_of_bind_eq_ok hResult with
        ⟨first, hFirst, hRest⟩
      rcases exists_of_bind_eq_ok hRest with
        ⟨second, hSecond, hMade⟩
      apply hSame
      simp only [target?, hFirst, hSecond]
      exact congrArg judged
        (Pairing.scope_of_result? (eq_ok_of_mapError hMade))
  | addAll total others =>
      rcases exists_of_bind_eq_ok hResult with
        ⟨first, hFirst, hRest⟩
      rcases exists_of_bind_eq_ok hRest with
        ⟨tables, hTables, hMade⟩
      apply hSame
      simp only [target?, hFirst, hTables]
      exact congrArg judged
        (Table.scope_of_addAll? (eq_ok_of_mapError hMade))

end Bench

end JointMax

------------------------------------------------------------
-- Nothing Breaks Off
------------------------------------------------------------

namespace JointMax

namespace Guarded

variable {α : Type} [Scalar α] [Binary64 α]
variable {bench : Bench α}

omit [Binary64 α] in
theorem expandVar_eq
    {table : Table α}
    {registry : Registry}
    {var : VarId}
    (hWords : ¬ table.dependsOn var = true → ∀ union,
      Scope.ofVar? registry var >>= table.scope.union? =
          .ok union →
        union.count < wordLimit) :
    expandVar table registry var =
      some (table.expandVar? registry var) := by
  unfold expandVar Table.expandVar?
  split
  · rfl
  · rename_i hDepends
    rw [ofVar_eq]
    cases hScope : Scope.ofVar? registry var with
    | error fault => rfl
    | ok scope =>
        apply expand_eq
        intro union hUnion
        apply hWords hDepends
        rw [hScope]
        exact hUnion

/- A making does what it does without its checks. -/
theorem result_eq
    {making : Bench.Making α}
    (hBench : bench.InWords)
    (hFits : bench.Fits making) :
    result bench making = some (bench.result? making) := by
  have hWords : ∀ place table,
      bench.fetch? place = .ok table →
        table.scope.count < wordLimit :=
    fun place table hTable =>
      hBench place table (Bench.eq_some_of_fetch? hTable)
  cases making with
  | constant value =>
      exact congrArg (Option.map Except.ok)
        (pack_eq (Table.constant value))
  | source shape kind =>
      apply andThen_eq (form_eq bench shape)
      intro scope hScope
      rw [source_eq (hFits scope hScope)]
      rfl
  | decode bytes =>
      rw [result, decode_eq]
      · rfl
      · intro scope values rest hParts
        apply hFits
        rw [Bench.target?, hParts]
        rfl
  | copy place =>
      have hCopy :
          andThen (some (bench.fetch? place)) (fun table =>
              (pack table.scope table.values).map .ok) =
            some (bench.fetch? place >>= Except.ok) := by
        apply andThen_eq rfl
        intro table _
        rw [pack_eq]
        rfl
      rw [result, hCopy, Bench.result?]
      cases bench.fetch? place <;> rfl
  | revise place revision =>
      apply andThen_eq rfl
      intro table hTable
      exact revise_eq (hWords place table hTable) revision
  | expand place shape =>
      apply andThen_eq rfl
      intro table hTable
      apply andThen_eq (form_eq bench shape)
      intro scope hScope
      rw [expand_eq]
      · rfl
      · intro union hUnion
        apply hFits
        simp only [Bench.target?, hTable, hScope]
        exact congrArg judged hUnion
  | expandVar place registry var =>
      apply andThen_eq rfl
      intro table hTable
      rw [expandVar_eq]
      · rfl
      · intro hDepends union hUnion
        apply hFits
        simp only [Bench.target?, hTable]
        change (if table.dependsOn var = true then _ else _) = _
        rw [if_neg hDepends]
        exact congrArg judged hUnion
  | pair pairing left right =>
      apply andThen_eq rfl
      intro first hFirst
      apply andThen_eq rfl
      intro second hSecond
      rw [pair_eq (hWords left first hFirst)]
      · rfl
      · intro scope hScope
        apply hFits
        simp only [Bench.target?, hFirst, hSecond]
        exact congrArg judged hScope
  | addAll total others =>
      apply andThen_eq rfl
      intro first hFirst
      apply andThen_eq rfl
      intro tables hTables
      rw [addAll_eq]
      · rfl
      · intro union hUnion
        apply hFits
        simp only [Bench.target?, hFirst, hTables]
        exact congrArg judged hUnion

end Guarded

namespace Bench

variable {α : Type} [Scalar α] [Binary64 α]
variable {bench : Bench α}

omit [Scalar α] [Binary64 α] in
theorem inWords_empty : (empty : Bench α).InWords := by
  intro place table hTable
  cases hTable

/- A making that fits keeps everything on the bench in words. -/
theorem InWords.make
    {making : Making α}
    {place : Nat}
    (hBench : bench.InWords)
    (hFits : bench.Fits making) :
    (bench.after (.make place making)).InWords := by
  rw [after]
  split
  · rename_i made hMade
    rcases includes_of_result? hMade with
      ⟨scope, hScope, hIncludes⟩
    have hCount :=
      (Scope.count_le_of_includes hIncludes).trans_lt
        (hFits scope hScope)
    intro other table hTable
    unfold store at hTable
    by_cases hOther : other = place
    · subst hOther
      rw [Function.update_self] at hTable
      cases hTable
      exact hCount
    · rw [Function.update_of_ne hOther] at hTable
      exact hBench other table hTable
  · exact hBench

omit [Scalar α] [Binary64 α] in
theorem InWords.exchange
    (hBench : bench.InWords)
    (first second : Nat) :
    (bench.exchange first second).InWords :=
  fun place table hTable =>
    hBench (Equiv.swap first second place) table hTable

end Bench

namespace Guarded

variable {α : Type} [Scalar α] [Binary64 α]
variable {bench : Bench α}

/- No step of a run breaks off if every scope fits. -/
theorem afterAll_eq
    {steps : List (Bench.Step α)}
    (hBench : bench.InWords)
    (hFits : bench.AllFit steps) :
    afterAll bench steps = some (bench.afterAll steps) ∧
      (bench.afterAll steps).InWords := by
  induction steps generalizing bench with
  | nil => exact ⟨rfl, hBench⟩
  | cons step steps ih =>
      cases step with
      | make place making =>
          rcases hFits with ⟨hStep, hRest⟩
          have hNext :
              after bench (.make place making) =
                some (bench.after (.make place making)) := by
            rw [after, result_eq hBench hStep, Bench.after]
            cases bench.result? making <;> rfl
          rcases ih (hBench.make hStep) hRest with
            ⟨hRun, hWords⟩
          refine ⟨?_, hWords⟩
          rw [afterAll, List.foldlM_cons, hNext]
          exact hRun
      | swap first second =>
          exact ih (hBench.exchange first second) hFits

end Guarded

end JointMax

------------------------------------------------------------
-- Safety of Every Run
------------------------------------------------------------

namespace JointMax

namespace Bench

variable {α : Type} [Scalar α] [Binary64 α]

/-
  After any steps, refused or not, every table in a slot and
  every scope that can be given is well formed. If all that
  the steps worked towards fits in words, no check of the
  checked run has failed, and none fails in whatever fitting
  step comes next.
-/
theorem safe_afterAll (steps : List (Step α)) :
    let bench := (empty : Bench α).afterAll steps
    (∀ place table, bench place = some table →
      table.WellFormed) ∧
    (∀ shape scope, bench.form? shape = .ok scope →
      scope.WellFormed) ∧
    (∀ shape,
      Guarded.form bench shape =
        some (bench.form? shape)) ∧
    ((empty : Bench α).AllFit steps →
      Guarded.afterAll empty steps = some bench ∧
      ∀ making, bench.Fits making →
        Guarded.result bench making =
          some (bench.result? making)) := by
  intro bench
  refine ⟨fun _ table _ => table.wellFormed,
    fun _ scope _ => scope.wellFormed,
    Guarded.form_eq bench, ?_⟩
  intro hSteps
  rcases Guarded.afterAll_eq inWords_empty hSteps with
    ⟨hRun, hWords⟩
  exact ⟨hRun, fun making hFits =>
    Guarded.result_eq hWords hFits⟩

/-
  Two tables with the variable 2 in common, their sum, a
  slice of it, and a union that is refused.
-/
def slicedSum : List (Step Float) :=
  [ .make 0 (.source (.parts [1, 2] [2, 3]) (.filled 1)),
    .make 1 (.source (.parts [2, 3] [3, 2])
      (.computed fun digits => Float.ofNat digits.sum)),
    .make 2 (.pair (.zip (· + ·)) 0 1),
    .make 2 (.revise 2 (.condition [2] [1])),
    .make 3 (.expand 2 (.parts [1] [5])),
    .swap 0 2 ]

/- The run of these steps passes all checks. -/
theorem safe_afterAll_slicedSum :
    (empty : Bench Float).AllFit slicedSum ∧
      Guarded.afterAll empty slicedSum =
        some ((empty : Bench Float).afterAll slicedSum) := by
  have hFits : (empty : Bench Float).AllFit slicedSum := by
    decide +kernel
  exact ⟨hFits, ((safe_afterAll slicedSum).2.2.2 hFits).1⟩

end Bench

end JointMax
