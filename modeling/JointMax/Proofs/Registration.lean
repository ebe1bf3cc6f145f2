import Mathlib
import JointMax.Proofs.Conformity
import JointMax.Proofs.Makings

/-
  A registry as it grows. A variable gets its size once, and
  keeps it through all further registrations, refused or not.
  So the scopes that are drawn from a registry, sooner or
  later, agree on the sizes of their variables, and no
  combination of tables over them is refused.

  Main declarations:
    * `Registry.Keeps` and `Registry.register_cases`
    * `Registry.Registered` and `Registry.registered_all`
    * `Registry.Entry` and `Registry.afterAll`
    * `Scope.ofVars?_eq_ok_iff` and
      `Scope.ofVars?_eq_error_iff`
    * `Scope.Drawn` and `Table.Drawn`
    * `Registry.steadfast_afterAll`
-/

------------------------------------------------------------
-- One Registration
------------------------------------------------------------

namespace JointMax

namespace Registry

variable {registry next : Registry}

theorem knows_iff {axis : Axis} :
    registry.Knows axis ↔
      registry.sizes[axis.var]? =
        some ⟨axis.size, axis.size_pos⟩ := by
  unfold Knows size?
  cases registry.sizes[axis.var]? <;> simp

/- A size that can be read makes a known axis. -/
theorem knows_of_size?
    {var : VarId}
    {size : { n : Nat // 0 < n }}
    (hSize : registry.size? var = .ok size) :
    registry.Knows ⟨var, size.val, size.property⟩ :=
  hSize

/- A registry is the set of the axes that it knows. -/
theorem eq_of_knows_iff
    (hKnows : ∀ axis,
      registry.Knows axis ↔ next.Knows axis) :
    registry = next := by
  have hSizes : registry.sizes = next.sizes := by
    apply Std.ExtTreeMap.ext_getElem?
    intro var
    apply Option.ext
    intro size
    have hAxis := hKnows ⟨var, size.val, size.property⟩
    rwa [knows_iff, knows_iff] at hAxis
  rcases registry with ⟨sizes⟩
  cases hSizes
  rfl

theorem isRegistered_of_knows
    {axis : Axis}
    (hKnows : registry.Knows axis) :
    registry.isRegistered axis.var = true := by
  rw [isRegistered,
    Std.ExtTreeMap.contains_eq_isSome_getElem?,
    knows_iff.mp hKnows]
  rfl

theorem size?_eq_error_iff {var : VarId} {fault : Fault} :
    registry.size? var = .error fault ↔
      fault = .unknownVariable var ∧
        registry.isRegistered var = false := by
  unfold size? isRegistered
  rw [Std.ExtTreeMap.contains_eq_isSome_getElem?]
  cases registry.sizes[var]? <;> simp [eq_comm]

/-
  A variable is registered, unless it has another size or the
  size is zero. The axes known before stay known.
-/
theorem register_cases
    (registry : Registry)
    (var : VarId)
    (size : Nat) :
    (∃ axis next,
      axis.var = var ∧ axis.size = size ∧
        registry.register var size = .ok next ∧
        ∀ known,
          next.Knows known ↔
            registry.Knows known ∨ known = axis) ∨
    (∃ known,
      registry.Knows known ∧ known.var = var ∧
        known.size ≠ size ∧ 0 < size ∧
        registry.register var size =
          .error (.sizeConflict var known.size size)) ∨
    (size = 0 ∧
      registry.register var size =
        .error (.zeroSize var)) := by
  rcases Nat.eq_zero_or_pos size with rfl | hPos
  · exact .inr (.inr ⟨rfl, rfl⟩)
  · simp only [register, dif_pos hPos]
    cases hOld : registry.sizes[var]? with
    | some old =>
        have hKnows :
            registry.Knows ⟨var, old.val, old.property⟩ :=
          knows_iff.mpr hOld
        by_cases hSame : old.val = size
        · refine .inl ⟨⟨var, old.val, old.property⟩, registry,
            rfl, hSame, by simp [hSame], ?_⟩
          intro known
          exact (or_iff_left_of_imp
            fun hKnown => hKnown ▸ hKnows).symm
        · exact .inr (.inl ⟨_, hKnows, rfl, hSame, hPos,
            by simp [hSame]⟩)
    | none =>
        refine .inl ⟨⟨var, size, hPos⟩, _, rfl, rfl, rfl, ?_⟩
        intro known
        rcases known with ⟨other, count, hCount⟩
        simp only [knows_iff, Std.ExtTreeMap.getElem?_insert,
          Std.compare_eq_iff_eq]
        by_cases hVar : var = other
        · subst hVar
          simp [hOld, eq_comm]
        · simp [hVar, Ne.symm hVar]

end Registry

end JointMax

------------------------------------------------------------
-- Registrations in a Row
------------------------------------------------------------

namespace JointMax

namespace Registry

variable {registry next last : Registry}

/- The later registry has every size that the earlier one has. -/
def Keeps (next registry : Registry) : Prop :=
  ∀ axis, registry.Knows axis → next.Knows axis

theorem Keeps.refl (registry : Registry) :
    registry.Keeps registry :=
  fun _ hKnown => hKnown

theorem Keeps.trans
    (hLast : last.Keeps next)
    (hNext : next.Keeps registry) :
    last.Keeps registry :=
  fun axis hKnown => hLast axis (hNext axis hKnown)

theorem keeps_of_register
    {var : VarId}
    {size : Nat}
    (hNext : registry.register var size = .ok next) :
    next.Keeps registry := by
  rcases registry.register_cases var size with
    ⟨axis, found, _, _, hFound, hKnows⟩ |
      ⟨_, _, _, _, _, hRefused⟩ | ⟨_, hRefused⟩
  · rw [hNext] at hFound
    cases hFound
    intro known hKnown
    exact (hKnows known).mpr (.inl hKnown)
  · rw [hNext] at hRefused
    cases hRefused
  · rw [hNext] at hRefused
    cases hRefused

/-
  What becomes of a registry with a list of pairs: the pairs
  before the first refusal are registered, and no others.
-/
structure Registered
    (registry : Registry)
    (kept refused : List (VarId × Nat))
    (next : Registry)
    (outcome : Option Fault) : Prop where
  knows : ∀ axis,
    next.Knows axis ↔
      registry.Knows axis ∨ (axis.var, axis.size) ∈ kept
  positive : ∀ pair ∈ kept, 0 < pair.2
  done : outcome = none → refused = []
  stopped : ∀ fault, outcome = some fault →
    ∃ var size later,
      refused = (var, size) :: later ∧
        next.register var size = .error fault

theorem mem_singleton_pair_iff
    {known axis : Axis} :
    (known.var, known.size) = (axis.var, axis.size) ↔
      known = axis := by
  rcases known with ⟨var, size, hPos⟩
  rcases axis with ⟨other, count, hCount⟩
  simp

theorem registered_all
    (registry : Registry)
    (pairs : List (VarId × Nat)) :
    ∃ kept refused,
      pairs = kept ++ refused ∧
        registry.Registered kept refused
          (registry.registerAll pairs).1
          (registry.registerAll pairs).2 := by
  induction pairs generalizing registry with
  | nil =>
      refine ⟨[], [], rfl, ?_, by simp, fun _ => rfl, ?_⟩
      · simp [registerAll]
      · intro fault hFault
        cases hFault
  | cons pair pairs ih =>
      rcases pair with ⟨var, size⟩
      have hRefused : ∀ fault,
          registry.register var size = .error fault →
            registry.registerAll ((var, size) :: pairs) =
              (registry, some fault) := by
        intro fault hFault
        simp only [registerAll, hFault]
      have hStop : ∀ fault,
          registry.register var size = .error fault →
            ∃ kept refused,
              (var, size) :: pairs = kept ++ refused ∧
                registry.Registered kept refused
                  registry (some fault) := by
        intro fault hFault
        refine ⟨[], (var, size) :: pairs, rfl, by simp,
          by simp, by simp, ?_⟩
        intro other hOther
        cases hOther
        exact ⟨var, size, pairs, rfl, hFault⟩
      rcases registry.register_cases var size with
        ⟨axis, next, rfl, rfl, hNext, hKnows⟩ |
          ⟨known, _, _, _, _, hFault⟩ | ⟨_, hFault⟩
      · rcases ih next with
          ⟨kept, refused, rfl, hRest⟩
        simp only [registerAll, hNext]
        refine ⟨(axis.var, axis.size) :: kept, refused, rfl,
          ?_, ?_, hRest.done, hRest.stopped⟩
        · intro known
          rw [hRest.knows, hKnows, List.mem_cons,
            mem_singleton_pair_iff, or_assoc]
        · exact List.forall_mem_cons.mpr
            ⟨axis.size_pos, hRest.positive⟩
      · rw [hRefused _ hFault]
        exact hStop _ hFault
      · rw [hRefused _ hFault]
        exact hStop _ hFault

theorem keeps_registerAll
    (registry : Registry)
    (pairs : List (VarId × Nat)) :
    (registry.registerAll pairs).1.Keeps registry := by
  rcases registry.registered_all pairs with
    ⟨_, _, _, hRegistered⟩
  intro axis hKnown
  exact (hRegistered.knows axis).mpr (.inl hKnown)

end Registry

end JointMax

------------------------------------------------------------
-- Histories
------------------------------------------------------------

namespace JointMax

namespace Registry

/- What may be done to a registry. -/
inductive Entry where
  | one (var : VarId) (size : Nat)
  | several (pairs : List (VarId × Nat))

/- A refused registration leaves the registry as it was. -/
def after (registry : Registry) : Entry → Registry
  | .one var size =>
      match registry.register var size with
      | .ok next => next
      | .error _ => registry
  | .several pairs => (registry.registerAll pairs).1

def afterAll
    (registry : Registry)
    (entries : List Entry) : Registry :=
  entries.foldl after registry

/- The registry as it is after the first so many entries. -/
def moment
    (registry : Registry)
    (entries : List Entry)
    (time : Nat) : Registry :=
  registry.afterAll (entries.take time)

/- The registry as it is at some time. -/
def Moment
    (registry : Registry)
    (entries : List Entry)
    (current : Registry) : Prop :=
  ∃ time, current = registry.moment entries time

theorem keeps_after
    (registry : Registry)
    (entry : Entry) :
    (registry.after entry).Keeps registry := by
  cases entry with
  | one var size =>
      rw [after]
      split
      · rename_i next hNext
        exact keeps_of_register hNext
      · exact Keeps.refl registry
  | several pairs => exact registry.keeps_registerAll pairs

theorem keeps_afterAll
    (registry : Registry)
    (entries : List Entry) :
    (registry.afterAll entries).Keeps registry := by
  induction entries generalizing registry with
  | nil => exact Keeps.refl registry
  | cons entry entries ih =>
      exact (ih (registry.after entry)).trans
        (registry.keeps_after entry)

theorem afterAll_append
    (registry : Registry)
    (early late : List Entry) :
    registry.afterAll (early ++ late) =
      (registry.afterAll early).afterAll late :=
  List.foldl_append

theorem keeps_moment
    (registry : Registry)
    (entries : List Entry)
    {early late : Nat}
    (hOrder : early ≤ late) :
    (registry.moment entries late).Keeps
      (registry.moment entries early) := by
  rcases Nat.exists_eq_add_of_le hOrder with ⟨more, rfl⟩
  unfold moment
  rw [List.take_add, afterAll_append]
  exact keeps_afterAll _ _

/- In the end the sizes of all times are known. -/
theorem Moment.keeps
    {registry current : Registry}
    {entries : List Entry}
    (hMoment : registry.Moment entries current) :
    (registry.afterAll entries).Keeps current := by
  rcases hMoment with ⟨time, rfl⟩
  have hWhole :
      registry.afterAll entries =
        (registry.moment entries time).afterAll
          (entries.drop time) := by
    rw [moment, ← afterAll_append, List.take_append_drop]
  rw [hWhole]
  exact keeps_afterAll _ _

end Registry

end JointMax

------------------------------------------------------------
-- Scopes of Registered Variables
------------------------------------------------------------

namespace JointMax

namespace Axis

/- Either all sizes are read, or the first stranger stops it. -/
theorem resolve?_cases
    (registry : Registry)
    (vars : List VarId) :
    (∃ axes,
      resolve? registry vars = .ok axes ∧
        axes.map var = vars ∧
        ∀ axis ∈ axes, registry.Knows axis) ∨
    ∃ before stranger later,
      vars = before ++ stranger :: later ∧
        registry.isRegistered stranger = false ∧
        (∀ known ∈ before,
          registry.isRegistered known = true) ∧
        resolve? registry vars =
          .error (.unknownVariable stranger) := by
  induction vars with
  | nil => exact .inl ⟨[], rfl, rfl, by simp⟩
  | cons first vars ih =>
      simp only [resolve?]
      cases hSize : registry.size? first with
      | error fault =>
          rcases Registry.size?_eq_error_iff.mp hSize with
            ⟨rfl, hStranger⟩
          exact .inr ⟨[], first, vars, rfl, hStranger,
            by simp, rfl⟩
      | ok size =>
          have hKnows := Registry.knows_of_size? hSize
          rcases ih with
            ⟨axes, hAxes, hVars, hKnown⟩ |
              ⟨before, stranger, later, hVars, hStranger,
                hKnown, hRefused⟩
          · refine .inl
              ⟨⟨first, size.val, size.property⟩ :: axes,
                ?_, by simp [hVars], ?_⟩
            · rw [hAxes]
              rfl
            · exact List.forall_mem_cons.mpr
                ⟨hKnows, hKnown⟩
          · refine .inr ⟨first :: before, stranger, later,
              by simp [hVars], hStranger, ?_, ?_⟩
            · exact List.forall_mem_cons.mpr
                ⟨Registry.isRegistered_of_knows hKnows,
                  hKnown⟩
            · rw [hRefused]
              rfl

end Axis

namespace Scope

variable {registry : Registry} {vars : List VarId}

theorem ofVars?_cases
    (registry : Registry)
    (vars : List VarId) :
    (∃ scope,
      ofVars? registry vars = .ok scope ∧
        scope.vars = sortVars vars ∧
        ∀ axis ∈ scope.axes, registry.Knows axis) ∨
    ∃ before stranger later,
      sortVars vars = before ++ stranger :: later ∧
        registry.isRegistered stranger = false ∧
        (∀ known ∈ before,
          registry.isRegistered known = true) ∧
        ofVars? registry vars =
          .error (.unknownVariable stranger) := by
  have hCases :=
    Axis.resolve?_cases registry (sortVars vars)
  unfold ofVars?
  split
  · rename_i axes hAxes
    rcases hCases with
      ⟨found, hFound, hVars, hKnows⟩ |
        ⟨_, _, _, _, _, _, hRefused⟩
    · rw [hAxes] at hFound
      cases hFound
      exact .inl ⟨_, rfl, hVars, hKnows⟩
    · rw [hAxes] at hRefused
      cases hRefused
  · rename_i fault hFault
    rcases hCases with
      ⟨_, hFound, _⟩ |
        ⟨before, stranger, later, hVars, hStranger, hKnown,
          hRefused⟩
    · rw [hFault] at hFound
      cases hFound
    · rw [hFault] at hRefused
      cases hRefused
      exact .inr ⟨before, stranger, later, hVars, hStranger,
        hKnown, rfl⟩

/- Known axes of the variables of a scope are its axes. -/
theorem mem_axes_of_knows
    {scope : Scope}
    {axis : Axis}
    (hScope : ∀ mine ∈ scope.axes, registry.Knows mine)
    (hAxis : registry.Knows axis)
    (hVar : axis.var ∈ scope.vars) :
    axis ∈ scope.axes := by
  rcases mem_vars_iff.mp hVar with ⟨mine, hMine, hSame⟩
  rw [hAxis.unique (hScope mine hMine) hSame.symm]
  exact hMine

theorem eq_of_knows
    {first second : Scope}
    (hFirst : ∀ axis ∈ first.axes, registry.Knows axis)
    (hSecond : ∀ axis ∈ second.axes, registry.Knows axis)
    (hVars : ∀ var, var ∈ first.vars ↔ var ∈ second.vars) :
    first = second := by
  apply eq_of_mem_iff
  intro axis
  constructor
  · intro hAxis
    exact mem_axes_of_knows hSecond (hFirst axis hAxis)
      ((hVars axis.var).mp (mem_vars hAxis))
  · intro hAxis
    exact mem_axes_of_knows hFirst (hSecond axis hAxis)
      ((hVars axis.var).mpr (mem_vars hAxis))

/- The scope of some variables is that of their known axes. -/
theorem ofVars?_eq_ok_iff {scope : Scope} :
    ofVars? registry vars = .ok scope ↔
      (∀ var, var ∈ scope.vars ↔ var ∈ vars) ∧
        ∀ axis ∈ scope.axes, registry.Knows axis := by
  rcases ofVars?_cases registry vars with
    ⟨found, hFound, hVars, hKnows⟩ |
      ⟨before, stranger, later, hVars, hStranger, hKnown,
        hRefused⟩
  · have hMember : ∀ var, var ∈ found.vars ↔ var ∈ vars := by
      intro var
      rw [hVars, mem_sortVars]
    rw [hFound]
    constructor
    · intro hSame
      cases hSame
      exact ⟨hMember, hKnows⟩
    · rintro ⟨hOther, hOtherKnows⟩
      apply congrArg Except.ok
      apply eq_of_knows hKnows hOtherKnows
      intro var
      rw [hMember, hOther]
  · rw [hRefused]
    constructor
    · intro hSame
      cases hSame
    · rintro ⟨hMember, hKnows⟩
      have hVar : stranger ∈ scope.vars := by
        rw [hMember, ← mem_sortVars, hVars]
        simp
      rcases mem_vars_iff.mp hVar with ⟨axis, hAxis, rfl⟩
      have hRegistered :=
        Registry.isRegistered_of_knows (hKnows axis hAxis)
      rw [hStranger] at hRegistered
      cases hRegistered

/- It is refused for the least variable without a size. -/
theorem ofVars?_eq_error_iff {fault : Fault} :
    ofVars? registry vars = .error fault ↔
      ∃ stranger,
        fault = .unknownVariable stranger ∧
          stranger ∈ vars ∧
          registry.isRegistered stranger = false ∧
          ∀ other ∈ vars,
            registry.isRegistered other = false →
              stranger ≤ other := by
  rcases ofVars?_cases registry vars with
    ⟨found, hFound, hVars, hKnows⟩ |
      ⟨before, stranger, later, hVars, hStranger, hKnown,
        hRefused⟩
  · rw [hFound]
    constructor
    · intro hSame
      cases hSame
    · rintro ⟨stranger, _, hMember, hStranger, _⟩
      rw [← mem_sortVars, ← hVars] at hMember
      rcases mem_vars_iff.mp hMember with ⟨axis, hAxis, rfl⟩
      have hRegistered :=
        Registry.isRegistered_of_knows (hKnows axis hAxis)
      rw [hStranger] at hRegistered
      cases hRegistered
  · have hMember : stranger ∈ vars := by
      rw [← mem_sortVars, hVars]
      simp
    have hLeast : ∀ other ∈ vars,
        registry.isRegistered other = false →
          stranger ≤ other := by
      intro other hOther hUnknown
      have hIncreasing := increasing_sortVars vars
      rw [← mem_sortVars, hVars] at hOther
      rw [hVars] at hIncreasing
      rcases List.mem_append.mp hOther with
        hBefore | hAfter
      · rw [hKnown other hBefore] at hUnknown
        cases hUnknown
      · rcases List.mem_cons.mp hAfter with rfl | hLater
        · exact UInt32.le_refl _
        · exact UInt32.le_of_lt
            ((List.pairwise_cons.mp
              (List.pairwise_append.mp
                hIncreasing).2.1).1 other hLater)
    rw [hRefused]
    constructor
    · intro hSame
      cases hSame
      exact ⟨stranger, rfl, hMember, hStranger, hLeast⟩
    · rintro ⟨other, rfl, hOther, hUnknown, hOtherLeast⟩
      rw [UInt32.le_antisymm
        (hLeast other hOther hUnknown)
        (hOtherLeast stranger hMember hStranger)]

/- Neither order nor repetition of the variables matters. -/
theorem ofVars?_congr
    {others : List VarId}
    (hVars : ∀ var, var ∈ vars ↔ var ∈ others) :
    ofVars? registry vars = ofVars? registry others := by
  symm
  cases hFound : ofVars? registry vars with
  | ok scope =>
      rw [ofVars?_eq_ok_iff] at hFound ⊢
      exact ⟨fun var => (hFound.1 var).trans (hVars var),
        hFound.2⟩
  | error fault =>
      rw [ofVars?_eq_error_iff] at hFound ⊢
      simpa only [hVars] using hFound

/- A scope stays the same in every registry that keeps this one. -/
theorem ofVars?_of_keeps
    {next : Registry}
    {scope : Scope}
    (hKeeps : next.Keeps registry)
    (hScope : ofVars? registry vars = .ok scope) :
    ofVars? next vars = .ok scope := by
  rcases ofVars?_eq_ok_iff.mp hScope with ⟨hVars, hKnows⟩
  exact ofVars?_eq_ok_iff.mpr
    ⟨hVars, fun axis hAxis =>
      hKeeps axis (hKnows axis hAxis)⟩

theorem knows_of_ofVar?
    {var : VarId}
    {scope : Scope}
    (hScope : ofVar? registry var = .ok scope) :
    ∀ axis ∈ scope.axes, registry.Knows axis := by
  rcases exists_of_map_eq_ok hScope with
    ⟨size, hSize, rfl⟩
  intro axis hAxis
  rw [List.mem_singleton.mp hAxis]
  exact Registry.knows_of_size? hSize

end Scope

end JointMax

------------------------------------------------------------
-- Scopes and Tables of Known Axes
------------------------------------------------------------

namespace JointMax

namespace Scope

variable {registry : Registry} {left right union : Scope}

theorem mem_axes_of_union?
    (hUnion : left.union? right = .ok union)
    {axis : Axis} :
    axis ∈ union.axes ↔
      axis ∈ left.axes ∨ axis ∈ right.axes := by
  rcases union?_cases left right with
    ⟨found, hFound, hAxes⟩ | ⟨_, _, _, _, _, _, hRefused⟩
  · rw [hUnion] at hFound
    cases hFound
    exact hAxes axis
  · rw [hUnion] at hRefused
    cases hRefused

theorem knows_of_union?
    (hUnion : left.union? right = .ok union)
    (hLeft : ∀ axis ∈ left.axes, registry.Knows axis)
    (hRight : ∀ axis ∈ right.axes, registry.Knows axis) :
    ∀ axis ∈ union.axes, registry.Knows axis := by
  intro axis hAxis
  rcases (mem_axes_of_union? hUnion).mp hAxis with
    hOld | hNew
  · exact hLeft axis hOld
  · exact hRight axis hNew

/- One registry has no two sizes for a variable. -/
theorem compatible_of_knows
    (hLeft : ∀ axis ∈ left.axes, registry.Knows axis)
    (hRight : ∀ axis ∈ right.axes, registry.Knows axis) :
    left.Compatible right := by
  intro mine hMine other hOther hVar
  rw [(hLeft mine hMine).unique (hRight other hOther) hVar]

/- Scopes that are read off registries of some kind. -/
inductive Drawn (source : Registry → Prop) : Scope → Prop where
  | ofVars
      {registry : Registry}
      {vars : List VarId}
      {scope : Scope}
      (origin : source registry)
      (made : ofVars? registry vars = .ok scope) :
      Drawn source scope
  | ofVar
      {registry : Registry}
      {var : VarId}
      {scope : Scope}
      (origin : source registry)
      (made : ofVar? registry var = .ok scope) :
      Drawn source scope

theorem Drawn.knows
    {source : Registry → Prop}
    {scope : Scope}
    (hKeeps : ∀ earlier, source earlier →
      registry.Keeps earlier)
    (hDrawn : Drawn source scope) :
    ∀ axis ∈ scope.axes, registry.Knows axis := by
  intro axis hAxis
  cases hDrawn with
  | ofVars origin made =>
      exact hKeeps _ origin axis
        (knows_of_ofVars? made axis hAxis)
  | ofVar origin made =>
      exact hKeeps _ origin axis
        (knows_of_ofVar? made axis hAxis)

end Scope

namespace Table

variable {α : Type} [Scalar α]

/-
  Tables that are made over such scopes, expanded by such
  registries, or combined from tables made so.
-/
inductive Drawn (source : Registry → Prop) :
    Table α → Prop where
  | ofVars
      {registry : Registry}
      {vars : List VarId}
      {value : α}
      {table : Table α}
      (origin : source registry)
      (made : over? registry vars value = .ok table) :
      Drawn source table
  | ofVar
      {registry : Registry}
      {var : VarId}
      {value : α}
      {table : Table α}
      (origin : source registry)
      (made : overVar? registry var value = .ok table) :
      Drawn source table
  | listed
      {scope : Scope}
      {values : Array α}
      {table : Table α}
      (origin : Scope.Drawn source scope)
      (made : ofValues? scope values = .ok table) :
      Drawn source table
  | expandVars
      {registry : Registry}
      {vars : List VarId}
      {table next : Table α}
      (old : Drawn source table)
      (origin : source registry)
      (made : table.expandVars? registry vars = .ok next) :
      Drawn source next
  | expandVar
      {registry : Registry}
      {var : VarId}
      {table next : Table α}
      (old : Drawn source table)
      (origin : source registry)
      (made : table.expandVar? registry var = .ok next) :
      Drawn source next
  | combine
      {op : Op}
      {left right result : Table α}
      (first : Drawn source left)
      (second : Drawn source right)
      (made : combine? op left right = .ok result) :
      Drawn source result

theorem scope_of_expandVars?
    {registry : Registry}
    {vars : List VarId}
    {table next : Table α}
    (hNext : table.expandVars? registry vars = .ok next) :
    Scope.ofVars? registry vars >>= table.scope.union? =
      .ok next.scope := by
  rw [expandVars?] at hNext
  split at hNext
  · rename_i scope hScope
    rw [hScope]
    exact scope_of_expand? hNext
  · cases hNext

theorem Drawn.knows
    {registry : Registry}
    {source : Registry → Prop}
    {table : Table α}
    (hKeeps : ∀ earlier, source earlier →
      registry.Keeps earlier)
    (hDrawn : Drawn source table) :
    ∀ axis ∈ table.scope.axes, registry.Knows axis := by
  induction hDrawn with
  | ofVars origin made =>
      rcases exists_of_map_eq_ok made with ⟨scope, hScope, rfl⟩
      exact (Scope.Drawn.ofVars origin hScope).knows hKeeps
  | ofVar origin made =>
      rcases exists_of_map_eq_ok made with ⟨scope, hScope, rfl⟩
      exact (Scope.Drawn.ofVar origin hScope).knows hKeeps
  | @listed scope values table origin made =>
      rw [@Source.scope_of_table? _ scope (.listed values)
        table made]
      exact origin.knows hKeeps
  | expandVars old origin made ih =>
      rcases exists_of_bind_eq_ok
          (scope_of_expandVars? made) with
        ⟨scope, hScope, hUnion⟩
      exact Scope.knows_of_union? hUnion ih
        ((Scope.Drawn.ofVars origin hScope).knows hKeeps)
  | @expandVar _ var old next hOld origin made ih =>
      by_cases hDepends : old.dependsOn var = true
      · rw [expandVar?, if_pos hDepends] at made
        cases made
        exact ih
      · rcases exists_of_bind_eq_ok
            (scope_of_expandVar? hDepends made) with
          ⟨scope, hScope, hUnion⟩
        exact Scope.knows_of_union? hUnion ih
          ((Scope.Drawn.ofVar origin hScope).knows hKeeps)
  | combine first second made ihFirst ihSecond =>
      exact Scope.knows_of_union?
        (scope_of_zipWith? (eq_ok_of_mapError made))
        ihFirst ihSecond

/-
  Two tables on which every operation is done: the result is
  over the union of their scopes, and is refused only where
  storage has no room for it.
-/
def Combines (left right : Table α) : Prop :=
  ∃ union,
    left.scope.union? right.scope = .ok union ∧
      ∀ op, ∃ result,
        result.scope = union ∧
          combine? op left right = .ok result ∧
          combineInto? op left right = .ok result ∧
          Storage.combine? op left right =
            (if Storage.admits union then .ok result
              else .error (.tooLarge union.count)) ∧
          Storage.combineInto? op left right =
            (if Storage.admits union then .ok result
              else .error (.tooLarge union.count))

theorem combines_of_compatible
    {left right : Table α}
    (hCompatible : left.scope.Compatible right.scope) :
    left.Combines right := by
  rcases Scope.union?_of_compatible hCompatible with
    ⟨union, hUnion, _⟩
  refine ⟨union, hUnion, ?_⟩
  intro op
  rcases zipWith?_of_compatible op.apply hCompatible with
    ⟨result, hResult, hCombined⟩
  have hScope : result.scope = union :=
    Except.ok.inj (hCombined.union.symm.trans hUnion)
  have hCombine : combine? op left right = .ok result := by
    rw [combine?, hResult]
    rfl
  have hInto : combineInto? op left right = .ok result := by
    rw [combineInto?, zipInto?_eq_zipWith?, hResult]
    rfl
  refine ⟨result, hScope, hCombine, hInto, ?_, ?_⟩
  · rw [Storage.combine?, hUnion, hCombine]
    rfl
  · rw [Storage.combineInto?, hUnion, hInto]
    rfl

end Table

end JointMax

------------------------------------------------------------
-- One Size for Each Variable
------------------------------------------------------------

namespace JointMax

namespace Registry

/-
  What holds of a registry at all times of a history, and of
  all that is drawn from it at any two times. One thing is
  excepted, in what `Table.Combines` says of the combinations
  as they are stored: a union of `2 ^ 60` joint values or
  more has no table in storage, and a combination over it
  fails for that reason. On tables themselves it succeeds
  there, too.
-/
structure Steadfast
    (α : Type)
    [Scalar α]
    (registry : Registry)
    (entries : List Entry) : Prop where
  lasting : ∀ early late var size,
    early ≤ late →
      (registry.moment entries early).size? var = .ok size →
        (registry.moment entries late).size? var =
          .ok size ∧ 1 ≤ size.val
  accepted : ∀ time var size,
    (∃ next,
      (registry.moment entries time).register var size =
        .ok next) ↔
      0 < size ∧
        ∀ known,
          (registry.moment entries time).Knows known →
            known.var = var → known.size = size
  refused : ∀ time var size fault,
    (registry.moment entries time).register var size =
        .error fault →
      (registry.moment entries time).after (.one var size) =
        registry.moment entries time
  several : ∀ time pairs, ∃ kept refused,
    pairs = kept ++ refused ∧
      (registry.moment entries time).Registered kept refused
        ((registry.moment entries time).registerAll pairs).1
        ((registry.moment entries time).registerAll pairs).2
  unions : ∀ first second,
    Scope.Drawn (registry.Moment entries) first →
      Scope.Drawn (registry.Moment entries) second →
        ∃ union, first.union? second = .ok union
  expansions : ∀ (table : Table α) scope,
    Table.Drawn (registry.Moment entries) table →
      Scope.Drawn (registry.Moment entries) scope →
        ∃ next, table.expand? scope = .ok next
  combinations : ∀ left right : Table α,
    Table.Drawn (registry.Moment entries) left →
      Table.Drawn (registry.Moment entries) right →
        left.Combines right
  unordered : ∀ time vars others,
    (∀ var, var ∈ vars ↔ var ∈ others) →
      Scope.ofVars? (registry.moment entries time) vars =
        Scope.ofVars? (registry.moment entries time) others
  stranger : ∀ time vars fault,
    Scope.ofVars? (registry.moment entries time) vars =
        .error fault ↔
      ∃ stranger,
        fault = .unknownVariable stranger ∧
          stranger ∈ vars ∧
          (registry.moment entries time).isRegistered
            stranger = false ∧
          ∀ other ∈ vars,
            (registry.moment entries time).isRegistered
                other = false →
              stranger ≤ other
  settled : ∀ early late vars scope,
    early ≤ late →
      Scope.ofVars? (registry.moment entries early) vars =
          .ok scope →
        Scope.ofVars? (registry.moment entries late) vars =
          .ok scope

/- Registrations are refused for a zero or another size only. -/
theorem exists_register_iff
    {registry : Registry}
    {var : VarId}
    {size : Nat} :
    (∃ next, registry.register var size = .ok next) ↔
      0 < size ∧
        ∀ known, registry.Knows known →
          known.var = var → known.size = size := by
  rcases registry.register_cases var size with
    ⟨axis, next, rfl, rfl, hNext, hKnows⟩ |
      ⟨known, hKnown, hVar, hSize, hPos, hRefused⟩ |
      ⟨rfl, hRefused⟩
  · refine ⟨fun _ => ⟨axis.size_pos, ?_⟩,
      fun _ => ⟨next, hNext⟩⟩
    intro known hKnown hVar
    rw [((hKnows known).mpr (.inl hKnown)).unique
      ((hKnows axis).mpr (.inr rfl)) hVar]
  · rw [hRefused]
    constructor
    · rintro ⟨_, hNext⟩
      cases hNext
    · rintro ⟨_, hSame⟩
      exact absurd (hSame known hKnown hVar) hSize
  · rw [hRefused]
    constructor
    · rintro ⟨_, hNext⟩
      cases hNext
    · rintro ⟨hPos, _⟩
      exact absurd hPos (Nat.lt_irrefl 0)

/- Refused sizes leave no trace, nor do the pairs after one. -/
example :
    (empty.afterAll
      [.one 3 4, .one 3 5, .one 2 0,
        .several [(1, 2), (3, 4), (1, 6), (5, 7)]]).toList =
      [(1, 2), (3, 4)] := by
  decide +kernel

end Registry

end JointMax
