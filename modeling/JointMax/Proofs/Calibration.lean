import Mathlib
import JointMax.Proofs.Forest

/-
  Sums over a branching list of factors. If the greatest value
  of each factor, under any value of any of its variables, is
  that variable's own score up to a constant, then the same
  holds of the sum of all factors and the root: factors are
  glued on one by one, each at its hub.

  Main declarations:
    * `Calibrated`
    * `gathered` and `gain`
    * `Calibrated.isGreatest_gain`
-/

------------------------------------------------------------
-- Calibrated Factors
------------------------------------------------------------

namespace JointMax

variable {φ ν : Type}

/- The choice is in range at every variable. -/
def InRange
    (range : ν → Nat → Prop)
    (choice : ν → Nat) : Prop :=
  ∀ var, range var (choice var)

/-
  A factor's score is a function of its own variables. Its
  greatest value, with one of them fixed, is the score of
  that variable up to a constant.
-/
structure Calibrated
    (scope : φ → Finset ν)
    (range : ν → Nat → Prop)
    (joint : φ → (ν → Nat) → Rat)
    (single : ν → Nat → Rat) : Prop where
  congr : ∀ factor first second,
    (∀ var ∈ scope factor, first var = second var) →
      joint factor first = joint factor second
  top : ∀ factor, ∃ best,
    IsGreatest
      (joint factor '' {choice | InRange range choice}) best
  greatest : ∀ factor, ∀ var ∈ scope factor,
    ∃ shift, ∀ value, range var value →
      IsGreatest
        (joint factor '' {choice |
          InRange range choice ∧ choice var = value})
        (single var value + shift)

/- The first choice on some variables, the other elsewhere. -/
def splice
    [DecidableEq ν]
    (vars : Finset ν)
    (choice other : ν → Nat) : ν → Nat :=
  fun var => if var ∈ vars then choice var else other var

section

variable [DecidableEq ν] {vars : Finset ν}
variable {choice other : ν → Nat}

theorem splice_of_mem
    {var : ν}
    (hVar : var ∈ vars) :
    splice vars choice other var = choice var := by
  unfold splice
  rw [if_pos hVar]

theorem splice_of_not_mem
    {var : ν}
    (hVar : var ∉ vars) :
    splice vars choice other var = other var := by
  unfold splice
  rw [if_neg hVar]

theorem InRange.splice
    {range : ν → Nat → Prop}
    (hChoice : InRange range choice)
    (hOther : InRange range other) :
    InRange range (splice vars choice other) := by
  intro var
  by_cases hVar : var ∈ vars
  · rw [splice_of_mem hVar]
    exact hChoice var
  · rw [splice_of_not_mem hVar]
    exact hOther var

end

end JointMax

------------------------------------------------------------
-- Gathered Variables
------------------------------------------------------------

namespace JointMax

variable {φ ν : Type} [DecidableEq ν]
variable {scope : φ → Finset ν} {root : ν}

/- The root and the variables of all factors. -/
def gathered
    (scope : φ → Finset ν)
    (root : ν) : List φ → Finset ν
  | [] => {root}
  | factor :: rest => scope factor ∪ gathered scope root rest

theorem root_mem_gathered (factors : List φ) :
    root ∈ gathered scope root factors := by
  induction factors with
  | nil => simp [gathered]
  | cons factor rest ih => simp [gathered, ih]

theorem mem_gathered_iff
    {factors : List φ}
    {var : ν} :
    var ∈ gathered scope root factors ↔
      var = root ∨ ∃ factor ∈ factors, var ∈ scope factor := by
  induction factors with
  | nil => simp [gathered]
  | cons factor rest ih =>
      unfold gathered
      rw [Finset.mem_union, ih]
      constructor
      · rintro (hVar | rfl | ⟨other, hOther, hVar⟩)
        · exact .inr ⟨factor, by simp, hVar⟩
        · exact .inl rfl
        · exact .inr ⟨other, by simp [hOther], hVar⟩
      · rintro (rfl | ⟨other, hOther, hVar⟩)
        · exact .inr (.inl rfl)
        · rcases List.mem_cons.mp hOther with rfl | hOther
          · exact .inl hVar
          · exact .inr (.inr ⟨other, hOther, hVar⟩)

/-
  The scores of the factors, where every variable is counted
  once: what factors share is taken off again.
-/
def gain
    (scope : φ → Finset ν)
    (joint : φ → (ν → Nat) → Rat)
    (single : ν → Nat → Rat)
    (root : ν)
    (factors : List φ)
    (choice : ν → Nat) : Rat :=
  (factors.map fun factor =>
    joint factor choice -
      ∑ var ∈ scope factor, single var (choice var)).sum +
    ∑ var ∈ gathered scope root factors,
      single var (choice var)

variable {joint : φ → (ν → Nat) → Rat}
variable {single : ν → Nat → Rat}

theorem gain_nil (choice : ν → Nat) :
    gain scope joint single root [] choice =
      single root (choice root) := by
  simp [gain, gathered]

/- A new factor is counted less what it shares. -/
theorem gain_cons
    (factor : φ)
    (rest : List φ)
    (choice : ν → Nat) :
    gain scope joint single root (factor :: rest) choice =
      gain scope joint single root rest choice +
        (joint factor choice -
          ∑ var ∈ scope factor ∩ gathered scope root rest,
            single var (choice var)) := by
  have hUnion :
      ∑ var ∈ scope factor ∪ gathered scope root rest,
          single var (choice var) +
        ∑ var ∈ scope factor ∩ gathered scope root rest,
          single var (choice var) =
      ∑ var ∈ scope factor, single var (choice var) +
        ∑ var ∈ gathered scope root rest,
          single var (choice var) :=
    Finset.sum_union_inter
  unfold gain
  rw [List.map_cons, List.sum_cons, gathered]
  linarith

end JointMax

------------------------------------------------------------
-- Greatest Gains
------------------------------------------------------------

namespace JointMax

variable {φ ν : Type} [DecidableEq ν]
variable {scope : φ → Finset ν} {root : ν}
variable {range : ν → Nat → Prop}
variable {joint : φ → (ν → Nat) → Rat}
variable {single : ν → Nat → Rat}

/- A gain is a function of the gathered variables. -/
theorem Calibrated.gain_congr
    (hCalibrated : Calibrated scope range joint single)
    {factors : List φ}
    {first second : ν → Nat}
    (hAgree : ∀ var ∈ gathered scope root factors,
      first var = second var) :
    gain scope joint single root factors first =
      gain scope joint single root factors second := by
  induction factors with
  | nil =>
      rw [gain_nil, gain_nil,
        hAgree root (root_mem_gathered [])]
  | cons factor rest ih =>
      have hRest : ∀ var ∈ gathered scope root rest,
          first var = second var := by
        intro var hVar
        exact hAgree var (Finset.mem_union_right _ hVar)
      have hFactor : ∀ var ∈ scope factor,
          first var = second var := by
        intro var hVar
        exact hAgree var (Finset.mem_union_left _ hVar)
      have hShared :
          ∑ var ∈ scope factor ∩ gathered scope root rest,
              single var (first var) =
            ∑ var ∈ scope factor ∩ gathered scope root rest,
              single var (second var) := by
        apply Finset.sum_congr rfl
        intro var hVar
        rw [hFactor var (Finset.mem_inter.mp hVar).1]
      rw [gain_cons, gain_cons, ih hRest, hShared,
        hCalibrated.congr factor first second hFactor]

/-
  A factor that shares at most its hub: its score never
  exceeds the hub's by more than a constant, and reaches that
  bound under any choice of what was gathered.
-/
theorem Calibrated.exists_glued
    (hCalibrated : Calibrated scope range joint single)
    {factor : φ}
    {vars : Finset ν}
    {hub : ν}
    (hHub : ∀ var ∈ scope factor ∩ vars, var = hub) :
    ∃ shift,
      ∀ choice, InRange range choice →
        joint factor choice ≤
            ∑ var ∈ scope factor ∩ vars,
              single var (choice var) + shift ∧
          ∃ best,
            InRange range best ∧
              (∀ var ∈ scope factor ∩ vars,
                best var = choice var) ∧
              joint factor best =
                ∑ var ∈ scope factor ∩ vars,
                  single var (choice var) + shift := by
  rcases (scope factor ∩ vars).eq_empty_or_nonempty with
    hEmpty | ⟨var, hVar⟩
  · rcases hCalibrated.top factor with ⟨greatest, hTop⟩
    refine ⟨greatest, ?_⟩
    intro choice hChoice
    rw [hEmpty, Finset.sum_empty, zero_add]
    refine ⟨hTop.2 ⟨choice, hChoice, rfl⟩, ?_⟩
    rcases hTop.1 with ⟨best, hBest, hScore⟩
    exact ⟨best, hBest, by simp, hScore⟩
  · have hSame := hHub var hVar
    subst hSame
    have hOnly : scope factor ∩ vars = {var} :=
      Finset.eq_singleton_iff_unique_mem.mpr ⟨hVar, hHub⟩
    have hMember := (Finset.mem_inter.mp hVar).1
    rcases hCalibrated.greatest factor var hMember with
      ⟨shift, hGreatest⟩
    refine ⟨shift, ?_⟩
    intro choice hChoice
    have hSlice := hGreatest (choice var) (hChoice var)
    rw [hOnly, Finset.sum_singleton]
    refine ⟨hSlice.2 ⟨choice, ⟨hChoice, rfl⟩, rfl⟩, ?_⟩
    rcases hSlice.1 with ⟨best, ⟨hBest, hValue⟩, hScore⟩
    exact ⟨best, hBest, by simpa using hValue, hScore⟩

/-
  A choice of what was gathered, extended by one for a factor
  that agrees with it on what they share, gains what that
  choice adds to the factor alone.
-/
theorem Calibrated.gain_splice
    (hCalibrated : Calibrated scope range joint single)
    {factor : φ}
    {rest : List φ}
    {choice best : ν → Nat}
    (hAgree :
      ∀ var ∈ scope factor ∩ gathered scope root rest,
        best var = choice var) :
    gain scope joint single root (factor :: rest)
        (splice (gathered scope root rest) choice best) =
      gain scope joint single root rest choice +
        (joint factor best -
          ∑ var ∈ scope factor ∩ gathered scope root rest,
            single var (choice var)) := by
  let joined := splice (gathered scope root rest) choice best
  have hGathered : ∀ var ∈ gathered scope root rest,
      joined var = choice var :=
    fun var hVar => splice_of_mem hVar
  have hFactor : ∀ var ∈ scope factor,
      joined var = best var := by
    intro var hVar
    by_cases hMember : var ∈ gathered scope root rest
    · rw [hGathered var hMember]
      exact (hAgree var
        (Finset.mem_inter.mpr ⟨hVar, hMember⟩)).symm
    · exact splice_of_not_mem hMember
  have hShared :
      ∑ var ∈ scope factor ∩ gathered scope root rest,
          single var (joined var) =
        ∑ var ∈ scope factor ∩ gathered scope root rest,
          single var (choice var) := by
    apply Finset.sum_congr rfl
    intro var hVar
    rw [hGathered var (Finset.mem_inter.mp hVar).2]
  rw [gain_cons, hCalibrated.gain_congr hGathered, hShared,
    hCalibrated.congr factor joined best hFactor]

/- With no factor, the gain is the root's own score. -/
theorem isGreatest_gain_nil
    {base : ν → Nat}
    (hBase : InRange range base)
    {value : Nat}
    (hValue : range root value) :
    IsGreatest
      (gain scope joint single root [] '' {choice |
        InRange range choice ∧ choice root = value})
      (single root value) := by
  constructor
  · refine ⟨Function.update base root value,
      ⟨?_, by simp⟩, by simp [gain_nil]⟩
    intro var
    by_cases hVar : var = root
    · subst hVar
      simpa using hValue
    · simpa [hVar] using hBase var
  · rintro _ ⟨choice, ⟨_, rfl⟩, rfl⟩
    rw [gain_nil]

/-
  Under any value of the root, the greatest gain is the
  root's own score up to a constant. The induction is along
  the branching list: a choice for the later factors is
  extended to the variables that the first one adds.
-/
theorem Calibrated.isGreatest_gain
    (hCalibrated : Calibrated scope range joint single)
    {factors : List φ}
    (hBranching :
      Branching (fun factor var => var ∈ scope factor) root
        factors)
    {base : ν → Nat}
    (hBase : InRange range base) :
    ∃ shift, ∀ value, range root value →
      IsGreatest
        (gain scope joint single root factors '' {choice |
          InRange range choice ∧ choice root = value})
        (single root value + shift) := by
  induction hBranching with
  | nil =>
      refine ⟨0, ?_⟩
      intro value hValue
      rw [add_zero]
      exact isGreatest_gain_nil hBase hValue
  | @cons factor rest hub hLoose _ ih =>
      rcases ih with ⟨earlier, hEarlier⟩
      have hHub : ∀ var ∈
          scope factor ∩ gathered scope root rest,
          var = hub := by
        intro var hVar
        rcases Finset.mem_inter.mp hVar with
          ⟨hMember, hGathered⟩
        exact hLoose var hMember
          (mem_gathered_iff.mp hGathered)
      rcases hCalibrated.exists_glued hHub with
        ⟨shift, hGlued⟩
      refine ⟨earlier + shift, ?_⟩
      intro value hValue
      have hRest := hEarlier value hValue
      constructor
      · rcases hRest.1 with
          ⟨choice, ⟨hChoice, hRoot⟩, hGain⟩
        rcases (hGlued choice hChoice).2 with
          ⟨best, hBest, hAgree, hScore⟩
        refine ⟨splice (gathered scope root rest) choice best,
          ⟨hChoice.splice hBest, ?_⟩, ?_⟩
        · rw [splice_of_mem (root_mem_gathered rest), hRoot]
        · rw [hCalibrated.gain_splice hAgree, hGain, hScore]
          ring
      · rintro _ ⟨choice, ⟨hChoice, hRoot⟩, rfl⟩
        have hGain :=
          hRest.2 ⟨choice, ⟨hChoice, hRoot⟩, rfl⟩
        have hScore := (hGlued choice hChoice).1
        rw [gain_cons]
        linarith

end JointMax
