import Mathlib
import JointMax.Proofs.Numbering

/-
  The order of joint values. One joint value comes before
  another just if its digit is less at the last variable
  where they differ. So the order among joint values of a
  part of the variables is that of their completions by the
  same digits elsewhere.

  Main declarations:
    * `MixedRadix.Precedes`
    * `MixedRadix.encode_lt_encode_iff`
    * `Scope.number_lt_number`
-/

------------------------------------------------------------
-- Digits in Order
------------------------------------------------------------

namespace JointMax

namespace MixedRadix

/- At the last place where two lists differ, the first is less. -/
inductive Precedes : List Nat → List Nat → Prop where
  | head {digit other : Nat} {digits : List Nat}
      (less : digit < other) :
      Precedes (digit :: digits) (other :: digits)
  | tail {digit other : Nat} {digits others : List Nat}
      (later : Precedes digits others) :
      Precedes (digit :: digits) (other :: others)

theorem precedes_cons_iff
    {digit other : Nat}
    {digits others : List Nat} :
    Precedes (digit :: digits) (other :: others) ↔
      digits = others ∧ digit < other ∨
        Precedes digits others := by
  constructor
  · intro hPrecedes
    cases hPrecedes with
    | head hLess => exact .inl ⟨rfl, hLess⟩
    | tail hLater => exact .inr hLater
  · rintro (⟨rfl, hLess⟩ | hLater)
    · exact .head hLess
    · exact .tail hLater

/- Higher digits count before the lowest one. -/
theorem add_mul_lt_add_mul_iff
    {radix low other high higher : Nat}
    (hLow : low < radix)
    (hOther : other < radix) :
    low + radix * high < other + radix * higher ↔
      high = higher ∧ low < other ∨ high < higher := by
  rcases lt_trichotomy high higher with
    hLess | rfl | hGreater
  · have hStep : radix * (high + 1) ≤ radix * higher :=
      Nat.mul_le_mul_left radix hLess
    rw [Nat.mul_add, Nat.mul_one] at hStep
    exact iff_of_true (by omega) (.inr hLess)
  · simp
  · have hStep : radix * (higher + 1) ≤ radix * high :=
      Nat.mul_le_mul_left radix hGreater
    rw [Nat.mul_add, Nat.mul_one] at hStep
    exact iff_of_false (by omega) (by omega)

theorem encode_inj
    {radices first second : List Nat}
    (hFirst : Within radices first)
    (hSecond : Within radices second) :
    encode radices first = encode radices second ↔
      first = second := by
  constructor
  · intro hEncode
    rw [← decode_encode hFirst, hEncode,
      decode_encode hSecond]
  · rintro rfl
    rfl

/- Numbers are in the order of their digits. -/
theorem encode_lt_encode_iff
    {radices first second : List Nat}
    (hFirst : Within radices first)
    (hSecond : Within radices second) :
    encode radices first < encode radices second ↔
      Precedes first second := by
  induction hFirst generalizing second with
  | nil =>
      cases hSecond
      exact iff_of_false (lt_irrefl _) (by rintro ⟨⟩)
  | cons hHead hTail ih =>
      cases hSecond with
      | cons hOther hOthers =>
          rw [encode, encode,
            add_mul_lt_add_mul_iff hHead hOther,
            encode_inj hTail hOthers, ih hOthers,
            precedes_cons_iff]

/- Equal digits in between do not change the order. -/
theorem Precedes.of_sublist
    {vars larger : List VarId}
    {first second : VarId → Nat}
    (hSublist : vars.Sublist larger)
    (hNodup : larger.Nodup)
    (hElsewhere : ∀ var ∈ larger,
      var ∉ vars → first var = second var)
    (hPrecedes :
      Precedes (vars.map first) (vars.map second)) :
    Precedes (larger.map first) (larger.map second) := by
  induction hSublist with
  | slnil => exact hPrecedes
  | @cons vars larger var _ ih =>
      apply Precedes.tail
      apply ih (List.nodup_cons.mp hNodup).2 _ hPrecedes
      intro other hOther
      exact hElsewhere other (List.mem_cons_of_mem _ hOther)
  | @cons_cons vars larger var _ ih =>
      rcases List.nodup_cons.mp hNodup with ⟨hFresh, hRest⟩
      have hOthers : ∀ other ∈ larger,
          other ∉ vars → first other = second other := by
        intro other hOther hOutside
        apply hElsewhere other
          (List.mem_cons_of_mem _ hOther)
        rw [List.mem_cons, not_or]
        exact ⟨fun hSame => hFresh (hSame ▸ hOther), hOutside⟩
      rcases precedes_cons_iff.mp hPrecedes with
        ⟨hSame, hLess⟩ | hLater
      · apply precedes_cons_iff.mpr
        refine .inl ⟨?_, hLess⟩
        apply List.map_congr_left
        intro other hOther
        by_cases hVar : other ∈ vars
        · exact List.map_inj_left.mp hSame other hVar
        · exact hOthers other hOther hVar
      · exact .tail (ih hRest hOthers hLater)

end MixedRadix

end JointMax

------------------------------------------------------------
-- Joint Values in a Larger Scope
------------------------------------------------------------

namespace JointMax

namespace Scope

/-
  Two joint values that differ within a scope only are in the
  same order there and in a scope that includes it.
-/
theorem number_lt_number
    {scope larger : Scope}
    {first second : VarId → Nat}
    (hIncludes : larger.includes scope = true)
    (hFirst : larger.Admits first)
    (hSecond : larger.Admits second)
    (hElsewhere : ∀ var ∈ larger.vars,
      var ∉ scope.vars → first var = second var)
    (hLess : scope.number first < scope.number second) :
    larger.number first < larger.number second := by
  apply (MixedRadix.encode_lt_encode_iff
    (within_choice hFirst) (within_choice hSecond)).mpr
  apply MixedRadix.Precedes.of_sublist
    ((includes_iff_sublist.mp hIncludes).map Axis.var)
    larger.nodup_vars hElsewhere
  exact (MixedRadix.encode_lt_encode_iff
    (within_choice (hFirst.of_includes hIncludes))
    (within_choice (hSecond.of_includes hIncludes))).mp hLess

end Scope

end JointMax
