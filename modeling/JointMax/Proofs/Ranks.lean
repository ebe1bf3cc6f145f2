import Mathlib
import JointMax.Scalar

/-
  The order that comparisons of scalars follow. A scalar that
  is a number has a rank in a linear order, and one that is
  not has none. Comparisons and the larger of two values then
  depend on ranks only. Doubles are ranked by their sign,
  exponent and mantissa, and their two zeros share a rank.

  Main declarations:
    * `RankedScalar`, with instances for `Float` and `Rat`
    * `RankedExtremes`
    * `Doubles.compare_eq_lt_iff`
    * `Doubles.compare_eq_eq_iff`
-/

------------------------------------------------------------
-- Ranks
------------------------------------------------------------

namespace JointMax

/- Scalars that are compared by rank. -/
class RankedScalar (α : Type) [Scalar α] where
  Rank : Type
  order : LinearOrder Rank
  rank : α → WithBot Rank
  isNaN_iff : ∀ value : α,
    Scalar.isNaN value = true ↔ rank value = ⊥
  lt_iff : ∀ a b : α, Scalar.lt a b = true ↔
    rank a ≠ ⊥ ∧ rank a < rank b
  le_iff : ∀ a b : α, Scalar.le a b = true ↔
    rank a ≠ ⊥ ∧ rank a ≤ rank b
  same_iff : ∀ a b : α, Scalar.same a b = true ↔
    rank a ≠ ⊥ ∧ rank a = rank b
  rank_larger : ∀ a b : α,
    rank (Scalar.larger a b) = max (rank a) (rank b)
  abs_lt_zero : ∀ value : α,
    Scalar.lt (Scalar.abs value) Scalar.zero = false

attribute [reducible, instance] RankedScalar.order

/- The lower extreme is ranked below every number. -/
class RankedExtremes (α : Type)
    [Scalar α] [Extremes α] [RankedScalar α] : Prop where
  bottom_le : ∀ value : α,
    RankedScalar.rank value ≠ ⊥ →
      RankedScalar.rank (Extremes.bottom : α) ≤
        RankedScalar.rank value

namespace RankedScalar

variable {α : Type} [Scalar α] [RankedScalar α]

theorem isNaN_eq_false_iff {value : α} :
    Scalar.isNaN value = false ↔ rank value ≠ ⊥ := by
  rw [← Bool.not_eq_true, isNaN_iff]

theorem lt_eq_false_iff {a b : α} :
    Scalar.lt a b = false ↔
      (rank a ≠ ⊥ → rank b ≤ rank a) := by
  rw [← Bool.not_eq_true, lt_iff, not_and]
  exact imp_congr_right fun _ => not_lt

/- A value that is a number equals itself. -/
theorem same_refl
    {value : α}
    (hNumber : Scalar.isNaN value = false) :
    Scalar.same value value = true :=
  (same_iff value value).mpr
    ⟨isNaN_eq_false_iff.mp hNumber, rfl⟩

theorem same_symm
    {a b : α}
    (hSame : Scalar.same a b = true) :
    Scalar.same b a = true := by
  rcases (same_iff a b).mp hSame with ⟨hNumber, hRank⟩
  exact (same_iff b a).mpr ⟨hRank ▸ hNumber, hRank.symm⟩

theorem same_trans
    {a b c : α}
    (hFirst : Scalar.same a b = true)
    (hSecond : Scalar.same b c = true) :
    Scalar.same a c = true := by
  rcases (same_iff a b).mp hFirst with ⟨hNumber, hRank⟩
  rcases (same_iff b c).mp hSecond with ⟨-, hOther⟩
  exact (same_iff a c).mpr ⟨hNumber, hRank.trans hOther⟩

/- The largest of all is within the bounds of all. -/
theorem rank_foldl_larger_le_iff
    {values : List α}
    {start : α}
    {bound : WithBot (Rank α)} :
    rank (values.foldl Scalar.larger start) ≤ bound ↔
      rank start ≤ bound ∧
        ∀ value ∈ values, rank value ≤ bound := by
  induction values generalizing start with
  | nil => simp
  | cons value values ih =>
      rw [List.foldl_cons, ih, rank_larger, max_le_iff,
        List.forall_mem_cons, and_assoc]

/- The largest of all is ranked as one of them. -/
theorem rank_foldl_larger_mem
    (values : List α)
    (start : α) :
    rank (values.foldl Scalar.larger start) ∈
      insert (rank start) (rank '' {v | v ∈ values}) := by
  induction values generalizing start with
  | nil => simp
  | cons value values ih =>
      rw [List.foldl_cons]
      rcases ih (Scalar.larger start value) with
        hStart | ⟨other, hOther, hRank⟩
      · rw [hStart, rank_larger]
        rcases max_choice (rank start) (rank value) with
          hFirst | hSecond
        · rw [hFirst]
          exact Set.mem_insert _ _
        · rw [hSecond]
          exact .inr ⟨value, List.mem_cons_self, rfl⟩
      · exact
          .inr ⟨other, List.mem_cons_of_mem _ hOther, hRank⟩

/- The largest of all has the greatest rank among them. -/
theorem isGreatest_foldl_larger
    (values : List α)
    (start : α) :
    IsGreatest
      (insert (rank start) (rank '' {v | v ∈ values}))
      (rank (values.foldl Scalar.larger start)) := by
  refine ⟨rank_foldl_larger_mem values start, ?_⟩
  rcases rank_foldl_larger_le_iff.mp
      (le_refl (rank (values.foldl Scalar.larger start))) with
    ⟨hStart, hValues⟩
  rintro _ (rfl | ⟨value, hValue, rfl⟩)
  · exact hStart
  · exact hValues value hValue

end RankedScalar

/- Rationals are their own ranks. -/
instance : RankedScalar Rat where
  Rank := Rat
  order := inferInstance
  rank := fun value => ↑value
  isNaN_iff := by simp [Scalar.isNaN]
  lt_iff := by simp [Scalar.lt]
  le_iff := by simp [Scalar.le]
  same_iff := by simp [Scalar.same]
  rank_larger := by
    intro a b
    rw [← WithBot.coe_max, max_def_lt]
    rfl
  abs_lt_zero := by
    intro value
    have hPositive :
        ¬ (if value < 0 then -value else value) < 0 := by
      split <;> linarith
    exact decide_eq_false hPositive

theorem foldl_larger_le_iff
    {values : List Rat}
    {start bound : Rat} :
    values.foldl Scalar.larger start ≤ bound ↔
      start ≤ bound ∧ ∀ value ∈ values, value ≤ bound := by
  have hRank :
      RankedScalar.rank (values.foldl Scalar.larger start) ≤
          (bound : WithBot Rat) ↔ _ :=
    RankedScalar.rank_foldl_larger_le_iff
  simpa only [RankedScalar.rank, WithBot.coe_le_coe]
    using hRank

end JointMax

------------------------------------------------------------
-- Ranks of Doubles
------------------------------------------------------------

namespace JointMax

namespace Doubles

open Float.Model
open Float.Model.UnpackedFloat

/- Class, then exponent, then mantissa. -/
abbrev Rank := ℤ ×ₗ ℤ ×ₗ ℤ

def rankOf (kind exponent mantissa : ℤ) : Rank :=
  toLex (kind, toLex (exponent, mantissa))

/-
  The rank of a double. A negative number is ranked lower for
  a higher exponent or mantissa.
-/
def rank : UnpackedFloat → WithBot Rank
  | .notANumber => ⊥
  | .infinity .negative => rankOf (-2) 0 0
  | .finite .negative mantissa exponent _ =>
      rankOf (-1) (-exponent) (-mantissa)
  | .zero _ => rankOf 0 0 0
  | .finite .positive mantissa exponent _ =>
      rankOf 1 exponent mantissa
  | .infinity .positive => rankOf 2 0 0

theorem rankOf_lt_rankOf_iff
    {kind exponent mantissa kind' exponent' mantissa' : ℤ} :
    rankOf kind exponent mantissa <
        rankOf kind' exponent' mantissa' ↔
      kind < kind' ∨ kind = kind' ∧
        (exponent < exponent' ∨
          exponent = exponent' ∧ mantissa < mantissa') := by
  simp [rankOf, Prod.Lex.toLex_lt_toLex]

theorem rankOf_inj
    {kind exponent mantissa kind' exponent' mantissa' : ℤ} :
    rankOf kind exponent mantissa =
        rankOf kind' exponent' mantissa' ↔
      kind = kind' ∧ exponent = exponent' ∧
        mantissa = mantissa' := by
  simp [rankOf]

/-
  One case for each pair of classes. Only two finite numbers
  of one sign are compared by more than their class.
-/
theorem compare_eq_lt_iff (left right : UnpackedFloat) :
    left.compare right = some .lt ↔
      rank left ≠ ⊥ ∧ rank left < rank right := by
  rcases left with
    (_ | _) | _ | (_ | _) | ⟨(_ | _), _, _, _⟩ <;>
  rcases right with
    (_ | _) | _ | (_ | _) | ⟨(_ | _), _, _, _⟩ <;>
  simp [UnpackedFloat.compare, rank, rankOf_lt_rankOf_iff,
    Ordering.then_eq_lt, Ordering.then_eq_gt,
    compare_lt_iff_lt, compare_gt_iff_gt]
  rfl

theorem compare_eq_eq_iff (left right : UnpackedFloat) :
    left.compare right = some .eq ↔
      rank left ≠ ⊥ ∧ rank left = rank right := by
  rcases left with
    (_ | _) | _ | (_ | _) | ⟨(_ | _), _, _, _⟩ <;>
  rcases right with
    (_ | _) | _ | (_ | _) | ⟨(_ | _), _, _, _⟩ <;>
  simp [UnpackedFloat.compare, rank, rankOf_inj,
    Ordering.then_eq_eq] <;>
  rfl

theorem isNaN_iff (value : UnpackedFloat) :
    value.isNaN = true ↔ rank value = ⊥ := by
  rcases value with
    (_ | _) | _ | (_ | _) | ⟨(_ | _), _, _, _⟩ <;>
  simp [UnpackedFloat.isNaN, rank]

/- The sign is the topmost bit. -/
theorem unpackSign_eq
    {format : Float.Model.Format}
    (bits : BitVec format.numBits) :
    unpackSign bits = BitVec.ofBool bits.msb := by
  have hTop :
      format.mantissaBitsWithoutImplicit +
          format.exponentBits =
        format.numBits - 1 := by
    unfold Format.numBits
    omega
  ext index hIndex
  obtain rfl : index = 0 := by omega
  rw [unpackSign, BitVec.getElem_cast,
    ← BitVec.getLsbD_eq_getElem,
    BitVec.getLsbD_extractLsb, BitVec.getElem_ofBool,
    BitVec.msb_eq_getLsbD_last, Nat.add_zero, hTop]
  simp

theorem sign_packComponents
    (format : Float.Model.Format)
    (exponent : BitVec format.exponentBits)
    (mantissa : BitVec format.mantissaBitsWithoutImplicit) :
    Sign.ofBitVec (unpackSign
      (packComponents format .positive
        exponent mantissa)) =
      .positive := by
  have hSign :
      (packComponents format .positive
        exponent mantissa).msb = false := by
    simp [packComponents, BitVec.msb_append, Sign.toBitVec]
  rw [unpackSign_eq, hSign]
  rfl

/- A packed number without sign is not below zero. -/
theorem zero_le_rank_packComponents
    {format : Float.Model.Format}
    {exponent : BitVec format.exponentBits}
    {mantissa : BitVec format.mantissaBitsWithoutImplicit}
    (hNumber :
      rank (UnpackedFloat.unpack format
        (packComponents format .positive
          exponent mantissa)) ≠ ⊥) :
    rankOf 0 0 0 ≤
      rank (UnpackedFloat.unpack format
        (packComponents format .positive
          exponent mantissa)) := by
  apply not_lt.mp
  revert hNumber
  simp only [UnpackedFloat.unpack, sign_packComponents]
  split_ifs <;>
  simp [rank, rankOf_lt_rankOf_iff]

/- Packing an absolute value clears the sign bit. -/
theorem exists_pack_abs
    (format : Float.Model.Format)
    (value : UnpackedFloat) :
    ∃ exponent mantissa,
      UnpackedFloat.pack format value.abs =
        packComponents format .positive
          exponent mantissa := by
  rcases value with _ | _ | _ | ⟨_, mantissa, exponent, _⟩
  · exact ⟨_, _, rfl⟩
  · exact ⟨_, _, rfl⟩
  · exact ⟨_, _, rfl⟩
  · dsimp only [UnpackedFloat.abs, UnpackedFloat.pack]
    split_ifs
    · exact ⟨_, _, rfl⟩
    · exact ⟨_, _, rfl⟩
    · exact ⟨_, _, rfl⟩

theorem lt_eq (a b : Float) :
    Scalar.lt a b = a.toModel.unpack.lt b.toModel.unpack := by
  change decide (decide (_ = true) = true) = _
  rw [Bool.decide_eq_true, Bool.decide_eq_true]
  rfl

theorem le_eq (a b : Float) :
    Scalar.le a b = a.toModel.unpack.le b.toModel.unpack := by
  change decide (decide (_ = true) = true) = _
  rw [Bool.decide_eq_true, Bool.decide_eq_true]
  rfl

theorem lt_iff (a b : Float) :
    Scalar.lt a b = true ↔
      rank a.toModel.unpack ≠ ⊥ ∧
        rank a.toModel.unpack < rank b.toModel.unpack := by
  rw [lt_eq, ← compare_eq_lt_iff]
  exact beq_iff_eq

theorem same_iff (a b : Float) :
    Scalar.same a b = true ↔
      rank a.toModel.unpack ≠ ⊥ ∧
        rank a.toModel.unpack = rank b.toModel.unpack := by
  rw [← compare_eq_eq_iff]
  exact beq_iff_eq (α := Option Ordering)

theorem le_iff (a b : Float) :
    Scalar.le a b = true ↔
      rank a.toModel.unpack ≠ ⊥ ∧
        rank a.toModel.unpack ≤ rank b.toModel.unpack := by
  rw [le_eq, le_iff_lt_or_eq, and_or_left,
    ← compare_eq_lt_iff, ← compare_eq_eq_iff]
  unfold UnpackedFloat.le
  cases a.toModel.unpack.compare b.toModel.unpack with
  | none => simp
  | some ordering => cases ordering <;> simp

theorem rank_larger (a b : Float) :
    rank (Scalar.larger a b).toModel.unpack =
      max (rank a.toModel.unpack) (rank b.toModel.unpack) := by
  have hLarger : Scalar.larger a b =
      if Scalar.isNaN a then b
      else if Scalar.isNaN b then a
      else if Scalar.lt a b then b
      else a := by
    change ite _ _ _ = _
    simp only [Scalar.lt, decide_eq_true_eq]
    rfl
  rw [hLarger]
  split_ifs with hFirst hSecond hLess
  · rw [(isNaN_iff _).mp hFirst, max_eq_right bot_le]
  · rw [(isNaN_iff _).mp hSecond, max_eq_left bot_le]
  · rw [max_eq_right ((lt_iff a b).mp hLess).2.le]
  · rw [max_eq_left]
    rw [lt_iff, not_and] at hLess
    rw [← not_lt]
    exact hLess fun hNone => hFirst ((isNaN_iff _).mpr hNone)

theorem abs_lt_zero (value : Float) :
    Scalar.lt (Scalar.abs value) Scalar.zero = false := by
  rw [← Bool.not_eq_true, lt_iff]
  rintro ⟨hNumber, hLess⟩
  have hUnpack :
      (Scalar.abs value).toModel.unpack =
        UnpackedFloat.unpack .binary64
          (UnpackedFloat.pack .binary64
            value.toModel.unpack.abs) := rfl
  rcases exists_pack_abs .binary64 value.toModel.unpack with
    ⟨exponent, mantissa, hPack⟩
  rw [hUnpack, hPack] at hNumber hLess
  have hZero :
      rank (Scalar.zero : Float).toModel.unpack =
        rankOf 0 0 0 := rfl
  rw [hZero] at hLess
  exact absurd (zero_le_rank_packComponents hNumber)
    (not_le.mpr hLess)

theorem bottom_le
    {value : UnpackedFloat}
    (hNumber : rank value ≠ ⊥) :
    rank (Extremes.bottom : Float).toModel.unpack ≤
      rank value := by
  have hBottom :
      (Extremes.bottom : Float).toModel.unpack =
        .infinity .negative := rfl
  rw [hBottom]
  revert hNumber
  rcases value with
    (_ | _) | _ | (_ | _) | ⟨(_ | _), _, _, _⟩ <;>
  simp [rank, ← not_lt, rankOf_lt_rankOf_iff]

end Doubles

instance : RankedScalar Float where
  Rank := Doubles.Rank
  order := inferInstance
  rank := fun value => Doubles.rank value.toModel.unpack
  isNaN_iff := fun value =>
    Doubles.isNaN_iff value.toModel.unpack
  lt_iff := Doubles.lt_iff
  le_iff := Doubles.le_iff
  same_iff := Doubles.same_iff
  rank_larger := Doubles.rank_larger
  abs_lt_zero := Doubles.abs_lt_zero

instance : RankedExtremes Float where
  bottom_le := fun _ => Doubles.bottom_le

end JointMax
