import Mathlib
import JointMax.Proofs.Argmax
import JointMax.Proofs.Expansion
import JointMax.Proofs.Precedence
import JointMax.Proofs.Ranks

/-
  Places of the largest values of a table, which may hold
  values that are not numbers and equal values. The best
  place is the least one whose value is at least every
  number, and the runner-up is the least such one outside a
  place. The best place stays where it is in an expansion,
  with zero at the added variables. So does the runner-up,
  unless the best place itself is left out and has copies.

  Main declarations:
    * `Scope.embed` and `Scope.project`
    * `Table.Leads` and `Table.isLeast_argmaxAmong`
    * `Table.BestPlaces` and `Table.StablePlaces`
    * `Table.largest_places`
-/

------------------------------------------------------------
-- Places in a Larger Scope
------------------------------------------------------------

namespace JointMax

namespace MixedRadix

/- A number does not grow when no digit does. -/
theorem encode_map_le
    {ι : Type}
    {first second : ι → Nat}
    {items : List ι}
    (radices : List Nat)
    (hDigits : ∀ item ∈ items, first item ≤ second item) :
    encode radices (items.map first) ≤
      encode radices (items.map second) := by
  induction items generalizing radices with
  | nil => exact le_refl _
  | cons item items ih =>
      cases radices with
      | nil => exact le_refl _
      | cons radix radices =>
          have hRest := ih radices fun other hOther =>
            hDigits other (by simp [hOther])
          exact Nat.add_le_add (hDigits item (by simp))
            (Nat.mul_le_mul_left radix hRest)

end MixedRadix

namespace Scope

variable {smaller larger : Scope} {own index : Nat}

/- The joint value continued by zeros to a larger scope. -/
def embed (smaller larger : Scope) (own : Nat) : Nat :=
  larger.number (smaller.revise own fun _ => 0)

/- The part of a joint value in a smaller scope. -/
def project (smaller larger : Scope) (index : Nat) : Nat :=
  smaller.number (larger.revise index fun _ => 0)

theorem revise_of_not_mem
    {base : VarId → Nat}
    {var : VarId}
    (hVar : var ∉ smaller.vars) :
    smaller.revise own base var = base var := by
  rw [revise, aligned_of_not_mem hVar]
  rfl

/- Continued by zeros, a joint value is in range. -/
theorem admits_zeros
    (hIncludes : larger.includes smaller = true)
    (hOwn : own < smaller.count) :
    larger.Admits (smaller.revise own fun _ => 0) := by
  intro axis hAxis
  by_cases hVar : axis.var ∈ smaller.vars
  · rcases mem_vars_iff.mp hVar with ⟨mine, hMine, hSame⟩
    have hBoth : mine = axis :=
      axis_eq_of_var_eq
        (includes_iff.mp hIncludes mine hMine) hAxis hSame
    exact admits_revise hOwn axis (hBoth ▸ hMine)
  · rw [revise_of_not_mem hVar]
    exact axis.size_pos

theorem embed_lt
    (hIncludes : larger.includes smaller = true)
    (hOwn : own < smaller.count) :
    smaller.embed larger own < larger.count :=
  number_lt (admits_zeros hIncludes hOwn)

theorem project_lt
    (hIncludes : larger.includes smaller = true)
    (hIndex : index < larger.count) :
    smaller.project larger index < smaller.count :=
  number_lt ((admits_revise hIndex).of_includes hIncludes)

theorem project_number
    {joint : VarId → Nat}
    (hIncludes : larger.includes smaller = true)
    (hJoint : larger.Admits joint) :
    smaller.project larger (larger.number joint) =
      smaller.number joint := by
  apply number_congr
  apply Agree.of_includes hIncludes
  exact agree_of_number_eq (admits_revise (number_lt hJoint))
    hJoint (number_revise (number_lt hJoint))

theorem project_embed
    (hIncludes : larger.includes smaller = true)
    (hOwn : own < smaller.count) :
    smaller.project larger (smaller.embed larger own) =
      own := by
  rw [embed, project_number hIncludes
    (admits_zeros hIncludes hOwn), number_revise hOwn]

/- A joint value and its part agree in the smaller scope. -/
theorem agree_project
    (hIncludes : larger.includes smaller = true)
    (hIndex : index < larger.count) :
    smaller.Agree
      (smaller.revise (smaller.project larger index)
        fun _ => 0)
      (larger.revise index fun _ => 0) := by
  have hInside := project_lt hIncludes hIndex
  exact agree_of_number_eq (admits_revise hInside)
    ((admits_revise hIndex).of_includes hIncludes)
    (number_revise hInside)

/- Zeros elsewhere do not raise the number. -/
theorem embed_project_le
    (hIncludes : larger.includes smaller = true)
    (hIndex : index < larger.count) :
    smaller.embed larger (smaller.project larger index) ≤
      index := by
  calc
    smaller.embed larger (smaller.project larger index) ≤
        larger.number (larger.revise index fun _ => 0) := by
      apply MixedRadix.encode_map_le
      intro var _
      by_cases hVar : var ∈ smaller.vars
      · exact (agree_project hIncludes hIndex var hVar).le
      · rw [revise_of_not_mem hVar]
        exact Nat.zero_le _
    _ = index := number_revise hIndex

/- Variables with one value have the value zero. -/
theorem embed_project
    (hIncludes : larger.includes smaller = true)
    (hSingle : ∀ axis ∈ larger.axes,
      axis.var ∉ smaller.vars → axis.size = 1)
    (hIndex : index < larger.count) :
    smaller.embed larger (smaller.project larger index) =
      index := by
  have hSame :
      larger.Agree
        (smaller.revise (smaller.project larger index)
          fun _ => 0)
        (larger.revise index fun _ => 0) := by
    intro var hVar
    by_cases hOwn : var ∈ smaller.vars
    · exact agree_project hIncludes hIndex var hOwn
    · rcases mem_vars_iff.mp hVar with ⟨axis, hAxis, rfl⟩
      have hDigit :
          larger.revise index (fun _ => 0) axis.var <
            axis.size :=
        admits_revise hIndex axis hAxis
      rw [hSingle axis hAxis hOwn] at hDigit
      rw [revise_of_not_mem hOwn]
      exact (Nat.lt_one_iff.mp hDigit).symm
  rw [embed, number_congr hSame, number_revise hIndex]

theorem embed_lt_embed
    {other : Nat}
    (hIncludes : larger.includes smaller = true)
    (hOther : other < smaller.count)
    (hLess : own < other) :
    smaller.embed larger own < smaller.embed larger other := by
  have hOwn := hLess.trans hOther
  apply number_lt_number hIncludes
    (admits_zeros hIncludes hOwn)
    (admits_zeros hIncludes hOther)
  · intro var _ hVar
    rw [revise_of_not_mem hVar, revise_of_not_mem hVar]
  · rwa [number_revise hOwn, number_revise hOther]

theorem embed_inj
    {other : Nat}
    (hIncludes : larger.includes smaller = true)
    (hOwn : own < smaller.count)
    (hOther : other < smaller.count) :
    smaller.embed larger own = smaller.embed larger other ↔
      own = other := by
  constructor
  · intro hSame
    rw [← project_embed hIncludes hOwn, hSame,
      project_embed hIncludes hOther]
  · rintro rfl
    rfl

/-
  The least place with a property of its part in a smaller
  scope is the least part with the property, with zeros.
-/
theorem isLeast_embed
    {P : Nat → Prop}
    (hIncludes : larger.includes smaller = true)
    (hLeast :
      IsLeast {own | own < smaller.count ∧ P own} own) :
    IsLeast
      {index | index < larger.count ∧
        P (smaller.project larger index)}
      (smaller.embed larger own) := by
  rcases hLeast with ⟨⟨hOwn, hHolds⟩, hLower⟩
  constructor
  · refine ⟨embed_lt hIncludes hOwn, ?_⟩
    rwa [project_embed hIncludes hOwn]
  · rintro index ⟨hIndex, hPart⟩
    have hInside := project_lt hIncludes hIndex
    have hBelow := embed_project_le hIncludes hIndex
    rcases (hLower ⟨hInside, hPart⟩).eq_or_lt with
      hSame | hLess
    · rwa [hSame]
    · exact (embed_lt_embed hIncludes hInside
        hLess).le.trans hBelow

/-
  With several values of an added variable, more than one
  place has a given part. Another one has the value one there.
-/
theorem exists_copy
    {axis : Axis}
    (hIncludes : larger.includes smaller = true)
    (hOwn : own < smaller.count)
    (hAxis : axis ∈ larger.axes)
    (hAdded : axis.var ∉ smaller.vars)
    (hSize : axis.size ≠ 1) :
    ∃ copy < larger.count,
      copy ≠ smaller.embed larger own ∧
        smaller.project larger copy = own := by
  let zeros := smaller.revise own fun _ => 0
  let ones := Function.update zeros axis.var 1
  have hZeros : larger.Admits zeros :=
    admits_zeros hIncludes hOwn
  have hOnes : larger.Admits ones := by
    intro other hOther
    by_cases hVar : other.var = axis.var
    · have hSame := axis_eq_of_var_eq hOther hAxis hVar
      have hPos := axis.size_pos
      simp only [ones, hSame, Function.update_self]
      omega
    · simp only [ones, Function.update_of_ne hVar]
      exact hZeros other hOther
  have hAgree : smaller.Agree ones zeros := by
    intro var hVar
    apply Function.update_of_ne
    rintro rfl
    exact hAdded hVar
  refine ⟨larger.number ones, number_lt hOnes, ?_, ?_⟩
  · intro hSame
    have hDigit :=
      agree_of_number_eq hOnes hZeros hSame axis.var
        (mem_vars hAxis)
    simp only [ones, Function.update_self, zeros] at hDigit
    rw [revise_of_not_mem hAdded] at hDigit
    cases hDigit
  · rw [project_number hIncludes hOnes, number_congr hAgree,
      number_revise hOwn]

/- The digits of a joint value continued by zeros. -/
theorem aligned_embed
    {var : VarId}
    (hIncludes : larger.includes smaller = true)
    (hOwn : own < smaller.count)
    (hVar : var ∈ larger.vars) :
    aligned larger.vars
        (larger.decode (smaller.embed larger own)) var =
      if var ∈ smaller.vars then
        aligned smaller.vars (smaller.decode own) var
      else some 0 := by
  rw [embed, decode_number (admits_zeros hIncludes hOwn),
    aligned_vars _ hVar]
  split
  · rename_i hInside
    rw [← map_revise smaller own fun _ => 0,
      aligned_vars _ hInside]
  · rename_i hOutside
    rw [revise_of_not_mem hOutside]

end Scope

end JointMax

------------------------------------------------------------
-- Best Places by Rank
------------------------------------------------------------

namespace JointMax

namespace Table

variable {α : Type} [Scalar α] [RankedScalar α]

/- The rank of the value at a place. -/
def rankAt (table : Table α) (index : Nat) :
    WithBot (RankedScalar.Rank α) :=
  RankedScalar.rank (table.cell index)

/-
  What the best place among the seen ones is: none if no
  number was seen, else the first of the highest rank.
-/
inductive Leads (table : Table α) (seen : List Nat) :
    Option Nat → Prop where
  | nobody
      (numberless :
        ∀ place ∈ seen, table.rankAt place = ⊥) :
      Leads table seen none
  | leader {leader : Nat}
      (seen_leader : leader ∈ seen)
      (number : table.rankAt leader ≠ ⊥)
      (highest : ∀ place ∈ seen,
        table.rankAt place ≤ table.rankAt leader)
      (first : ∀ place ∈ seen, place < leader →
        table.rankAt place < table.rankAt leader) :
      Leads table seen (some leader)

variable {table : Table α} {places seen : List Nat}
variable {best : Option Nat} {place : Nat}

theorem isNaN_cell_iff :
    Scalar.isNaN (table.cell place) = true ↔
      table.rankAt place = ⊥ :=
  RankedScalar.isNaN_iff _

omit [RankedScalar α] in
theorem forall_mem_concat_iff {P : Nat → Prop} :
    (∀ other ∈ seen ++ [place], P other) ↔
      (∀ other ∈ seen, P other) ∧ P place := by
  rw [List.forall_mem_append, List.forall_mem_singleton]

/- A place that holds no number changes nothing. -/
theorem Leads.skip
    (hLeads : table.Leads seen best)
    (hBottom : table.rankAt place = ⊥) :
    table.Leads (seen ++ [place]) best := by
  cases hLeads with
  | nobody hNone =>
      exact .nobody
        (forall_mem_concat_iff.mpr ⟨hNone, hBottom⟩)
  | leader hSeen hNumber hHighest hFirst =>
      refine .leader (List.mem_append_left _ hSeen) hNumber
        (forall_mem_concat_iff.mpr ⟨hHighest, ?_⟩)
        (forall_mem_concat_iff.mpr ⟨hFirst, fun _ => ?_⟩)
      · rw [hBottom]
        exact bot_le
      · rw [hBottom]
        exact bot_lt_iff_ne_bot.mpr hNumber

/- A place later than all others leads if it beats them. -/
theorem Leads.of_lt
    (hNumber : table.rankAt place ≠ ⊥)
    (hLess : ∀ other ∈ seen,
      table.rankAt other < table.rankAt place) :
    table.Leads (seen ++ [place]) (some place) := by
  refine .leader (by simp) hNumber
    (forall_mem_concat_iff.mpr
      ⟨fun other hOther => (hLess other hOther).le,
        le_refl _⟩)
    (forall_mem_concat_iff.mpr
      ⟨fun other hOther _ => hLess other hOther,
        fun hSelf => absurd hSelf (lt_irrefl _)⟩)

/- One more place, after those seen, keeps the invariant. -/
theorem Leads.better
    (hLeads : table.Leads seen best)
    (hAfter : ∀ earlier ∈ seen, earlier < place) :
    table.Leads (seen ++ [place])
      (table.better best place) := by
  unfold Table.better
  split
  · rename_i hNaN
    exact hLeads.skip (isNaN_cell_iff.mp hNaN)
  · rename_i hNaN
    have hPlace : table.rankAt place ≠ ⊥ := by
      rwa [ne_eq, ← isNaN_cell_iff]
    cases hLeads with
    | nobody hNone =>
        apply Leads.of_lt hPlace
        intro other hOther
        rw [hNone other hOther]
        exact bot_lt_iff_ne_bot.mpr hPlace
    | leader hSeen hNumber hHighest hFirst =>
        dsimp only
        split
        · rename_i hLess
          have hBeats := ((RankedScalar.lt_iff _ _).mp hLess).2
          exact Leads.of_lt hPlace fun other hOther =>
            (hHighest other hOther).trans_lt hBeats
        · rename_i leader hKept
          rw [Bool.not_eq_true,
            RankedScalar.lt_eq_false_iff] at hKept
          have hBehind := (hAfter leader hSeen).not_gt
          exact .leader (List.mem_append_left _ hSeen) hNumber
            (forall_mem_concat_iff.mpr
              ⟨hHighest, hKept hNumber⟩)
            (forall_mem_concat_iff.mpr
              ⟨hFirst, fun hEarly => absurd hEarly hBehind⟩)

/- The loop over increasing places ends at the leader. -/
theorem leads_foldl
    (hSorted : places.Pairwise (· < ·)) :
    table.Leads places (places.foldl table.better none) := by
  induction places using List.reverseRecOn with
  | nil => exact .nobody (by simp)
  | append_singleton seen place ih =>
      rcases List.pairwise_append.mp hSorted with
        ⟨hSeen, _, hAfter⟩
      rw [List.foldl_append]
      exact (ih hSeen).better fun earlier hEarlier =>
        hAfter earlier hEarlier place (by simp)

/-
  The places among some whose value is at least every number
  there. These are all of them if none holds a number.
-/
def bestAmong (table : Table α) (among : Set Nat) : Set Nat :=
  {place ∈ among | ∀ other ∈ among,
    Scalar.isNaN (table.cell other) = false →
      Scalar.le (table.cell other) (table.cell place) = true}

theorem mem_bestAmong_iff {among : Set Nat} :
    place ∈ table.bestAmong among ↔
      place ∈ among ∧ ∀ other ∈ among,
        table.rankAt other ≤ table.rankAt place := by
  apply and_congr_right
  intro _
  apply forall₂_congr
  intro other _
  rw [RankedScalar.isNaN_eq_false_iff, RankedScalar.le_iff]
  constructor
  · intro hNumber
    by_cases hBottom : table.rankAt other = ⊥
    · rw [hBottom]
      exact bot_le
    · exact (hNumber hBottom).2
  · exact fun hRank hNumber => ⟨hNumber, hRank⟩

/- The chosen place is the least of the best ones. -/
theorem isLeast_argmaxAmong
    (hSorted : places.Pairwise (· < ·))
    (hPlaces : places ≠ []) :
    IsLeast (table.bestAmong {place | place ∈ places})
      (table.argmaxAmong places) := by
  have hLeads :
      table.Leads places (places.foldl table.better none) :=
    leads_foldl hSorted
  unfold argmaxAmong
  generalize places.foldl table.better none = best at hLeads
  cases hLeads with
  | nobody hNone =>
      rcases List.exists_cons_of_ne_nil hPlaces with
        ⟨first, rest, rfl⟩
      constructor
      · refine mem_bestAmong_iff.mpr
          ⟨List.mem_cons_self, fun other hOther => ?_⟩
        rw [hNone other hOther]
        exact bot_le
      · rintro place ⟨hPlace, _⟩
        rcases List.mem_cons.mp hPlace with rfl | hRest
        · exact le_refl _
        · exact ((List.pairwise_cons.mp hSorted).1 place
            hRest).le
  | leader hSeen hNumber hHighest hFirst =>
      refine ⟨mem_bestAmong_iff.mpr ⟨hSeen, hHighest⟩, ?_⟩
      intro place hPlace
      rcases mem_bestAmong_iff.mp hPlace with
        ⟨hInside, hTops⟩
      by_contra hEarlier
      exact absurd (hTops _ hSeen)
        (hFirst place hInside (not_le.mp hEarlier)).not_ge

end Table

end JointMax

------------------------------------------------------------
-- The Best Place and the Runner-Up
------------------------------------------------------------

namespace JointMax

namespace Table

variable {α : Type} [Scalar α] [RankedScalar α]
variable {table result : Table α} {excluded : Nat}

/- The linear indices of a table. -/
def indices (table : Table α) : Set Nat :=
  Set.Iio table.scope.count

theorem isLeast_argmax :
    IsLeast (table.bestAmong table.indices) table.argmax := by
  have hAll :
      {place | place ∈ List.range table.values.size} =
        table.indices := by
    ext place
    simp [indices, table.size_eq]
  rw [← hAll]
  apply isLeast_argmaxAmong List.pairwise_lt_range
  rw [ne_eq, List.range_eq_nil, table.size_eq]
  exact table.scope.count_pos.ne'

theorem isLeast_runnerUp
    (hSeveral : 2 ≤ table.values.size) :
    IsLeast (table.bestAmong (table.indices \ {excluded}))
      (table.runnerUp excluded) := by
  have hOthers :
      {place | place ∈
        (List.range table.values.size).filter
          (· != excluded)} =
        table.indices \ {excluded} := by
    ext place
    simp [indices, table.size_eq]
  rw [runnerUp, if_neg (not_lt.mpr hSeveral), ← hOthers]
  apply isLeast_argmaxAmong
  · exact List.pairwise_lt_range.filter _
  · -- One of the first two places is not left out.
    by_cases hZero : excluded = 0
    · apply List.ne_nil_of_mem (a := 1)
      exact List.mem_filter.mpr
        ⟨List.mem_range.mpr hSeveral, by simp [hZero]⟩
    · apply List.ne_nil_of_mem (a := 0)
      exact List.mem_filter.mpr
        ⟨List.mem_range.mpr (by omega),
          by simpa using Ne.symm hZero⟩

theorem runnerUp_ne
    (hSeveral : 2 ≤ table.values.size) :
    table.runnerUp excluded ≠ excluded :=
  (isLeast_runnerUp hSeveral).1.1.2

/- No value is of a higher rank than the best place. -/
theorem rankAt_le_argmax
    {place : Nat}
    (hPlace : place < table.scope.count) :
    table.rankAt place ≤ table.rankAt table.argmax :=
  (mem_bestAmong_iff.mp isLeast_argmax.1).2 place hPlace

/- If there are numbers, then the best place holds one. -/
theorem rankAt_argmax_ne_bot
    {place : Nat}
    (hPlace : place < table.scope.count)
    (hNumber : Scalar.isNaN (table.cell place) = false) :
    table.rankAt table.argmax ≠ ⊥ :=
  ne_bot_of_le_ne_bot
    (RankedScalar.isNaN_eq_false_iff.mp hNumber)
    (rankAt_le_argmax hPlace)

/- The best place is the runner-up to any other one. -/
theorem runnerUp_of_ne
    (hInside : excluded < table.scope.count)
    (hOther : excluded ≠ table.argmax) :
    table.runnerUp excluded = table.argmax := by
  have hPlace := table.argmax_lt
  have hSeveral : 2 ≤ table.values.size := by
    rw [table.size_eq]
    omega
  apply (isLeast_runnerUp hSeveral).unique
  constructor
  · exact mem_bestAmong_iff.mpr
      ⟨⟨hPlace, hOther.symm⟩, fun other hOutside =>
        rankAt_le_argmax hOutside.1⟩
  · intro place hBest
    rcases mem_bestAmong_iff.mp hBest with ⟨hOwn, hTops⟩
    have hLeader := hTops table.argmax ⟨hPlace, hOther.symm⟩
    apply isLeast_argmax.2
    exact mem_bestAmong_iff.mpr
      ⟨hOwn.1, fun other hOutside =>
        (rankAt_le_argmax hOutside).trans hLeader⟩

theorem rank_maximum_le_iff
    [Extremes α]
    {bound : WithBot (RankedScalar.Rank α)} :
    RankedScalar.rank table.maximum ≤ bound ↔
      RankedScalar.rank (Extremes.bottom : α) ≤ bound ∧
        ∀ place < table.scope.count,
          table.rankAt place ≤ bound := by
  rw [maximum, ← Array.foldl_toList,
    RankedScalar.rank_foldl_larger_le_iff, toList_values,
    List.forall_mem_map]
  simp only [List.mem_range, rankAt]

/- The largest value is ranked as the best place. -/
theorem rank_maximum
    [Extremes α] [RankedExtremes α]
    (hNumber : table.rankAt table.argmax ≠ ⊥) :
    RankedScalar.rank table.maximum =
      table.rankAt table.argmax := by
  apply le_antisymm
  · apply rank_maximum_le_iff.mpr
    exact ⟨RankedExtremes.bottom_le _ hNumber,
      fun place => rankAt_le_argmax⟩
  · exact (rank_maximum_le_iff.mp le_rfl).2 _
      table.argmax_lt

/-
  What the places of the largest values are, with and without
  numbers among the values.
-/
structure BestPlaces
    [Extremes α]
    (table : Table α) : Prop where
  argmax :
    (∃ place < table.scope.count,
      Scalar.isNaN (table.cell place) = false) →
      IsLeast (table.bestAmong table.indices) table.argmax ∧
        Scalar.same (table.cell table.argmax)
          table.maximum = true
  argmax_numberless :
    (∀ place < table.scope.count,
      Scalar.isNaN (table.cell place) = true) →
      table.argmax = 0
  runnerUp :
    2 ≤ table.values.size → ∀ excluded,
      table.runnerUp excluded ≠ excluded ∧
        IsLeast
          (table.bestAmong (table.indices \ {excluded}))
          (table.runnerUp excluded)
  runnerUp_numberless :
    2 ≤ table.values.size → ∀ excluded,
      (∀ place < table.scope.count, place ≠ excluded →
        Scalar.isNaN (table.cell place) = true) →
        IsLeast (table.indices \ {excluded})
          (table.runnerUp excluded)
  runnerUp_single :
    table.values.size = 1 → ∀ excluded,
      table.runnerUp excluded = excluded

/- Without numbers every place is best. -/
omit [RankedScalar α] in
theorem bestAmong_numberless
    {among : Set Nat}
    (hNone : ∀ place ∈ among,
      Scalar.isNaN (table.cell place) = true) :
    table.bestAmong among = among := by
  apply Set.sep_eq_self_iff_mem_true.mpr
  intro place _ other hOther hNumber
  rw [hNone other hOther] at hNumber
  cases hNumber

theorem bestPlaces
    [Extremes α] [RankedExtremes α]
    (table : Table α) :
    table.BestPlaces where
  argmax := by
    rintro ⟨place, hPlace, hNumber⟩
    refine ⟨isLeast_argmax, ?_⟩
    have hRank : table.rankAt table.argmax ≠ ⊥ :=
      rankAt_argmax_ne_bot hPlace hNumber
    exact (RankedScalar.same_iff _ _).mpr
      ⟨hRank, (rank_maximum hRank).symm⟩
  argmax_numberless := by
    intro hNone
    have hAll : table.bestAmong table.indices = table.indices :=
      bestAmong_numberless hNone
    have hLeast := hAll ▸ isLeast_argmax
    exact Nat.le_zero.mp (hLeast.2 table.scope.count_pos)
  runnerUp := by
    intro hSeveral excluded
    exact ⟨runnerUp_ne hSeveral, isLeast_runnerUp hSeveral⟩
  runnerUp_numberless := by
    intro hSeveral excluded hNone
    have hAll :
        table.bestAmong (table.indices \ {excluded}) =
          table.indices \ {excluded} :=
      bestAmong_numberless fun place hPlace =>
        hNone place hPlace.1 hPlace.2
    exact hAll ▸ isLeast_runnerUp hSeveral
  runnerUp_single := by
    intro hSingle excluded
    rw [Table.runnerUp, if_pos (by omega)]

end Table

end JointMax

------------------------------------------------------------
-- Places in Expansions
------------------------------------------------------------

namespace JointMax

namespace Table

variable {α : Type} [Scalar α] [RankedScalar α]
variable {table result : Table α} {own index : Nat}

theorem Extended.rankAt
    (hExtended : table.Extended result)
    (hIndex : index < result.scope.count) :
    result.rankAt index =
      table.rankAt (table.scope.project result.scope index) := by
  rw [Table.rankAt, cell_eq_eval_revise (fun _ => 0) hIndex,
    hExtended.eval (Scope.admits_revise hIndex)]
  rfl

/-
  The best of the places whose parts are among given ones is
  the best of these, continued by zeros.
-/
theorem Extended.isLeast_bestAmong
    {among : Set Nat}
    (hExtended : table.Extended result)
    (hAmong : among ⊆ table.indices)
    (hLeast : IsLeast (table.bestAmong among) own) :
    IsLeast
      (result.bestAmong {index | index < result.scope.count ∧
        table.scope.project result.scope index ∈ among})
      (table.scope.embed result.scope own) := by
  have hIncludes := hExtended.includes
  have hOwn : IsLeast
      {own | own < table.scope.count ∧
        own ∈ table.bestAmong among} own :=
    ⟨⟨hAmong hLeast.1.1, hLeast.1⟩,
      fun other hOther => hLeast.2 hOther.2⟩
  have hEmbedded := Scope.isLeast_embed hIncludes hOwn
  have hPlaces :
      result.bestAmong {index | index < result.scope.count ∧
          table.scope.project result.scope index ∈ among} =
        {index | index < result.scope.count ∧
          table.scope.project result.scope index ∈
            table.bestAmong among} := by
    ext index
    simp only [mem_bestAmong_iff, Set.mem_ofPred_eq, and_assoc]
    apply and_congr_right
    intro hIndex
    apply and_congr_right
    intro _
    rw [hExtended.rankAt hIndex]
    constructor
    · intro hTops other hOther
      have hInside := hAmong hOther
      have hCopy := hTops
        (table.scope.embed result.scope other)
        ⟨Scope.embed_lt hIncludes hInside, by
          rwa [Scope.project_embed hIncludes hInside]⟩
      rwa [hExtended.rankAt
          (Scope.embed_lt hIncludes hInside),
        Scope.project_embed hIncludes hInside] at hCopy
    · rintro hTops other ⟨hOther, hPart⟩
      rw [hExtended.rankAt hOther]
      exact hTops _ hPart
  rwa [hPlaces]

/- The best place of an expansion has zeros where added. -/
theorem Extended.argmax
    (hExtended : table.Extended result) :
    result.argmax =
      table.scope.embed result.scope table.argmax := by
  have hLeast := hExtended.isLeast_bestAmong
    (Set.Subset.refl table.indices) isLeast_argmax
  have hPlaces :
      {index | index < result.scope.count ∧
        table.scope.project result.scope index ∈
          table.indices} = result.indices := by
    ext index
    exact and_iff_left_of_imp fun hIndex =>
      Scope.project_lt hExtended.includes hIndex
  rw [hPlaces] at hLeast
  exact isLeast_argmax.unique hLeast

theorem Extended.rankAt_argmax
    (hExtended : table.Extended result) :
    result.rankAt result.argmax =
      table.rankAt table.argmax := by
  rw [hExtended.rankAt result.argmax_lt, hExtended.argmax,
    Scope.project_embed hExtended.includes table.argmax_lt]

/- A runner-up that is the best place stays where it is. -/
theorem Extended.runnerUp_of_ne
    (hExtended : table.Extended result)
    (hOwn : own < table.scope.count)
    (hOther : own ≠ table.argmax) :
    result.runnerUp (table.scope.embed result.scope own) =
      table.scope.embed result.scope (table.runnerUp own) := by
  rw [Table.runnerUp_of_ne hOwn hOther, ← hExtended.argmax]
  apply Table.runnerUp_of_ne
    (Scope.embed_lt hExtended.includes hOwn)
  rwa [hExtended.argmax, ne_eq,
    Scope.embed_inj hExtended.includes hOwn table.argmax_lt]

omit [RankedScalar α] in
theorem Extended.size_le
    (hExtended : table.Extended result) :
    table.values.size ≤ result.values.size := by
  rw [table.size_eq, result.size_eq]
  exact Scope.count_le_of_includes hExtended.includes

/- With one value for each added variable nothing is copied. -/
theorem Extended.runnerUp_of_single
    (hExtended : table.Extended result)
    (hSingle : ∀ axis ∈ result.scope.axes,
      axis.var ∉ table.vars → axis.size = 1)
    (hOwn : own < table.scope.count) :
    result.runnerUp (table.scope.embed result.scope own) =
      table.scope.embed result.scope (table.runnerUp own) := by
  have hIncludes := hExtended.includes
  have hBack : ∀ index < result.scope.count,
      table.scope.embed result.scope
        (table.scope.project result.scope index) = index :=
    fun index => Scope.embed_project hIncludes hSingle
  by_cases hSeveral : 2 ≤ table.values.size
  · have hPlaces :
        {index | index < result.scope.count ∧
          table.scope.project result.scope index ∈
            table.indices \ {own}} =
          result.indices \
            {table.scope.embed result.scope own} := by
      ext index
      apply and_congr_right
      intro hIndex
      have hInside := Scope.project_lt hIncludes hIndex
      refine (and_iff_right hInside).trans (not_congr ?_)
      constructor
      · rintro rfl
        exact (hBack index hIndex).symm
      · rintro rfl
        exact Scope.project_embed hIncludes hOwn
    have hOthers :
        IsLeast (table.bestAmong (table.indices \ {own}))
          (table.runnerUp own) :=
      isLeast_runnerUp hSeveral
    have hLeast := hExtended.isLeast_bestAmong
      Set.sdiff_subset hOthers
    rw [hPlaces] at hLeast
    exact (isLeast_runnerUp
      (hSeveral.trans hExtended.size_le)).unique hLeast
  · have hOne : ∀ index < result.scope.count,
        index = table.scope.embed result.scope 0 := by
      intro index hIndex
      have hInside := Scope.project_lt hIncludes hIndex
      rw [← table.size_eq] at hInside
      have hZero :
          table.scope.project result.scope index = 0 := by
        omega
      rw [← hZero, hBack index hIndex]
    have hFew : result.values.size < 2 := by
      by_contra hMany
      rw [result.size_eq] at hMany
      have hFirst := hOne 0 (by omega)
      have hSecond := hOne 1 (by omega)
      omega
    rw [Table.runnerUp, if_pos hFew, Table.runnerUp,
      if_pos (not_le.mp hSeveral)]

/-
  If an added variable has several values, then a copy of the
  best place is left when the best place is left out.
-/
theorem Extended.rankAt_runnerUp_of_copies
    (hExtended : table.Extended result)
    {axis : Axis}
    (hAxis : axis ∈ result.scope.axes)
    (hAdded : axis.var ∉ table.vars)
    (hSize : axis.size ≠ 1) :
    result.rankAt (result.runnerUp result.argmax) =
      result.rankAt result.argmax := by
  rcases Scope.exists_copy hExtended.includes
      table.argmax_lt hAxis hAdded hSize with
    ⟨copy, hCopy, hApart, hPart⟩
  rw [← hExtended.argmax] at hApart
  have hRank :
      result.rankAt copy = result.rankAt result.argmax := by
    rw [hExtended.rankAt hCopy, hPart,
      hExtended.rankAt_argmax]
  have hLast := result.argmax_lt
  have hSeveral : 2 ≤ result.values.size := by
    rw [result.size_eq]
    omega
  rcases mem_bestAmong_iff.mp
      (isLeast_runnerUp hSeveral).1 with ⟨hOwn, hTops⟩
  apply le_antisymm (rankAt_le_argmax hOwn.1)
  rw [← hRank]
  exact hTops copy ⟨hCopy, hApart⟩

/- Where the places of the largest values go in expansions. -/
structure StablePlaces (table result : Table α) : Prop where
  argmax :
    result.argmax =
      table.scope.embed result.scope table.argmax
  digits :
    ∀ var ∈ result.vars,
      aligned result.vars
          (result.scope.decode result.argmax) var =
        if var ∈ table.vars then
          aligned table.vars
            (table.scope.decode table.argmax) var
        else some 0
  runnerUp :
    ∀ own < table.scope.count,
      (own ≠ table.argmax ∨
        ∀ axis ∈ result.scope.axes,
          axis.var ∉ table.vars → axis.size = 1) →
        result.runnerUp
            (table.scope.embed result.scope own) =
          table.scope.embed result.scope
            (table.runnerUp own)
  copies :
    (∃ place < table.scope.count,
      Scalar.isNaN (table.cell place) = false) →
      ∀ axis ∈ result.scope.axes,
        axis.var ∉ table.vars → axis.size ≠ 1 →
          Scalar.same
            (result.cell (result.runnerUp result.argmax))
            (table.cell table.argmax) = true

theorem Extended.stablePlaces
    (hExtended : table.Extended result) :
    table.StablePlaces result where
  argmax := hExtended.argmax
  digits := by
    intro var hVar
    rw [hExtended.argmax]
    exact Scope.aligned_embed hExtended.includes
      table.argmax_lt hVar
  runnerUp := by
    rintro own hOwn (hOther | hSingle)
    · exact hExtended.runnerUp_of_ne hOwn hOther
    · exact hExtended.runnerUp_of_single hSingle hOwn
  copies := by
    rintro ⟨place, hPlace, hNumber⟩ axis hAxis hAdded hSize
    have hTied :=
      hExtended.rankAt_runnerUp_of_copies hAxis hAdded hSize
    rw [hExtended.rankAt_argmax] at hTied
    apply RankedScalar.same_symm
    apply (RankedScalar.same_iff _ _).mpr
    exact ⟨rankAt_argmax_ne_bot hPlace hNumber, hTied.symm⟩

/-
  The best place and the runner-up of every table are the
  least places of the largest numbers, and the expansions of
  a table have them at the same digits, up to ties between
  copies of the best place.
-/
theorem largest_places [Extremes α] [RankedExtremes α] :
    (∀ table : Table α, table.BestPlaces) ∧
      ∀ (table result : Table α) (scope : Scope),
        table.expand? scope = .ok result →
          table.StablePlaces result :=
  ⟨bestPlaces, fun _ _ _ hResult =>
    (extended_of_expand? hResult).stablePlaces⟩

/- Two values over one variable. -/
def column : Table Float :=
  ⟨⟨[⟨1, 2, Nat.two_pos⟩], by decide⟩,
    #[Scalar.one, Scalar.zero], rfl⟩

/- Two copies of the column. -/
def square : Table Float :=
  ⟨⟨[⟨1, 2, Nat.two_pos⟩, ⟨2, 2, Nat.two_pos⟩],
      by decide⟩,
    #[Scalar.one, Scalar.zero, Scalar.one, Scalar.zero],
    rfl⟩

theorem expand?_column :
    column.expand? square.scope = .ok square := by
  have hIncludes :
      square.scope.includes column.scope = true := by
    decide
  have hCopies : column.broadcast square.scope = square :=
    Table.ext rfl rfl
  exact expand?_eq_ok_iff.mpr
    ⟨Scope.union?_comm.mp (Scope.union?_of_includes
      hIncludes), hCopies ▸ extended_broadcast hIncludes⟩

theorem largest_places_column :
    column.BestPlaces ∧ column.StablePlaces square :=
  ⟨largest_places.1 column,
    largest_places.2 column square square.scope
      expand?_column⟩

/-
  The runner-up to the best place of the column is its second
  place. In the square the copy of the best place comes first.
-/
theorem runnerUp_square :
    column.expand? square.scope = .ok square ∧
      square.argmax =
        column.scope.embed square.scope column.argmax ∧
      column.runnerUp column.argmax = 1 ∧
      square.runnerUp square.argmax = 2 ∧
      aligned square.vars
          (square.scope.decode
            (square.runnerUp square.argmax)) 1 ≠
        aligned column.vars
          (column.scope.decode
            (column.runnerUp column.argmax)) 1 := by
  have hOne : Scalar.isNaN (Scalar.one : Float) = false := rfl
  have hZero : Scalar.isNaN (Scalar.zero : Float) = false :=
    rfl
  have hFall :
      Scalar.lt (Scalar.one : Float) Scalar.zero = false := rfl
  have hRise :
      Scalar.lt (Scalar.zero : Float) Scalar.one = true := rfl
  have hEqual :
      Scalar.lt (Scalar.one : Float) Scalar.one = false := rfl
  have hColumn : column.argmax = 0 := by
    simp [argmax, argmaxAmong, better, cell, column,
      List.range_succ, hOne, hZero, hFall]
  have hSquare : square.argmax = 0 := by
    simp [argmax, argmaxAmong, better, cell, square,
      List.range_succ, hOne, hZero, hFall, hEqual]
  have hNext : column.runnerUp 0 = 1 := by
    simp [runnerUp, argmaxAmong, better, cell, column,
      List.range_succ, hZero]
  have hCopy : square.runnerUp 0 = 2 := by
    simp [runnerUp, argmaxAmong, better, cell, square,
      List.range_succ, hOne, hZero, hFall, hRise]
  rw [hColumn, hSquare, hNext, hCopy]
  refine ⟨expand?_column, rfl, rfl, rfl, ?_⟩
  rintro ⟨⟩

end Table

end JointMax
