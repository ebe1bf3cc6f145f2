import Mathlib
import JointMax.Proofs.Convergence

/-
  Messages travel one factor a sweep. What a factor tells its
  variables after so many sweeps is decided by the factors
  that are fewer steps away, a step leading from a factor to
  another one of the same variable. Nothing that lies farther
  off has a part in it, and nothing of the arithmetic is used.

  Main declarations:
    * `Graph.ball` and `Graph.component`
    * `Graph.AgreesWithin` and `Graph.AgreesAround`
    * `Solver.Sweeps.messages_eq`
    * `Solver.Reachable.sameAfter_of_agrees`
-/

------------------------------------------------------------
-- Balls and Components
------------------------------------------------------------

namespace JointMax

namespace Graph

variable {α : Type}

/- Both factors depend on some common variable. -/
def Adjoins
    (graph : Graph α)
    (factor other : FactorId) : Prop :=
  ∃ var, graph.Touches factor var ∧ graph.Touches other var

/- The factors within so many steps of the center. -/
def ball (graph : Graph α) (center : FactorId) :
    Nat → Finset FactorId
  | 0 => {center}
  | radius + 1 =>
      graph.ball center radius ∪
        (graph.factors.map Prod.fst).toFinset.filter
          fun other =>
            ∃ factor ∈ graph.ball center radius,
              (graph.scopeSet factor ∩
                graph.scopeSet other).Nonempty

/- The factors within any number of steps. -/
def component
    (graph : Graph α)
    (center : FactorId) : Set FactorId :=
  {factor | Relation.ReflTransGen graph.Adjoins center factor}

/- The same balls, and the same tables under their ids. -/
structure AgreesWithin
    (first second : Graph α)
    (center : FactorId)
    (radius : Nat) : Prop where
  ball_eq :
    first.ball center radius = second.ball center radius
  factor?_eq : ∀ factor ∈ first.ball center radius,
    first.factor? factor = second.factor? factor

/- The same components, and the same tables in them. -/
structure AgreesAround
    (first second : Graph α)
    (center : FactorId) : Prop where
  component_eq :
    first.component center = second.component center
  factor?_eq : ∀ factor ∈ first.component center,
    first.factor? factor = second.factor? factor

variable {graph first second : Graph α}
variable {center factor other : FactorId} {radius : Nat}

theorem adjoins_iff :
    graph.Adjoins factor other ↔
      (graph.scopeSet factor ∩
        graph.scopeSet other).Nonempty := by
  simp only [Adjoins, Finset.Nonempty, Finset.mem_inter,
    mem_scopeSet]

theorem adjoins_congr
    (hFactor : first.factor? factor = second.factor? factor)
    (hOther : first.factor? other = second.factor? other) :
    first.Adjoins factor other ↔
      second.Adjoins factor other := by
  apply exists_congr
  intro var
  rw [touches_congr hFactor, touches_congr hOther]

theorem mem_ball_succ :
    other ∈ graph.ball center (radius + 1) ↔
      other ∈ graph.ball center radius ∨
        ∃ factor ∈ graph.ball center radius,
          graph.Adjoins factor other := by
  have hIds : ∀ factor, graph.Adjoins factor other →
      other ∈ graph.factors.map Prod.fst := by
    rintro factor ⟨var, _, hTouches⟩
    exact hTouches.mem_ids
  rw [ball, Finset.mem_union, Finset.mem_filter,
    List.mem_toFinset]
  simp only [← adjoins_iff]
  apply or_congr_right
  constructor
  · rintro ⟨_, hAdjoins⟩
    exact hAdjoins
  · rintro ⟨factor, hFactor, hAdjoins⟩
    exact ⟨hIds factor hAdjoins, factor, hFactor, hAdjoins⟩

theorem ball_subset_succ
    (graph : Graph α)
    (center : FactorId)
    (radius : Nat) :
    graph.ball center radius ⊆
      graph.ball center (radius + 1) := by
  intro factor hFactor
  exact mem_ball_succ.mpr (.inl hFactor)

theorem center_mem_ball
    (graph : Graph α)
    (center : FactorId)
    (radius : Nat) :
    center ∈ graph.ball center radius := by
  induction radius with
  | zero => exact Finset.mem_singleton_self center
  | succ radius ih => exact graph.ball_subset_succ _ _ ih

/- Those near a neighbour are one step farther off. -/
theorem ball_subset_of_adjoins
    (hAdjoins : graph.Adjoins center other) :
    graph.ball other radius ⊆
      graph.ball center (radius + 1) := by
  induction radius with
  | zero =>
      intro factor hFactor
      rw [Finset.mem_singleton.mp hFactor]
      exact mem_ball_succ.mpr (.inr
        ⟨center, Finset.mem_singleton_self center, hAdjoins⟩)
  | succ radius ih =>
      intro factor hFactor
      rw [mem_ball_succ]
      rcases mem_ball_succ.mp hFactor with
        hNear | ⟨middle, hMiddle, hStep⟩
      · exact .inl (ih hNear)
      · exact .inr ⟨middle, ih hMiddle, hStep⟩

theorem ball_subset_component
    (graph : Graph α)
    (center : FactorId)
    (radius : Nat) :
    ∀ factor ∈ graph.ball center radius,
      factor ∈ graph.component center := by
  induction radius with
  | zero =>
      intro factor hFactor
      rw [Finset.mem_singleton.mp hFactor]
      exact Relation.ReflTransGen.refl
  | succ radius ih =>
      intro factor hFactor
      rcases mem_ball_succ.mp hFactor with
        hNear | ⟨middle, hMiddle, hStep⟩
      · exact ih factor hNear
      · exact Relation.ReflTransGen.tail (ih middle hMiddle)
          hStep

/- A ball that no longer grows is the whole component. -/
theorem component_eq_of_ball_eq
    (hFull :
      graph.ball center (radius + 1) =
        graph.ball center radius) :
    graph.component center =
      graph.ball center radius := by
  apply Set.Subset.antisymm
  · intro factor hFactor
    induction hFactor with
    | refl => exact graph.center_mem_ball center radius
    | @tail middle last _ hStep ih =>
        rw [← hFull]
        exact mem_ball_succ.mpr (.inr ⟨middle, ih, hStep⟩)
  · exact graph.ball_subset_component center radius

/- A ball whose tables are the same is found in both graphs. -/
theorem ball_subset_of_factor?_eq
    (hTables : ∀ factor ∈ first.ball center radius,
      first.factor? factor = second.factor? factor) :
    first.ball center radius ⊆
      second.ball center radius := by
  induction radius with
  | zero => exact Finset.Subset.refl _
  | succ radius ih =>
      have hGrows := first.ball_subset_succ center radius
      have hNear := ih fun factor hFactor =>
        hTables factor (hGrows hFactor)
      intro last hLast
      rw [mem_ball_succ]
      rcases mem_ball_succ.mp hLast with
        hOld | ⟨middle, hMiddle, hStep⟩
      · exact .inl (hNear hOld)
      · rw [adjoins_congr (hTables middle (hGrows hMiddle))
          (hTables last hLast)] at hStep
        exact .inr ⟨middle, hNear hMiddle, hStep⟩

theorem agreesWithin_of_forall
    (hFirst : ∀ factor ∈ first.ball center radius,
      first.factor? factor = second.factor? factor)
    (hSecond : ∀ factor ∈ second.ball center radius,
      first.factor? factor = second.factor? factor) :
    first.AgreesWithin second center radius where
  ball_eq := by
    apply Finset.Subset.antisymm
    · exact ball_subset_of_factor?_eq hFirst
    · apply ball_subset_of_factor?_eq
      intro factor hFactor
      exact (hSecond factor hFactor).symm
  factor?_eq := hFirst

theorem AgreesWithin.center_eq
    (hAgrees : first.AgreesWithin second center radius) :
    first.factor? center = second.factor? center :=
  hAgrees.factor?_eq center
    (first.center_mem_ball center radius)

/- The variables of the center have the same factors. -/
theorem AgreesWithin.touches_iff
    (hAgrees :
      first.AgreesWithin second center (radius + 1))
    {var : VarId}
    (hCenter : first.Touches center var)
    (factor : FactorId) :
    first.Touches factor var ↔
      second.Touches factor var := by
  have hSecond : second.Touches center var :=
    (touches_congr hAgrees.center_eq).mp hCenter
  constructor
  · intro hTouches
    have hNear : factor ∈ first.ball center (radius + 1) :=
      ball_subset_of_adjoins ⟨var, hCenter, hTouches⟩
        (first.center_mem_ball factor radius)
    rwa [← touches_congr (hAgrees.factor?_eq factor hNear)]
  · intro hTouches
    have hNear : factor ∈ second.ball center (radius + 1) :=
      ball_subset_of_adjoins ⟨var, hSecond, hTouches⟩
        (second.center_mem_ball factor radius)
    rw [← hAgrees.ball_eq] at hNear
    rwa [touches_congr (hAgrees.factor?_eq factor hNear)]

/- Around a neighbour they agree within one step less. -/
theorem AgreesWithin.of_adjoins
    (hAgrees :
      first.AgreesWithin second center (radius + 1))
    (hAdjoins : first.Adjoins center other) :
    first.AgreesWithin second other radius := by
  apply agreesWithin_of_forall
  · intro factor hFactor
    exact hAgrees.factor?_eq factor
      (ball_subset_of_adjoins hAdjoins hFactor)
  · intro factor hFactor
    rcases hAdjoins with ⟨var, hCenter, hOther⟩
    have hSecond : second.Adjoins center other :=
      ⟨var, (touches_congr hAgrees.center_eq).mp hCenter,
        (hAgrees.touches_iff hCenter other).mp hOther⟩
    apply hAgrees.factor?_eq
    rw [hAgrees.ball_eq]
    exact ball_subset_of_adjoins hSecond hFactor

theorem AgreesAround.within
    (hAgrees : first.AgreesAround second center)
    (radius : Nat) :
    first.AgreesWithin second center radius := by
  apply agreesWithin_of_forall
  · intro factor hFactor
    exact hAgrees.factor?_eq factor
      (first.ball_subset_component center radius _ hFactor)
  · intro factor hFactor
    apply hAgrees.factor?_eq
    rw [hAgrees.component_eq]
    exact
      second.ball_subset_component center radius _ hFactor

end Graph

end JointMax

------------------------------------------------------------
-- What a Message is Made of
------------------------------------------------------------

namespace JointMax

namespace Solver

variable {α : Type} [Scalar α]
variable {registry : Registry} {solver first second : Solver α}

/-
  What the variable of an edge was told by its other factors,
  in their order.
-/
def inbox (solver : Solver α) (edge : Edge) :
    List (Table α) :=
  ((solver.graph.factorsOf edge.var).filter
    (· != edge.factor)).filterMap fun factor =>
      solver.messageToVar? factor edge.var

omit [Scalar α] in
theorem inbox_eq_nil
    (hSilent : solver.toVar = ∅)
    (edge : Edge) :
    solver.inbox edge = [] := by
  rw [inbox, List.filterMap_eq_nil_iff]
  intro factor _
  rw [messageToVar?, hSilent]
  exact Std.ExtTreeMap.getElem?_empty

omit [Scalar α] in
theorem Conforms.inbox_congr
    (hFirst : first.Conforms registry)
    (hSecond : second.Conforms registry)
    {edge : Edge}
    (hTouches : ∀ factor,
      first.graph.Touches factor edge.var ↔
        second.graph.Touches factor edge.var)
    (hMessages : ∀ factor,
      first.graph.Touches factor edge.var →
        first.toVar[(⟨factor, edge.var⟩ : Edge)]? =
          second.toVar[(⟨factor, edge.var⟩ : Edge)]?) :
    first.inbox edge = second.inbox edge := by
  unfold inbox
  rw [hFirst.coherent.factorsOf_congr hSecond.coherent
    hTouches]
  apply List.filterMap_congr
  intro factor hFactor
  have hListed := (List.mem_filter.mp hFactor).1
  rw [hSecond.coherent.mem_factorsOf, ← hTouches] at hListed
  exact hMessages factor hListed

/-
  The inbox is all that a variable looks at: its size is the
  registered one, whichever factor the graph reads it off.
-/
theorem Conforms.varMessage?_eq_of_inbox
    (hFirst : first.Conforms registry)
    (hSecond : second.Conforms registry)
    {edge : Edge}
    (hTouches : first.graph.Touches edge.factor edge.var)
    (hOther : second.graph.Touches edge.factor edge.var)
    (hInbox : first.inbox edge = second.inbox edge) :
    first.varMessage? edge = second.varMessage? edge := by
  rcases hFirst.axis?_of_touches hTouches with
    ⟨axis, hAxis, hKnows, hVar⟩
  rw [← hVar] at hOther
  have hFound := hSecond.axis?_eq_of_knows hKnows hOther
  rw [hVar] at hFound
  unfold inbox at hInbox
  simp only [Solver.varMessage?, hAxis, hFound,
    Solver.received?, hVar, hInbox]

theorem Swept.toFactor_eq_of_inbox
    {firstNext secondNext : Solver α}
    (hFirst : first.Conforms registry)
    (hSecond : second.Conforms registry)
    (hFirstSwept : first.Swept firstNext)
    (hSecondSwept : second.Swept secondNext)
    {edge : Edge}
    (hTouches : first.graph.Touches edge.factor edge.var)
    (hOther : second.graph.Touches edge.factor edge.var)
    (hInbox : first.inbox edge = second.inbox edge) :
    firstNext.toFactor[edge]? =
      secondNext.toFactor[edge]? := by
  apply Option.ext
  intro message
  rw [hFirstSwept.toFactor_iff, hSecondSwept.toFactor_iff,
    hFirst.coherent.mem_edges, hSecond.coherent.mem_edges,
    hFirst.varMessage?_eq_of_inbox hSecond hTouches hOther
      hInbox]
  simp only [hTouches, hOther]

/-
  What a factor is told in a sweep is made of the inboxes of
  its variables, and what it answers of what it is told.
-/
theorem Swept.messages_eq_of_inbox
    {firstNext secondNext : Solver α}
    (hFirst : first.Conforms registry)
    (hSecond : second.Conforms registry)
    (hFirstSwept : first.Swept firstNext)
    (hSecondSwept : second.Swept secondNext)
    {center : FactorId}
    (hCenter :
      first.graph.factor? center =
        second.graph.factor? center)
    (hInbox : ∀ var, first.graph.Touches center var →
      first.inbox ⟨center, var⟩ =
        second.inbox ⟨center, var⟩)
    {var : VarId}
    (hTouches : first.graph.Touches center var) :
    firstNext.toFactor[(⟨center, var⟩ : Edge)]? =
        secondNext.toFactor[(⟨center, var⟩ : Edge)]? ∧
      firstNext.toVar[(⟨center, var⟩ : Edge)]? =
        secondNext.toVar[(⟨center, var⟩ : Edge)]? := by
  have hTold : ∀ other, first.graph.Touches center other →
      firstNext.toFactor[(⟨center, other⟩ : Edge)]? =
        secondNext.toFactor[(⟨center, other⟩ : Edge)]? := by
    intro other hOther
    exact hFirstSwept.toFactor_eq_of_inbox hFirst hSecond
      hSecondSwept hOther
      ((Graph.touches_congr hCenter).mp hOther)
      (hInbox other hOther)
  refine ⟨hTold var hTouches, ?_⟩
  apply hFirstSwept.toVar_congr_of_factor?_eq hSecondSwept
    hCenter
  intro other hOther _
  exact hTold other hOther

end Solver

end JointMax

------------------------------------------------------------
-- Sweeps
------------------------------------------------------------

namespace JointMax

namespace Solver

variable {α : Type} [Scalar α]
variable {registry : Registry} {first second : Solver α}

/-
  After one sweep more than the radius within which two silent
  solvers agree, the messages at the center are the same. By
  induction on the radius, for all centers at once: the last
  sweep hears of the neighbours what was told one sweep before.
-/
theorem Sweeps.messages_eq
    (hFirst : first.Conforms registry)
    (hSecond : second.Conforms registry)
    (hFirstSilent : first.toVar = ∅)
    (hSecondSilent : second.toVar = ∅)
    {center : FactorId}
    {radius : Nat}
    (hAgrees :
      first.graph.AgreesWithin second.graph center radius)
    {deltas others : List α}
    {final last : Solver α}
    (hSweeps : Sweeps first deltas final)
    (hOthers : Sweeps second others last)
    (hLength : deltas.length = radius + 1)
    (hOtherLength : others.length = radius + 1)
    {var : VarId}
    (hTouches : first.graph.Touches center var) :
    final.toFactor[(⟨center, var⟩ : Edge)]? =
        last.toFactor[(⟨center, var⟩ : Edge)]? ∧
      final.toVar[(⟨center, var⟩ : Edge)]? =
        last.toVar[(⟨center, var⟩ : Edge)]? := by
  induction radius generalizing center var deltas others final
      last with
  | zero =>
      apply Swept.messages_eq_of_inbox hFirst hSecond
        (hSweeps.swept_of_length_eq_one hFirst hLength)
        (hOthers.swept_of_length_eq_one hSecond hOtherLength)
        hAgrees.center_eq _ hTouches
      intro other _
      rw [inbox_eq_nil hFirstSilent,
        inbox_eq_nil hSecondSilent]
  | succ radius ih =>
      rcases hSweeps.exists_swept hFirst (by omega) with
        ⟨before, hBefore, hFits, hGraph, hSwept⟩
      rcases hOthers.exists_swept hSecond (by omega) with
        ⟨earlier, hEarlier, hEarlierFits, hEarlierGraph,
          hEarlierSwept⟩
      rw [← hGraph] at hTouches
      apply Swept.messages_eq_of_inbox hFits hEarlierFits
        hSwept hEarlierSwept _ _ hTouches
      · rw [hGraph, hEarlierGraph]
        exact hAgrees.center_eq
      · intro other hOther
        rw [hGraph] at hOther
        apply hFits.inbox_congr hEarlierFits
        · rw [hGraph, hEarlierGraph]
          exact hAgrees.touches_iff hOther
        · intro factor hFactor
          rw [hGraph] at hFactor
          have hNear :=
            hAgrees.of_adjoins ⟨other, hOther, hFactor⟩
          exact (ih hNear hBefore hEarlier
            (by simp [hLength]) (by simp [hOtherLength])
            hFactor).2

end Solver

end JointMax

------------------------------------------------------------
-- What Lies Far Off
------------------------------------------------------------

namespace JointMax

namespace Solver

variable {α : Type}

/- Both hold the same messages, each way along the edge. -/
def SameAlong (first second : Solver α) (edge : Edge) :
    Prop :=
  ∃ told answer,
    first.toFactor[edge]? = some told ∧
      second.toFactor[edge]? = some told ∧
      first.toVar[edge]? = some answer ∧
      second.toVar[edge]? = some answer

variable [Scalar α]

/-
  So many sweeps of each lead to the same messages along all
  edges of the factor, and so do any two runs that come to so
  many sweeps, whatever their bounds.
-/
structure SameAfter
    (first second : Solver α)
    (center : FactorId)
    (count : Nat) : Prop where
  sweeps : ∃ deltas final others last,
    deltas.length = count ∧
      Sweeps first deltas final ∧
      others.length = count ∧
      Sweeps second others last ∧
      ∀ var, first.graph.Touches center var →
        final.SameAlong last ⟨center, var⟩
  runs : ∀ budget tolerance otherBudget otherTolerance,
    ∃ run other,
      first.optimiseWith? budget tolerance = .ok run ∧
        second.optimiseWith? otherBudget otherTolerance =
          .ok other ∧
        (run.result.1 = count → other.result.1 = count →
          ∀ var, first.graph.Touches center var →
            run.result.2.SameAlong other.result.2
              ⟨center, var⟩)

variable {registry : Registry} {first second : Solver α}
variable {center : FactorId} {radius : Nat}

theorem Sweeps.sameAlong
    (hFirst : first.Conforms registry)
    (hSecond : second.Conforms registry)
    (hFirstSilent : first.toVar = ∅)
    (hSecondSilent : second.toVar = ∅)
    (hAgrees :
      first.graph.AgreesWithin second.graph center radius)
    {deltas others : List α}
    {final last : Solver α}
    (hSweeps : Sweeps first deltas final)
    (hOthers : Sweeps second others last)
    (hLength : deltas.length = radius + 1)
    (hOtherLength : others.length = radius + 1)
    {var : VarId}
    (hTouches : first.graph.Touches center var) :
    final.SameAlong last ⟨center, var⟩ := by
  rcases hSweeps.messages_eq hFirst hSecond hFirstSilent
      hSecondSilent hAgrees hOthers hLength hOtherLength
      hTouches with
    ⟨hToFactor, hToVar⟩
  have hCurrent :=
    hSweeps.current hFirst
      (List.ne_nil_of_length_pos (by omega))
  have hEdge :
      (⟨center, var⟩ : Edge) ∈ final.graph.edges := by
    rw [hSweeps.graph_eq hFirst, hFirst.coherent.mem_edges]
    exact hTouches
  have hTold :=
    getElem?_pos final.toFactor _
      ((hCurrent.toFactor_keys _).mpr hEdge)
  have hAnswer :=
    getElem?_pos final.toVar _
      ((hCurrent.toVar_keys _).mpr hEdge)
  exact ⟨_, _, hTold, hToFactor ▸ hTold, hAnswer,
    hToVar ▸ hAnswer⟩

theorem Conforms.sameAfter
    (hFirst : first.Conforms registry)
    (hSecond : second.Conforms registry)
    (hFirstSilent : first.toVar = ∅)
    (hSecondSilent : second.toVar = ∅)
    (hAgrees :
      first.graph.AgreesWithin second.graph center radius) :
    first.SameAfter second center (radius + 1) where
  sweeps := by
    rcases hFirst.exists_sweeps (radius + 1) with
      ⟨deltas, final, hLength, hSweeps⟩
    rcases hSecond.exists_sweeps (radius + 1) with
      ⟨others, last, hOtherLength, hOthers⟩
    refine ⟨deltas, final, others, last, hLength, hSweeps,
      hOtherLength, hOthers, ?_⟩
    intro var hTouches
    exact hSweeps.sameAlong hFirst hSecond hFirstSilent
      hSecondSilent hAgrees hOthers hLength hOtherLength
      hTouches
  runs := by
    intro budget tolerance otherBudget otherTolerance
    rcases hFirst.exists_sweeps_of_run budget tolerance with
      ⟨run, deltas, final, _, hRun, hSweeps, hResult⟩
    rcases hSecond.exists_sweeps_of_run otherBudget
        otherTolerance with
      ⟨other, others, last, _, hOther, hOthers, hLast⟩
    refine ⟨run, other, hRun, hOther, ?_⟩
    rw [hResult, hLast]
    intro hLength hOtherLength var hTouches
    exact hSweeps.sameAlong hFirst hSecond hFirstSilent
      hSecondSilent hAgrees hOthers hLength hOtherLength
      hTouches

/-
  Two solvers of one registry, none of whose factors has told
  anything yet. If they have the same factors within some
  radius of one, then one sweep more makes its messages the
  same, whatever else the two graphs hold. Factors of other
  components never matter.
-/
theorem Reachable.sameAfter_of_agrees
    (hFirst : first.Reachable registry)
    (hSecond : second.Reachable registry)
    (hFirstSilent : first.toVar = ∅)
    (hSecondSilent : second.toVar = ∅)
    (center : FactorId) :
    (∀ radius,
      first.graph.AgreesWithin second.graph center radius →
        first.SameAfter second center (radius + 1)) ∧
      (first.graph.AgreesAround second.graph center →
        ∀ count, 1 ≤ count →
          first.SameAfter second center count) := by
  constructor
  · intro radius hAgrees
    exact hFirst.conforms.sameAfter hSecond.conforms
      hFirstSilent hSecondSilent hAgrees
  · intro hAgrees count hCount
    have hWithin := hAgrees.within (count - 1)
    have hSame :=
      hFirst.conforms.sameAfter hSecond.conforms
        hFirstSilent hSecondSilent hWithin
    rwa [Nat.sub_add_cancel hCount] at hSame

/- Four variables with two values each. -/
def fourCoins : Registry :=
  ⟨twoCoins.sizes
    |>.insert 3 ⟨2, Nat.two_pos⟩
    |>.insert 4 ⟨2, Nat.two_pos⟩⟩

/- A chain of factors from the first variable to the third. -/
@[irreducible]
def chained : Solver Rat :=
  (start fourCoins (Config.ofBounds 10 0)).afterAll
    [.setFactor 5 [1, 2] #[1, 0, 0, 2],
      .setFactor 6 [2, 3] #[0, 1, 3, 0],
      .setFactor 7 [3] #[1, 0]]

/-
  The same chain in another order and with another end. Of the
  first variable there is a factor more, which was removed
  again, and of the last one a factor with the least id.
-/
@[irreducible]
def rechained : Solver Rat :=
  (start fourCoins (Config.ofBounds 5 1)).afterAll
    [.setFactor 0 [4] #[7, 0],
      .setFactor 6 [2, 3] #[0, 1, 3, 0],
      .setFactor 9 [1] #[2, 0],
      .setFactor 7 [3, 4] #[0, 5, 0, 0],
      .setFactor 5 [1, 2] #[1, 0, 0, 2],
      .removeFactor 9]

theorem reachable_chained : chained.Reachable fourCoins := by
  unfold chained
  exact ⟨_, _, rfl⟩

theorem reachable_rechained :
    rechained.Reachable fourCoins := by
  unfold rechained
  exact ⟨_, _, rfl⟩

/- The first chain, beside a factor of the last variable. -/
@[irreducible]
def chainedBeside : Solver Rat :=
  chained.afterAll [.setFactor 0 [4] #[7, 0]]

theorem reachable_chainedBeside :
    chainedBeside.Reachable fourCoins := by
  unfold chainedBeside
  exact reachable_chained.afterAll _

theorem agreesWithin_rechained :
    chained.graph.AgreesWithin rechained.graph 5 1 := by
  have hBall : chained.graph.ball 5 1 = {5, 6} := by
    decide +kernel
  refine ⟨by decide +kernel, ?_⟩
  rw [hBall]
  intro factor hFactor
  rw [Finset.mem_insert, Finset.mem_singleton] at hFactor
  rcases hFactor with rfl | rfl
  · decide +kernel
  · decide +kernel

theorem agreesAround_chainedBeside :
    chained.graph.AgreesAround chainedBeside.graph 5 := by
  have hBall : chained.graph.ball 5 2 = {5, 6, 7} := by
    decide +kernel
  have hSame :
      chained.graph.ball 5 2 = chainedBeside.graph.ball 5 2 := by
    decide +kernel
  have hFirst : chained.graph.component 5 = _ :=
    Graph.component_eq_of_ball_eq
      (by decide +kernel :
        chained.graph.ball 5 3 = chained.graph.ball 5 2)
  have hSecond : chainedBeside.graph.component 5 = _ :=
    Graph.component_eq_of_ball_eq
      (by decide +kernel :
        chainedBeside.graph.ball 5 3 =
          chainedBeside.graph.ball 5 2)
  refine ⟨by rw [hFirst, hSecond, hSame], ?_⟩
  rw [hFirst, hBall]
  intro factor hFactor
  rw [Finset.mem_coe, Finset.mem_insert, Finset.mem_insert,
    Finset.mem_singleton] at hFactor
  rcases hFactor with rfl | rfl | rfl
  · decide +kernel
  · decide +kernel
  · decide +kernel

/-
  Within one step of the first factor the two chains agree,
  so two sweeps lead to the same messages there; after three
  they differ. The factor beside the chain never matters.
-/
theorem sameAfter_chained :
    chained.SameAfter rechained 5 2 ∧
      (chained.optimiseWith? 3 (-1)).map
          (·.result.2.toVar[(⟨5, 1⟩ : Edge)]?) ≠
        (rechained.optimiseWith? 3 (-1)).map
          (·.result.2.toVar[(⟨5, 1⟩ : Edge)]?) ∧
      chained.SameAfter chainedBeside 5 10 := by
  have hSilent : chained.toVar = ∅ := by decide +kernel
  have hSame :=
    (reachable_chained.sameAfter_of_agrees
      reachable_rechained hSilent (by decide +kernel) 5).1
      1 agreesWithin_rechained
  have hApart :=
    (reachable_chained.sameAfter_of_agrees
      reachable_chainedBeside hSilent (by decide +kernel) 5).2
      agreesAround_chainedBeside 10 (by decide)
  exact ⟨hSame, by decide +kernel, hApart⟩

end Solver

end JointMax
