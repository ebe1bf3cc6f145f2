import Mathlib
import JointMax.Proofs.Forest
import JointMax.Proofs.Histories

/-
  What messages depend on. A message of a factor depends on
  the earlier messages behind its edge, so in a forest it no
  longer depends on the start after as many sweeps as there
  are factors, nor does a message of a variable.

  Main declarations:
    * `Graph.Alike`, graphs with the same factors
    * `Solver.Sweeps.toVar_congr`
    * `Solver.Sweeps.toVar_eq` and
      `Solver.Sweeps.toFactor_eq`
-/

------------------------------------------------------------
-- Graphs with the Same Factors
------------------------------------------------------------

namespace JointMax

namespace Graph

variable {α : Type}

/- Both graphs hold the same tables under the same ids. -/
def Alike (first second : Graph α) : Prop :=
  ∀ factor, first.factor? factor = second.factor? factor

variable {first second : Graph α}

theorem touches_congr
    {factor : FactorId}
    {var : VarId}
    (hFactor : first.factor? factor = second.factor? factor) :
    first.Touches factor var ↔
      second.Touches factor var := by
  unfold Touches
  rw [hFactor]

/- Listed are those that depend on it, in increasing order. -/
theorem Coherent.factorsOf_congr
    (hFirst : first.Coherent)
    (hSecond : second.Coherent)
    {var : VarId}
    (hTouches : ∀ factor,
      first.Touches factor var ↔
        second.Touches factor var) :
    first.factorsOf var = second.factorsOf var := by
  have hSame :
      first.incidence.getD var ∅ =
        second.incidence.getD var ∅ := by
    apply Std.ExtTreeSet.ext_mem
    intro factor
    have hLinks :=
      (hFirst.links_iff factor var).trans
        ((hTouches factor).trans
          (hSecond.links_iff factor var).symm)
    exact hLinks
  unfold factorsOf
  rw [hSame]

namespace Alike

theorem touches_iff
    (hAlike : first.Alike second)
    {factor : FactorId}
    {var : VarId} :
    first.Touches factor var ↔
      second.Touches factor var :=
  touches_congr (hAlike factor)

theorem factorsOf_eq
    (hAlike : first.Alike second)
    (hFirst : first.Coherent)
    (hSecond : second.Coherent)
    (var : VarId) :
    first.factorsOf var = second.factorsOf var :=
  hFirst.factorsOf_congr hSecond fun _ =>
    hAlike.touches_iff

theorem axis?_eq
    (hAlike : first.Alike second)
    (hFirst : first.Coherent)
    (hSecond : second.Coherent)
    (var : VarId) :
    first.axis? var = second.axis? var := by
  unfold axis?
  rw [hAlike.factorsOf_eq hFirst hSecond]
  cases second.factorsOf var with
  | nil => rfl
  | cons least _ => simp only [hAlike least]

end Alike

end Graph

end JointMax

------------------------------------------------------------
-- What a Message is Computed from
------------------------------------------------------------

namespace JointMax

namespace Solver

variable {α : Type} [Scalar α]
variable {registry : Registry} {first second : Solver α}

theorem received?_congr
    {axis : Axis}
    {factors : List FactorId}
    (hMessages : ∀ factor ∈ factors,
      first.toVar[(⟨factor, axis.var⟩ : Edge)]? =
        second.toVar[(⟨factor, axis.var⟩ : Edge)]?) :
    first.received? axis factors =
      second.received? axis factors := by
  have hSame :
      (factors.filterMap fun factor =>
        first.messageToVar? factor axis.var) =
      factors.filterMap fun factor =>
        second.messageToVar? factor axis.var :=
    List.filterMap_congr hMessages
  unfold received?
  rw [hSame]

/- Variables answer to their other factors alone. -/
theorem Conforms.varMessage?_congr
    (hFirst : first.Conforms registry)
    (hSecond : second.Conforms registry)
    (hAlike : first.graph.Alike second.graph)
    {edge : Edge}
    (hMessages : ∀ factor,
      first.graph.Touches factor edge.var →
        factor ≠ edge.factor →
          first.toVar[(⟨factor, edge.var⟩ : Edge)]? =
            second.toVar[(⟨factor, edge.var⟩ : Edge)]?) :
    first.varMessage? edge = second.varMessage? edge := by
  have hFactors :=
    hAlike.factorsOf_eq hFirst.coherent hSecond.coherent
      edge.var
  rw [Solver.varMessage?, Solver.varMessage?,
    hAlike.axis?_eq hFirst.coherent hSecond.coherent,
    hFactors]
  cases hAxis : second.graph.axis? edge.var with
  | none => rfl
  | some axis =>
      by_cases hTouches :
          ∃ factor, second.graph.Touches factor edge.var
      · rcases hTouches with ⟨factor, hTouches⟩
        rcases hSecond.axis?_of_touches hTouches with
          ⟨found, hFound, _, hVar⟩
        rw [hAxis] at hFound
        cases hFound
        dsimp only
        rw [received?_congr]
        intro other hOther
        rw [hVar]
        rcases List.mem_filter.mp hOther with
          ⟨hMember, hNe⟩
        rw [hSecond.coherent.mem_factorsOf,
          ← hAlike.touches_iff] at hMember
        exact hMessages other hMember (by simpa using hNe)
      · have hNone :
            second.graph.factorsOf edge.var = [] := by
          rw [List.eq_nil_iff_forall_not_mem]
          intro factor hFactor
          exact hTouches
            ⟨factor,
              hSecond.coherent.mem_factorsOf.mp hFactor⟩
        unfold Graph.axis? at hAxis
        rw [hNone] at hAxis
        cases hAxis

/- Factors answer to their other variables alone. -/
theorem factorMessage?_congr
    {factor : FactorId}
    {table : Table α}
    {var : VarId}
    (hMessages : ∀ other ∈ table.vars, other ≠ var →
      first.toFactor[(⟨factor, other⟩ : Edge)]? =
        second.toFactor[(⟨factor, other⟩ : Edge)]?) :
    first.factorMessage? factor table var =
      second.factorMessage? factor table var := by
  have hSame :
      ((table.vars.filter (· != var)).filterMap fun other =>
        first.messageToFactor? other factor) =
      (table.vars.filter (· != var)).filterMap fun other =>
        second.messageToFactor? other factor := by
    apply List.filterMap_congr
    intro other hOther
    rcases List.mem_filter.mp hOther with ⟨hMember, hNe⟩
    exact hMessages other hMember (by simpa using hNe)
  rw [factorMessage?, factorMessage?, hSame]

end Solver

end JointMax

------------------------------------------------------------
-- Independence of the Start
------------------------------------------------------------

namespace JointMax

namespace Solver

variable {α : Type} [Scalar α]
variable {registry : Registry} {first second : Solver α}

/-
  If two solvers agree on what a message of a variable is
  computed from, a sweep makes them agree on the message.
-/
theorem Swept.toFactor_congr
    {firstNext secondNext : Solver α}
    (hFirst : first.Conforms registry)
    (hSecond : second.Conforms registry)
    (hAlike : first.graph.Alike second.graph)
    (hFirstSwept : first.Swept firstNext)
    (hSecondSwept : second.Swept secondNext)
    {edge : Edge}
    (hMessages : ∀ factor,
      first.graph.Touches factor edge.var →
        factor ≠ edge.factor →
          first.toVar[(⟨factor, edge.var⟩ : Edge)]? =
            second.toVar[(⟨factor, edge.var⟩ : Edge)]?) :
    firstNext.toFactor[edge]? =
      secondNext.toFactor[edge]? := by
  have hSame :=
    hFirst.varMessage?_congr hSecond hAlike hMessages
  apply Option.ext
  intro message
  rw [hFirstSwept.toFactor_iff, hSecondSwept.toFactor_iff,
    hFirst.coherent.mem_edges, hSecond.coherent.mem_edges,
    hAlike.touches_iff, hSame]

/- Only its own factor has a part in a factor's message. -/
theorem Swept.toVar_congr_of_factor?_eq
    {firstNext secondNext : Solver α}
    (hFirstSwept : first.Swept firstNext)
    (hSecondSwept : second.Swept secondNext)
    {edge : Edge}
    (hFactor :
      first.graph.factor? edge.factor =
        second.graph.factor? edge.factor)
    (hMessages : ∀ other,
      first.graph.Touches edge.factor other →
        other ≠ edge.var →
          firstNext.toFactor[
            (⟨edge.factor, other⟩ : Edge)]? =
          secondNext.toFactor[
            (⟨edge.factor, other⟩ : Edge)]?) :
    firstNext.toVar[edge]? = secondNext.toVar[edge]? := by
  apply Option.ext
  intro message
  rw [hFirstSwept.toVar_iff, hSecondSwept.toVar_iff,
    ← hFactor]
  apply exists_congr
  intro table
  apply and_congr_right
  intro hTable
  have hSame :
      firstNext.factorMessage? edge.factor table edge.var =
        secondNext.factorMessage? edge.factor table
          edge.var := by
    apply factorMessage?_congr
    intro other hOther hNe
    exact hMessages other ⟨table, hTable, hOther⟩ hNe
  rw [hSame]

theorem Swept.toVar_congr
    {firstNext secondNext : Solver α}
    (hAlike : first.graph.Alike second.graph)
    (hFirstSwept : first.Swept firstNext)
    (hSecondSwept : second.Swept secondNext)
    {edge : Edge}
    (hMessages : ∀ other,
      first.graph.Touches edge.factor other →
        other ≠ edge.var →
          firstNext.toFactor[
            (⟨edge.factor, other⟩ : Edge)]? =
          secondNext.toFactor[
            (⟨edge.factor, other⟩ : Edge)]?) :
    firstNext.toVar[edge]? = secondNext.toVar[edge]? :=
  hFirstSwept.toVar_congr_of_factor?_eq hSecondSwept
    (hAlike edge.factor) hMessages

/-
  A message is settled after as many sweeps as its edge is
  deep, whatever messages there were at the start.
-/
theorem Sweeps.toVar_congr
    (hFirst : first.Conforms registry)
    (hSecond : second.Conforms registry)
    (hAlike : first.graph.Alike second.graph)
    {depth : Nat}
    {edge : Edge}
    (hShallow : Shallow first.graph.Touches depth edge.factor
      edge.var)
    {firstDeltas secondDeltas : List α}
    {firstFinal secondFinal : Solver α}
    (hFirstSweeps : Sweeps first firstDeltas firstFinal)
    (hSecondSweeps : Sweeps second secondDeltas secondFinal)
    (hFirstLength : depth ≤ firstDeltas.length)
    (hSecondLength : depth ≤ secondDeltas.length) :
    firstFinal.toVar[edge]? = secondFinal.toVar[edge]? := by
  induction depth generalizing edge firstDeltas secondDeltas
      firstFinal secondFinal with
  | zero => exact hShallow.elim
  | succ depth ih =>
      rcases hFirstSweeps.exists_swept hFirst (by omega) with
        ⟨firstBefore, hFirstBefore, hFirstFits, hFirstGraph,
          hFirstSwept⟩
      rcases hSecondSweeps.exists_swept hSecond (by omega)
        with
        ⟨secondBefore, hSecondBefore, hSecondFits,
          hSecondGraph, hSecondSwept⟩
      have hBefore :
          firstBefore.graph.Alike secondBefore.graph := by
        rw [hFirstGraph, hSecondGraph]
        exact hAlike
      apply Swept.toVar_congr hBefore hFirstSwept
        hSecondSwept
      intro other hOther hExit
      apply Swept.toFactor_congr hFirstFits hSecondFits
        hBefore hFirstSwept hSecondSwept
      intro next hNext hNe
      rw [hFirstGraph] at hOther hNext
      apply ih (hShallow other hOther hExit next hNext hNe)
        hFirstBefore hSecondBefore
      · rw [List.length_dropLast]
        omega
      · rw [List.length_dropLast]
        omega

/-
  In a forest the messages of factors are final after as many
  sweeps as there are factors.
-/
theorem Sweeps.toVar_eq
    (hFirst : first.Conforms registry)
    (hSecond : second.Conforms registry)
    (hAlike : first.graph.Alike second.graph)
    (hAcyclic : first.graph.Acyclic)
    {firstDeltas secondDeltas : List α}
    {firstFinal secondFinal : Solver α}
    (hFirstSweeps : Sweeps first firstDeltas firstFinal)
    (hSecondSweeps : Sweeps second secondDeltas secondFinal)
    (hFirstLength :
      first.graph.factorCount ≤ firstDeltas.length)
    (hSecondLength :
      first.graph.factorCount ≤ secondDeltas.length) :
    firstFinal.toVar = secondFinal.toVar := by
  apply Std.ExtTreeMap.ext_getElem?
  intro edge
  by_cases hEdge :
      first.graph.Touches edge.factor edge.var
  · exact Sweeps.toVar_congr hFirst hSecond hAlike
      (hAcyclic.shallow hEdge) hFirstSweeps hSecondSweeps
      hFirstLength hSecondLength
  · have hFirstNone : firstFinal.toVar[edge]? = none := by
      apply (hFirstSweeps.conforms hFirst).toVar?_eq_none
      rwa [hFirstSweeps.graph_eq hFirst]
    have hSecondNone : secondFinal.toVar[edge]? = none := by
      apply (hSecondSweeps.conforms hSecond).toVar?_eq_none
      rwa [hSecondSweeps.graph_eq hSecond,
        ← hAlike.touches_iff]
    rw [hFirstNone, hSecondNone]

/-
  So are the messages of variables. They answer to the sweep
  before, but what they answer to has one factor less behind
  it.
-/
theorem Sweeps.toFactor_eq
    (hFirst : first.Conforms registry)
    (hSecond : second.Conforms registry)
    (hAlike : first.graph.Alike second.graph)
    (hAcyclic : first.graph.Acyclic)
    {firstDeltas secondDeltas : List α}
    {firstFinal secondFinal : Solver α}
    (hFirstSweeps : Sweeps first firstDeltas firstFinal)
    (hSecondSweeps : Sweeps second secondDeltas secondFinal)
    (hFirstLength :
      first.graph.factorCount ≤ firstDeltas.length)
    (hSecondLength :
      first.graph.factorCount ≤ secondDeltas.length) :
    firstFinal.toFactor = secondFinal.toFactor := by
  apply Std.ExtTreeMap.ext_getElem?
  intro edge
  by_cases hEdge :
      first.graph.Touches edge.factor edge.var
  · have hPos : 0 < first.graph.factorCount := by
      have hLength := List.length_pos_of_mem hEdge.mem_ids
      rwa [List.length_map] at hLength
    rcases hFirstSweeps.exists_swept hFirst (by omega) with
      ⟨firstBefore, hFirstBefore, hFirstFits, hFirstGraph,
        hFirstSwept⟩
    rcases hSecondSweeps.exists_swept hSecond (by omega) with
      ⟨secondBefore, hSecondBefore, hSecondFits,
        hSecondGraph, hSecondSwept⟩
    have hBefore :
        firstBefore.graph.Alike secondBefore.graph := by
      rw [hFirstGraph, hSecondGraph]
      exact hAlike
    apply Swept.toFactor_congr hFirstFits hSecondFits hBefore
      hFirstSwept hSecondSwept
    intro factor hTouches hNe
    rw [hFirstGraph] at hTouches
    have hShallow :=
      hAcyclic.shallow_of_ne hTouches hEdge hNe
    refine Sweeps.toVar_congr hFirst hSecond hAlike hShallow
      hFirstBefore hSecondBefore ?_ ?_
    · rw [List.length_dropLast]
      omega
    · rw [List.length_dropLast]
      omega
  · have hFirstNone : firstFinal.toFactor[edge]? = none := by
      apply (hFirstSweeps.conforms hFirst).toFactor?_eq_none
      rwa [hFirstSweeps.graph_eq hFirst]
    have hSecondNone :
        secondFinal.toFactor[edge]? = none := by
      apply (hSecondSweeps.conforms hSecond).toFactor?_eq_none
      rwa [hSecondSweeps.graph_eq hSecond,
        ← hAlike.touches_iff]
    rw [hFirstNone, hSecondNone]

end Solver

end JointMax
