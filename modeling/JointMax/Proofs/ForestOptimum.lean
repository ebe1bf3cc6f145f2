import Mathlib
import JointMax.Proofs.FixedPoints
import JointMax.Proofs.Ranks
import JointMax.Proofs.Settling

/-
  Exactness on forests. After as many sweeps as there are
  factors, whatever messages there were at the start, the
  belief of each variable is the greatest sum of all factors
  under each of its values, up to a constant, and a sole
  optimum is what the values of the solver are.

  Main declarations:
    * `Graph.total` and `Graph.SoleOptimum`
    * `Solver.Exact`
    * `Solver.Sweeps.exact` and `Solver.Exact.values?`
    * `Solver.Reachable.exact_of_run`
-/

------------------------------------------------------------
-- Sums of All Factors
------------------------------------------------------------

namespace JointMax

namespace Graph

variable {graph : Graph Rat}

/- The sum of all factors. -/
def total (graph : Graph Rat) (choice : VarId → Nat) : Rat :=
  (graph.factors.map fun entry =>
    entry.2.eval choice).sum

/- The value of one factor, zero if it is not there. -/
def weight
    (graph : Graph Rat)
    (factor : FactorId)
    (choice : VarId → Nat) : Rat :=
  (graph.factor? factor).elim 0 fun table =>
    table.eval choice

theorem Coherent.total_eq
    (hGraph : graph.Coherent)
    {order : List FactorId}
    (hOrder : order.Perm (graph.factors.map Prod.fst))
    (choice : VarId → Nat) :
    graph.total choice =
      (order.map fun factor =>
        graph.weight factor choice).sum := by
  rw [(hOrder.map _).sum_eq, List.map_map, total]
  apply congrArg List.sum
  apply List.map_congr_left
  intro entry hEntry
  have hTable : graph.factor? entry.1 = some entry.2 :=
    hGraph.factor?_eq_some_iff.mpr hEntry
  rw [Function.comp_apply, weight, hTable]
  rfl

/- The sum depends on the variables of the graph alone. -/
theorem Coherent.total_congr
    (hGraph : graph.Coherent)
    {first second : VarId → Nat}
    (hAgree : ∀ var ∈ graph.vars, first var = second var) :
    graph.total first = graph.total second := by
  unfold total
  apply congrArg List.sum
  apply List.map_congr_left
  intro entry hEntry
  apply Table.eval_congr
  intro var hVar
  have hTable : graph.factor? entry.1 = some entry.2 :=
    hGraph.factor?_eq_some_iff.mpr hEntry
  exact hAgree var
    (hGraph.mem_vars.mpr ⟨entry.1, entry.2, hTable, hVar⟩)

end Graph

namespace Solver

variable {registry : Registry} {solver next : Solver Rat}

/- A factor's score is its value and what it was told. -/
theorem joint_eq_weight
    (solver : Solver Rat)
    (factor : FactorId)
    (choice : VarId → Nat) :
    solver.joint factor choice =
      solver.graph.weight factor choice +
        ∑ var ∈ solver.graph.scopeSet factor,
          solver.toFactor.read ⟨factor, var⟩
            (choice var) := by
  unfold Graph.weight Graph.scopeSet
  cases hTable : solver.graph.factor? factor with
  | none => simp [joint, hTable]
  | some table =>
      have hNodup : table.vars.Nodup :=
        table.scope.nodup_vars
      rw [joint_eq hTable]
      dsimp only [Option.elim_some]
      rw [List.sum_toFinset _ hNodup]

/-
  Summed over all edges, what factors told the variables is
  what all variables believe.
-/
theorem sum_read_toVar
    (hGraph : solver.graph.Coherent)
    {order : List FactorId}
    (hOrder :
      order.Perm (solver.graph.factors.map Prod.fst))
    (root : VarId)
    (choice : VarId → Nat) :
    ∑ factor ∈ order.toFinset,
        ∑ var ∈ solver.graph.scopeSet factor,
          solver.toVar.read ⟨factor, var⟩ (choice var) =
      ∑ var ∈ gathered solver.graph.scopeSet root order,
        solver.credence var (choice var) := by
  have hCredence : ∀ var value,
      solver.credence var value =
        ∑ factor ∈ (solver.graph.factorsOf var).toFinset,
          solver.toVar.read ⟨factor, var⟩ value := by
    intro var value
    rw [List.sum_toFinset _
      (solver.graph.nodup_factorsOf var)]
    rfl
  simp only [hCredence]
  apply Finset.sum_comm'
  intro factor var
  rw [List.mem_toFinset, List.mem_toFinset,
    Graph.mem_scopeSet, hGraph.mem_factorsOf,
    mem_gathered_iff]
  constructor
  · rintro ⟨hFactor, hTouches⟩
    refine ⟨hTouches, .inr ⟨factor, hFactor, ?_⟩⟩
    exact Graph.mem_scopeSet.mpr hTouches
  · rintro ⟨hTouches, _⟩
    exact ⟨hOrder.mem_iff.mpr hTouches.mem_ids, hTouches⟩

/- What variables tell factors, on all edges at once. -/
theorem Swept.exists_shifts
    (hSolver : solver.Conforms registry)
    (hSwept : solver.Swept next)
    (hToVar : next.toVar = solver.toVar) :
    ∃ shift : FactorId → VarId → Rat, ∀ factor, ∀ var ∈
      next.graph.scopeSet factor, ∀ value,
        next.graph.Allows var value →
          next.toFactor.read ⟨factor, var⟩ value =
            next.credence var value -
              next.toVar.read ⟨factor, var⟩ value -
              shift factor var := by
  have hEdge : ∀ factor var, ∃ shift,
      var ∈ next.graph.scopeSet factor →
        ∀ value, next.graph.Allows var value →
          next.toFactor.read ⟨factor, var⟩ value =
            next.credence var value -
              next.toVar.read ⟨factor, var⟩ value -
              shift := by
    intro factor var
    by_cases hVar : var ∈ next.graph.scopeSet factor
    · have hTouches := Graph.mem_scopeSet.mp hVar
      rw [hSwept.graph_eq] at hTouches
      rcases hSolver.axis?_of_touches hTouches with
        ⟨axis, _, hKnows, rfl⟩
      rcases hSwept.read_toFactor hSolver hKnows
          hTouches with
        ⟨shift, hRead⟩
      refine ⟨shift, fun _ value hValue => ?_⟩
      rw [hSwept.graph_eq,
        hSolver.allows_iff hKnows hTouches] at hValue
      rw [credence_congr hSwept.graph_eq hToVar, hToVar]
      exact hRead value hValue
    · exact ⟨0, fun hMember => absurd hMember hVar⟩
  choose shift hShift using hEdge
  exact ⟨shift, hShift⟩

/-
  At a fixed point the sum of all factors is what calibrated
  factors gain, up to a constant.
-/
theorem Swept.exists_total_eq_gain
    (hSolver : solver.Conforms registry)
    (hNext : next.Conforms registry)
    (hSwept : solver.Swept next)
    (hToVar : next.toVar = solver.toVar)
    {order : List FactorId}
    (hOrder : order.Perm (next.graph.factors.map Prod.fst))
    (root : VarId) :
    ∃ shift, ∀ choice, InRange next.graph.Allows choice →
      next.graph.total choice =
        gain next.graph.scopeSet next.joint next.credence
          root order choice + shift := by
  have hNodup : order.Nodup :=
    hOrder.nodup_iff.mpr hNext.coherent.nodup
  rcases hSwept.exists_shifts hSolver hToVar with
    ⟨shift, hShift⟩
  refine
    ⟨∑ factor ∈ order.toFinset,
      ∑ var ∈ next.graph.scopeSet factor,
        shift factor var, ?_⟩
  intro choice hChoice
  have hFactor : ∀ factor,
      next.joint factor choice -
          ∑ var ∈ next.graph.scopeSet factor,
            next.credence var (choice var) =
        next.graph.weight factor choice -
          ∑ var ∈ next.graph.scopeSet factor,
            next.toVar.read ⟨factor, var⟩ (choice var) -
          ∑ var ∈ next.graph.scopeSet factor,
            shift factor var := by
    intro factor
    have hTold :
        ∑ var ∈ next.graph.scopeSet factor,
            next.toFactor.read ⟨factor, var⟩ (choice var) =
          ∑ var ∈ next.graph.scopeSet factor,
            (next.credence var (choice var) -
              next.toVar.read ⟨factor, var⟩ (choice var) -
              shift factor var) := by
      apply Finset.sum_congr rfl
      intro var hVar
      exact hShift factor var hVar _ (hChoice var)
    rw [next.joint_eq_weight, hTold,
      Finset.sum_sub_distrib, Finset.sum_sub_distrib]
    ring
  rw [hNext.coherent.total_eq hOrder, gain,
    ← List.sum_toFinset _ hNodup,
    ← List.sum_toFinset _ hNodup]
  simp only [hFactor]
  rw [Finset.sum_sub_distrib, Finset.sum_sub_distrib,
    sum_read_toVar hNext.coherent hOrder root]
  ring

/-
  In a forest, beliefs at a fixed point are the greatest sums
  of all factors, up to a constant.
-/
theorem Swept.isGreatest_total
    (hSolver : solver.Conforms registry)
    (hNext : next.Conforms registry)
    (hSwept : solver.Swept next)
    (hToVar : next.toVar = solver.toVar)
    (hAcyclic : next.graph.Acyclic)
    (root : VarId) :
    ∃ shift, ∀ value, next.graph.Allows root value →
      IsGreatest
        (next.graph.total '' {choice |
          next.graph.Admits choice ∧ choice root = value})
        (next.credence root value + shift) := by
  rcases hAcyclic.exists_branching hNext.coherent root with
    ⟨order, hOrder, hBranching⟩
  have hTouches :
      next.graph.Touches =
        fun factor var =>
          var ∈ next.graph.scopeSet factor := by
    funext factor var
    exact propext Graph.mem_scopeSet.symm
  rw [hTouches] at hBranching
  have hCalibrated :=
    hSwept.calibrated hSolver hNext hToVar
  have hBase :=
    Graph.admits_iff.mp next.graph.admits_zero
  rcases hCalibrated.isGreatest_gain hBranching hBase with
    ⟨first, hFirst⟩
  rcases hSwept.exists_total_eq_gain hSolver hNext hToVar
      hOrder root with
    ⟨second, hSecond⟩
  refine ⟨first + second, ?_⟩
  intro value hValue
  have hPoints :
      {choice | next.graph.Admits choice ∧
        choice root = value} =
      {choice | InRange next.graph.Allows choice ∧
        choice root = value} := by
    simp only [Graph.admits_iff]
  rw [hPoints, ← add_assoc]
  apply isGreatest_image_add _ (hFirst value hValue)
  intro choice hChoice
  exact hSecond choice hChoice.1

end Solver

end JointMax

------------------------------------------------------------
-- Exact Beliefs
------------------------------------------------------------

namespace JointMax

/-
  The choice has the greatest sum, and every other choice with
  that sum makes the same of all variables of the graph.
-/
structure Graph.SoleOptimum
    (graph : Graph Rat)
    (best : VarId → Nat) : Prop where
  admits : graph.Admits best
  greatest : ∀ choice, graph.Admits choice →
    graph.total choice ≤ graph.total best
  unique : ∀ choice, graph.Admits choice →
    graph.total choice = graph.total best →
      ∀ var ∈ graph.vars, choice var = best var

namespace Solver

variable {registry : Registry} {solver : Solver Rat}

/-
  The belief of every variable is, up to a constant, the
  greatest sum of all factors under each of its values.
-/
def Exact (solver : Solver Rat) : Prop :=
  ∀ var ∈ solver.graph.vars, ∃ axis belief shift,
    solver.graph.axis? var = some axis ∧
      solver.belief? var = .ok (some belief) ∧
      belief.scope = Scope.ofAxis axis ∧
      ∀ value < axis.size, ∃ best,
        IsGreatest
            (solver.graph.total '' {choice |
              solver.graph.Admits choice ∧
                choice var = value})
            best ∧
          belief.cell value = shift + best

/- A sole optimum is found variable by variable. -/
theorem Exact.argmax_eq
    (hSolver : solver.Conforms registry)
    (hExact : solver.Exact)
    {best : VarId → Nat}
    (hBest : solver.graph.SoleOptimum best)
    {var : VarId}
    (hVar : var ∈ solver.graph.vars)
    {belief : Table Rat}
    (hBelief : solver.belief? var = .ok (some belief)) :
    belief.argmax = best var := by
  rcases hExact var hVar with
    ⟨axis, found, shift, hAxis, hFound, hScope, hCells⟩
  rw [hBelief] at hFound
  cases hFound
  rcases hSolver.axis?_of_mem_vars hVar with
    ⟨known, hKnown, hKnows, rfl⟩
  rw [hAxis] at hKnown
  cases hKnown
  rcases hSolver.coherent.mem_vars.mp hVar with
    ⟨factor, hTouches⟩
  have hInside : best axis.var < axis.size :=
    (hSolver.allows_iff hKnows hTouches).mp
      (Graph.admits_iff.mp hBest.admits axis.var)
  have hCount : belief.scope.count = axis.size := by
    rw [hScope, Scope.count_ofAxis]
  have hPlace : belief.argmax < axis.size :=
    hCount ▸ belief.argmax_lt
  rcases hCells belief.argmax hPlace with
    ⟨chosen, hChosen, hChosenCell⟩
  rcases hCells (best axis.var) hInside with
    ⟨other, hOther, hOtherCell⟩
  have hBound :
      belief.cell (best axis.var) ≤
        belief.cell belief.argmax :=
    Table.le_argmax (hCount ▸ hInside)
  have hLeast : solver.graph.total best ≤ other :=
    hOther.2 ⟨best, ⟨hBest.admits, rfl⟩, rfl⟩
  rcases hChosen.1 with
    ⟨choice, ⟨hAdmits, hValue⟩, hTotal⟩
  have hMost := hBest.greatest choice hAdmits
  have hSame :
      solver.graph.total choice =
        solver.graph.total best := by
    rw [hChosenCell, hOtherCell] at hBound
    linarith
  rw [← hValue]
  exact hBest.unique choice hAdmits hSame axis.var hVar

/- Exact beliefs lead to a sole optimum. -/
theorem Exact.values?
    (hSolver : solver.Conforms registry)
    (hExact : solver.Exact)
    {best : VarId → Nat}
    (hBest : solver.graph.SoleOptimum best) :
    solver.values? =
      .ok (solver.graph.vars.map fun var =>
        (var, best var)) := by
  apply hSolver.values?_eq_map
  intro var hVar belief hBelief
  exact hExact.argmax_eq hSolver hBest hVar hBelief

/-
  In a forest, beliefs are exact wherever a further sweep
  tells the variables nothing new.
-/
theorem Conforms.exact_of_sweep?
    (hSolver : solver.Conforms registry)
    (hAcyclic : solver.graph.Acyclic)
    {next : Solver Rat}
    {delta : Rat}
    (hSweep : solver.sweep? = .ok (next, delta))
    (hToVar : next.toVar = solver.toVar) :
    solver.Exact := by
  rcases hSolver.of_sweep? hSweep with
    ⟨hNext, hSwept, _⟩
  have hNextAcyclic : next.graph.Acyclic := by
    rw [hSwept.graph_eq]
    exact hAcyclic
  intro var hVar
  rcases hSwept.isGreatest_total hSolver hNext hToVar
      hNextAcyclic var with
    ⟨shift, hGreatest⟩
  rw [hSwept.graph_eq,
    credence_congr hSwept.graph_eq hToVar] at hGreatest
  rcases hSolver.axis?_of_mem_vars hVar with
    ⟨axis, hAxis, hKnows, rfl⟩
  rcases hSolver.coherent.mem_vars.mp hVar with
    ⟨factor, hTouches⟩
  rcases hSolver.belief?_cell hAxis hKnows with
    ⟨belief, hBelief, hScope, hCell⟩
  refine
    ⟨axis, belief, -shift, hAxis, hBelief, hScope, ?_⟩
  intro value hValue
  have hAllowed :=
    (hSolver.allows_iff hKnows hTouches).mpr hValue
  refine ⟨_, hGreatest value hAllowed, ?_⟩
  rw [hCell value hValue]
  ring

/-
  As many sweeps as a forest has factors make all beliefs
  exact, whatever messages they started from.
-/
theorem Sweeps.exact
    (hSolver : solver.Conforms registry)
    (hAcyclic : solver.graph.Acyclic)
    {deltas : List Rat}
    {final : Solver Rat}
    (hSweeps : Sweeps solver deltas final)
    (hLong : solver.graph.factorCount ≤ deltas.length) :
    final.Exact := by
  have hFinal := hSweeps.conforms hSolver
  have hGraph := hSweeps.graph_eq hSolver
  rcases hFinal.sweep? with ⟨next, delta, hSweep, _⟩
  have hFurther :=
    hSweeps.append (Sweeps.cons hSweep Sweeps.nil)
  have hFurtherLong :
      solver.graph.factorCount ≤
        (deltas ++ [delta]).length := by
    rw [List.length_append]
    omega
  have hToVar : next.toVar = final.toVar :=
    Sweeps.toVar_eq hSolver hSolver (fun _ => rfl) hAcyclic
      hFurther hSweeps hFurtherLong hLong
  have hFinalAcyclic : final.graph.Acyclic := by
    rw [hGraph]
    exact hAcyclic
  exact hFinal.exact_of_sweep? hFinalAcyclic hSweep hToVar

theorem Sweeps.values?
    (hSolver : solver.Conforms registry)
    (hAcyclic : solver.graph.Acyclic)
    {deltas : List Rat}
    {final : Solver Rat}
    (hSweeps : Sweeps solver deltas final)
    (hLong : solver.graph.factorCount ≤ deltas.length)
    {best : VarId → Nat}
    (hBest : solver.graph.SoleOptimum best) :
    final.values? =
      .ok (solver.graph.vars.map fun var =>
        (var, best var)) := by
  have hExact := hSweeps.exact hSolver hAcyclic hLong
  have hGraph := hSweeps.graph_eq hSolver
  rw [← hGraph] at hBest ⊢
  exact hExact.values? (hSweeps.conforms hSolver) hBest

end Solver

end JointMax

------------------------------------------------------------
-- Runs on Forests
------------------------------------------------------------

namespace JointMax

namespace Solver

variable {registry : Registry} {solver : Solver Rat}

/- Changes are measured from zero. -/
theorem Sweeps.nonneg
    (hSolver : solver.Conforms registry)
    {deltas : List Rat}
    {final : Solver Rat}
    (hSweeps : Sweeps solver deltas final) :
    ∀ delta ∈ deltas, 0 ≤ delta := by
  induction hSweeps with
  | nil => simp
  | cons head _ ih =>
      rcases hSolver.of_sweep? head with
        ⟨hNext, _, changes, _, rfl⟩
      intro delta hDelta
      rcases List.mem_cons.mp hDelta with rfl | hDelta
      · rw [← Scalar.zero_rat]
        exact (foldl_larger_le_iff.mp le_rfl).1
      · exact ih hNext delta hDelta

/- Below zero no tolerance stops a run early. -/
theorem Ran.length_eq
    (hSolver : solver.Conforms registry)
    {budget : Nat}
    {tolerance : Rat}
    (hBelow : tolerance < 0)
    {deltas : List Rat}
    {final : Solver Rat}
    (hRan : solver.Ran budget tolerance deltas final) :
    deltas.length = budget := by
  apply hRan.exhausted
  unfold settled
  cases hLast : deltas.getLast? with
  | none => rfl
  | some delta =>
      have hMember := List.mem_of_getLast? hLast
      have hNonneg :=
        hRan.sweeps.nonneg hSolver delta hMember
      simp only [Scalar.le, decide_eq_false_iff_not]
      linarith

/-
  Exactness on forests: once a run has performed as many
  sweeps as there are factors, beliefs are exact and a sole
  optimum is found, whatever happened before the run.
-/
theorem Reachable.exact_of_run
    (hReachable : solver.Reachable registry)
    (hSome : solver.graph.isEmpty = false)
    (hAcyclic : solver.graph.Acyclic)
    (budget : Nat)
    (tolerance : Rat) :
    ∃ run,
      solver.optimiseWith? budget tolerance = .ok run ∧
        (tolerance < 0 → run.result.1 = budget) ∧
        (solver.graph.factorCount ≤ run.result.1 →
          run.result.2.graph = solver.graph ∧
            run.result.2.Exact ∧
            ∀ best, solver.graph.SoleOptimum best →
              run.result.2.values? =
                .ok (solver.graph.vars.map fun var =>
                  (var, best var))) := by
  have hSolver := hReachable.conforms
  rcases hSolver.optimiseWith? hSome budget tolerance with
    ⟨run, deltas, final, hRun, hRan, hResult⟩
  refine ⟨run, hRun, ?_, ?_⟩
  · intro hBelow
    rw [hResult]
    exact hRan.length_eq hSolver hBelow
  · rw [hResult]
    intro hLong
    have hExact := hRan.sweeps.exact hSolver hAcyclic hLong
    refine
      ⟨hRan.sweeps.graph_eq hSolver, hExact, ?_⟩
    intro best hBest
    exact hRan.sweeps.values? hSolver hAcyclic hLong hBest

/- Two variables with two values each. -/
def twoCoins : Registry :=
  ⟨(∅ : Std.ExtTreeMap VarId { n : Nat // 0 < n })
    |>.insert 1 ⟨2, by decide⟩
    |>.insert 2 ⟨2, by decide⟩⟩

/-
  One factor prefers equal values, and most of all the first
  ones. Each variable has a factor against its first value.
-/
@[irreducible]
def balanced : Solver Rat :=
  (start twoCoins (Config.ofBounds 10 0)).afterAll
    [.setFactor 0 [1, 2] #[1, -5, -5, 0],
      .setFactor 1 [1] #[-1, 0],
      .setFactor 2 [2] #[-1, 0]]

theorem reachable_balanced :
    balanced.Reachable twoCoins := by
  unfold balanced
  exact ⟨_, _, rfl⟩

theorem isEmpty_balanced :
    balanced.graph.isEmpty = false := by
  decide +kernel

theorem vars_balanced : balanced.graph.vars = [1, 2] := by
  decide +kernel

theorem acyclic_balanced : balanced.graph.Acyclic := by
  apply Graph.acyclic_of_edges
    reachable_balanced.conforms.coherent
    (fun factor => if factor = 0 then 0 else 2)
    (fun _ => 1)
  decide +kernel

theorem knows_twoCoins :
    ∀ var ∈ balanced.graph.vars,
      twoCoins.Knows ⟨var, 2, by decide⟩ := by
  have hFirst : twoCoins.Knows ⟨1, 2, by decide⟩ := by
    unfold Registry.Knows
    decide +kernel
  have hSecond : twoCoins.Knows ⟨2, 2, by decide⟩ := by
    unfold Registry.Knows
    decide +kernel
  rw [vars_balanced]
  intro var hVar
  rcases List.mem_cons.mp hVar with rfl | hVar
  · exact hFirst
  · rw [List.mem_singleton.mp hVar]
    exact hSecond

/- The second values are the only best ones. -/
theorem soleOptimum_balanced :
    balanced.graph.SoleOptimum fun _ => 1 := by
  have hSolver := reachable_balanced.conforms
  have hBelow : ∀ choice, balanced.graph.Admits choice →
      ∀ var ∈ balanced.graph.vars, choice var < 2 := by
    intro choice hAdmits var hVar
    rcases hSolver.coherent.mem_vars.mp hVar with
      ⟨factor, hTouches⟩
    exact (hSolver.allows_iff (knows_twoCoins var hVar)
      hTouches).mp (Graph.admits_iff.mp hAdmits var)
  have hFour : ∀ first < 2, ∀ second < 2,
      let chosen : VarId → Nat :=
        fun var => if var = 1 then first else second
      let best : VarId → Nat := fun _ => 1
      balanced.graph.total chosen ≤
          balanced.graph.total best ∧
        (balanced.graph.total chosen =
          balanced.graph.total best →
            first = 1 ∧ second = 1) := by
    decide +kernel
  have hChosen : ∀ choice : VarId → Nat,
      balanced.graph.total choice =
        balanced.graph.total fun var =>
          if var = 1 then choice 1 else choice 2 := by
    intro choice
    apply hSolver.coherent.total_congr
    simp [vars_balanced]
  have hCase : ∀ choice, balanced.graph.Admits choice →
      balanced.graph.total choice ≤
          balanced.graph.total (fun _ => 1) ∧
        (balanced.graph.total choice =
          balanced.graph.total (fun _ => 1) →
            choice 1 = 1 ∧ choice 2 = 1) := by
    intro choice hAdmits
    have hFirst := hBelow choice hAdmits 1
      (by simp [vars_balanced])
    have hSecond := hBelow choice hAdmits 2
      (by simp [vars_balanced])
    rw [hChosen choice]
    exact hFour _ hFirst _ hSecond
  refine ⟨?_, ?_, ?_⟩
  · intro factor table hTable axis hAxis
    have hVar : axis.var ∈ balanced.graph.vars :=
      hSolver.coherent.mem_vars.mpr
        ⟨factor, table, hTable, Scope.mem_vars hAxis⟩
    have hKnows :=
      hSolver.factor_sizes factor table hTable axis hAxis
    rw [hKnows.unique (knows_twoCoins axis.var hVar) rfl]
    exact Nat.one_lt_two
  · intro choice hAdmits
    exact (hCase choice hAdmits).1
  · intro choice hAdmits hTotal
    have hOnes := (hCase choice hAdmits).2 hTotal
    simp [vars_balanced, hOnes]

theorem exact_of_run_balanced :
    ∃ run,
      balanced.optimiseWith? 3 (-1) = .ok run ∧
        run.result.1 = 3 ∧
        run.result.2.Exact ∧
        run.result.2.values? = .ok [(1, 1), (2, 1)] := by
  rcases reachable_balanced.exact_of_run isEmpty_balanced
      acyclic_balanced 3 (-1) with
    ⟨run, hRun, hFull, hExact⟩
  have hCount := hFull (by decide +kernel)
  have hThree : balanced.graph.factorCount = 3 := by
    decide +kernel
  rcases hExact (by rw [hThree, hCount]) with
    ⟨_, hBeliefs, hValues⟩
  refine ⟨run, hRun, hCount, hBeliefs, ?_⟩
  rw [hValues _ soleOptimum_balanced, vars_balanced]
  rfl

end Solver

end JointMax
