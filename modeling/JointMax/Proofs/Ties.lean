import Mathlib
import JointMax.Proofs.ForestOptimum

/-
  Values of the solver on forests with several optima. Each
  variable takes the least value that any optimum gives it,
  without regard to the others. Together these values are an
  optimum only if the optima have a least one.

  Main declarations:
    * `Table.lt_argmax`
    * `Graph.Optimum` and `Graph.leasts`
    * `Solver.Exact.isLeast_argmax`
    * `Solver.Reachable.leasts_of_run`
-/

------------------------------------------------------------
-- The First Best Place
------------------------------------------------------------

namespace JointMax

namespace Table

/- The new best place is the old one unless it is beaten. -/
theorem better_cases
    (table : Table Rat)
    (leader place : Nat) :
    (table.better (some leader) place = some leader ∧
        table.cell place ≤ table.cell leader) ∨
      (table.better (some leader) place = some place ∧
        table.cell leader < table.cell place) := by
  by_cases hLess : table.cell leader < table.cell place
  · right
    simp [better, Scalar.isNaN, Scalar.lt, hLess]
  · left
    simp [better, Scalar.isNaN, Scalar.lt, hLess,
      not_lt.mp hLess]

/-
  Along increasing places the winner beats the leader, if it
  is another one, and every place before itself.
-/
theorem lt_of_foldl_better
    {table : Table Rat}
    {places : List Nat}
    {leader index : Nat}
    (hSorted : (leader :: places).Pairwise (· < ·))
    (hBest :
      places.foldl table.better (some leader) =
        some index) :
    ∀ place ∈ leader :: places, place < index →
      table.cell place < table.cell index := by
  induction places generalizing leader with
  | nil =>
      cases hBest
      intro place hPlace hLess
      rw [List.mem_singleton.mp hPlace] at hLess
      exact absurd hLess (Nat.lt_irrefl _)
  | cons next places ih =>
      rcases List.pairwise_cons.mp hSorted with
        ⟨hLeader, hRest⟩
      have hSkip : (leader :: places).Pairwise (· < ·) :=
        hSorted.sublist
          ((List.sublist_cons_self _ _).cons_cons leader)
      rw [List.foldl_cons] at hBest
      rcases table.better_cases leader next with
        ⟨hKept, hBound⟩ | ⟨hBeaten, hBeats⟩
      · rw [hKept] at hBest
        have hOld := ih hSkip hBest
        intro place hPlace hLess
        rcases List.mem_cons.mp hPlace with rfl | hPlace
        · exact hOld place (by simp) hLess
        · rcases List.mem_cons.mp hPlace with rfl | hPlace
          · have hFirst :=
              hLeader place (List.mem_cons_self ..)
            exact hBound.trans_lt
              (hOld leader (by simp) (hFirst.trans hLess))
          · exact hOld place (by simp [hPlace]) hLess
      · rw [hBeaten] at hBest
        have hNew := ih hRest hBest
        intro place hPlace hLess
        rcases List.mem_cons.mp hPlace with rfl | hPlace
        · have hNext : table.cell next ≤ table.cell index :=
            (le_of_foldl_better hBest).1 next rfl
          exact hBeats.trans_le hNext
        · exact hNew place hPlace hLess

/- Before the best place there are smaller values only. -/
theorem lt_argmax
    {table : Table Rat}
    {index : Nat}
    (hIndex : index < table.argmax) :
    table.cell index < table.cell table.argmax := by
  have hPlace := table.argmax_lt
  have hMember : index ∈ List.range table.scope.count :=
    List.mem_range.mpr (hIndex.trans hPlace)
  unfold argmax at hIndex ⊢
  rw [argmaxAmong, table.size_eq] at hIndex ⊢
  have hSorted :=
    List.pairwise_lt_range (n := table.scope.count)
  cases hPlaces : List.range table.scope.count with
  | nil => simp [hPlaces] at hMember
  | cons first places =>
      rw [hPlaces] at hMember hSorted hIndex
      rcases table.exists_foldl_better first places none
        with ⟨best, hBest⟩
      rw [hBest] at hIndex ⊢
      exact lt_of_foldl_better hSorted hBest index hMember
        hIndex

end Table

end JointMax

------------------------------------------------------------
-- Optima
------------------------------------------------------------

namespace JointMax

namespace Graph

/- The choice has the greatest sum of all factors. -/
structure Optimum
    (graph : Graph Rat)
    (best : VarId → Nat) : Prop where
  admits : graph.Admits best
  greatest : ∀ choice, graph.Admits choice →
    graph.total choice ≤ graph.total best

/- The values that the optima give to one variable. -/
def optimalValues (graph : Graph Rat) (var : VarId) :
    Set Nat :=
  {value | ∃ best, graph.Optimum best ∧ best var = value}

/- The least optimal value of each variable by itself. -/
noncomputable def leasts (graph : Graph Rat) (var : VarId) :
    Nat :=
  sInf (graph.optimalValues var)

variable {graph : Graph Rat}

theorem Coherent.optimum_congr
    (hGraph : graph.Coherent)
    {first second : VarId → Nat}
    (hAgree : ∀ var ∈ graph.vars, first var = second var)
    (hOptimum : graph.Optimum first) :
    graph.Optimum second := by
  constructor
  · intro factor table hTable
    apply (hOptimum.admits factor table hTable).congr
    intro var hVar
    exact hAgree var
      (hGraph.mem_vars.mpr ⟨factor, table, hTable, hVar⟩)
  · rw [← hGraph.total_congr hAgree]
    exact hOptimum.greatest

/-
  The least values fit together if and only if there is an
  optimum that is least in every variable at once.
-/
theorem Coherent.optimum_leasts_iff
    (hGraph : graph.Coherent)
    (hLeast : ∀ var ∈ graph.vars,
      IsLeast (graph.optimalValues var)
        (graph.leasts var)) :
    graph.Optimum graph.leasts ↔
      ∃ best, graph.Optimum best ∧
        ∀ other, graph.Optimum other →
          ∀ var ∈ graph.vars, best var ≤ other var := by
  constructor
  · intro hOptimum
    refine ⟨graph.leasts, hOptimum, ?_⟩
    intro other hOther var hVar
    exact (hLeast var hVar).2 ⟨other, hOther, rfl⟩
  · rintro ⟨best, hBest, hBelow⟩
    apply hGraph.optimum_congr _ hBest
    intro var hVar
    rcases (hLeast var hVar).1 with ⟨other, hOther, hValue⟩
    apply le_antisymm
    · rw [← hValue]
      exact hBelow other hOther var hVar
    · exact (hLeast var hVar).2 ⟨best, hBest, rfl⟩

end Graph

end JointMax

------------------------------------------------------------
-- Values of Exact Solvers
------------------------------------------------------------

namespace JointMax

namespace Solver

variable {registry : Registry} {solver : Solver Rat}

/- The best place of an exact belief is the least optimal. -/
theorem Exact.isLeast_argmax
    (hSolver : solver.Conforms registry)
    (hExact : solver.Exact)
    {var : VarId}
    (hVar : var ∈ solver.graph.vars)
    {belief : Table Rat}
    (hBelief : solver.belief? var = .ok (some belief)) :
    IsLeast (solver.graph.optimalValues var)
      belief.argmax := by
  rcases hExact var hVar with
    ⟨axis, found, shift, hAxis, hFound, hScope, hCells⟩
  rw [hBelief] at hFound
  cases hFound
  rcases hSolver.axis?_of_mem_vars hVar with
    ⟨known, hKnown, hKnows, rfl⟩
  rw [hAxis] at hKnown
  cases hKnown
  rcases hSolver.coherent.mem_vars.mp hVar with
    ⟨factor, hTouches⟩
  have hInside : ∀ choice, solver.graph.Admits choice →
      choice axis.var < axis.size := by
    intro choice hAdmits
    exact (hSolver.allows_iff hKnows hTouches).mp
      (Graph.admits_iff.mp hAdmits axis.var)
  have hCount : belief.scope.count = axis.size := by
    rw [hScope, Scope.count_ofAxis]
  rcases hCells belief.argmax
      (hCount ▸ belief.argmax_lt) with
    ⟨most, hMost, hMostCell⟩
  rcases hMost.1 with ⟨best, ⟨hAdmits, hPlace⟩, hTotal⟩
  constructor
  · refine ⟨best, ⟨hAdmits, ?_⟩, hPlace⟩
    intro choice hChoice
    have hValue := hInside choice hChoice
    rcases hCells _ hValue with ⟨bound, hBound, hCell⟩
    have hTop : solver.graph.total choice ≤ bound :=
      hBound.2 ⟨choice, ⟨hChoice, rfl⟩, rfl⟩
    have hBelow :
        belief.cell (choice axis.var) ≤
          belief.cell belief.argmax :=
      Table.le_argmax (hCount ▸ hValue)
    rw [hCell, hMostCell] at hBelow
    linarith
  · rintro _ ⟨choice, hOptimum, rfl⟩
    by_contra hNot
    have hValue := hInside choice hOptimum.admits
    rcases hCells _ hValue with ⟨bound, hBound, hCell⟩
    have hTop : solver.graph.total choice ≤ bound :=
      hBound.2 ⟨choice, ⟨hOptimum.admits, rfl⟩, rfl⟩
    have hLess := Table.lt_argmax (not_le.mp hNot)
    have hGreatest := hOptimum.greatest best hAdmits
    rw [hCell, hMostCell] at hLess
    linarith

theorem Exact.isLeast_leasts
    (hSolver : solver.Conforms registry)
    (hExact : solver.Exact) :
    ∀ var ∈ solver.graph.vars,
      IsLeast (solver.graph.optimalValues var)
        (solver.graph.leasts var) := by
  intro var hVar
  rcases hExact var hVar with ⟨_, belief, _, _, hBelief, _⟩
  have hLeast := hExact.isLeast_argmax hSolver hVar hBelief
  unfold Graph.leasts
  rwa [hLeast.csInf_eq]

theorem Exact.values?_eq_leasts
    (hSolver : solver.Conforms registry)
    (hExact : solver.Exact) :
    solver.values? =
      .ok (solver.graph.vars.map fun var =>
        (var, solver.graph.leasts var)) := by
  apply hSolver.values?_eq_map
  intro var hVar belief hBelief
  have hLeast := hExact.isLeast_argmax hSolver hVar hBelief
  exact hLeast.csInf_eq.symm

end Solver

end JointMax

------------------------------------------------------------
-- Runs with Several Optima
------------------------------------------------------------

namespace JointMax

namespace Solver

variable {registry : Registry} {solver : Solver Rat}

/-
  After as many sweeps on a forest as there are factors, each
  variable has the least value that an optimum gives it. The
  values together are an optimum if and only if one optimum is
  least in all variables, as a sole one is.
-/
theorem Reachable.leasts_of_run
    (hReachable : solver.Reachable registry)
    (hSome : solver.graph.isEmpty = false)
    (hAcyclic : solver.graph.Acyclic)
    (budget : Nat)
    (tolerance : Rat) :
    ∃ run,
      solver.optimiseWith? budget tolerance = .ok run ∧
        (solver.graph.factorCount ≤ run.result.1 →
          ∃ picks : VarId → Nat,
            run.result.2.values? =
              .ok (solver.graph.vars.map fun var =>
                (var, picks var)) ∧
            (∀ var ∈ solver.graph.vars,
              IsLeast (solver.graph.optimalValues var)
                (picks var)) ∧
            (solver.graph.Optimum picks ↔
              ∃ best, solver.graph.Optimum best ∧
                ∀ other, solver.graph.Optimum other →
                  ∀ var ∈ solver.graph.vars,
                    best var ≤ other var)) := by
  have hSolver := hReachable.conforms
  rcases hReachable.exact_of_run hSome hAcyclic budget
      tolerance with
    ⟨run, hRun, _, hLongEnough⟩
  rcases hSolver.exists_optimiseWith? budget tolerance with
    ⟨found, hFound, hFinal, _⟩
  rw [hRun] at hFound
  cases hFound
  refine ⟨run, hRun, ?_⟩
  intro hLong
  rcases hLongEnough hLong with ⟨hGraph, hExact, _⟩
  rw [← hGraph]
  have hLeast := hExact.isLeast_leasts hFinal
  exact ⟨run.result.2.graph.leasts,
    hExact.values?_eq_leasts hFinal, hLeast,
    hFinal.coherent.optimum_leasts_iff hLeast⟩

/- One factor rewards two variables for different values. -/
@[irreducible]
def opposed : Solver Rat :=
  (start twoCoins (Config.ofBounds 10 0)).afterAll
    [.setFactor 0 [1, 2] #[0, 1, 1, 0]]

theorem reachable_opposed :
    opposed.Reachable twoCoins := by
  unfold opposed
  exact ⟨_, _, rfl⟩

theorem isEmpty_opposed :
    opposed.graph.isEmpty = false := by
  decide +kernel

theorem vars_opposed : opposed.graph.vars = [1, 2] := by
  decide +kernel

theorem run_opposed :
    ∃ run,
      opposed.optimiseWith? 1 (-1) = .ok run ∧
        opposed.graph.factorCount ≤ run.result.1 ∧
        run.result.2.values? = .ok [(1, 0), (2, 0)] := by
  rcases reachable_opposed.conforms.exists_optimiseWith?
      1 (-1) with
    ⟨run, hRun, _⟩
  have hCheck :
      (opposed.optimiseWith? 1 (-1)).map (fun run =>
        (decide (opposed.graph.factorCount ≤ run.result.1),
          run.result.2.values?)) =
        .ok (true, .ok [(1, 0), (2, 0)]) := by
    decide +kernel
  rw [hRun] at hCheck
  have hPair := Except.ok.inj hCheck
  exact ⟨run, hRun,
    of_decide_eq_true (congrArg Prod.fst hPair),
    congrArg Prod.snd hPair⟩

theorem acyclic_opposed : opposed.graph.Acyclic := by
  apply Graph.acyclic_of_edges
    reachable_opposed.conforms.coherent
    (fun _ => 0) (fun _ => 1)
  decide +kernel

/- Both variables have zero as their least optimal value. -/
theorem leasts_of_run_opposed :
    ∃ run,
      opposed.optimiseWith? 1 (-1) = .ok run ∧
        run.result.2.values? = .ok [(1, 0), (2, 0)] ∧
        IsLeast (opposed.graph.optimalValues 1) 0 ∧
        IsLeast (opposed.graph.optimalValues 2) 0 := by
  rcases reachable_opposed.leasts_of_run isEmpty_opposed
      acyclic_opposed 1 (-1) with
    ⟨run, hRun, hLong⟩
  rcases run_opposed with ⟨found, hFound, hCount, hZeros⟩
  rw [hRun] at hFound
  cases hFound
  rcases hLong hCount with ⟨picks, hValues, hLeast, _⟩
  rw [vars_opposed] at hValues hLeast
  have hPicks := Except.ok.inj (hValues.symm.trans hZeros)
  simp only [List.map_cons, List.map_nil, List.cons.injEq,
    Prod.mk.injEq, true_and, and_true] at hPicks
  refine ⟨run, hRun, hZeros, ?_, ?_⟩
  · rw [← hPicks.1]
    exact hLeast 1 (by simp)
  · rw [← hPicks.2]
    exact hLeast 2 (by simp)

/-
  The two optima differ from each other in both variables.
  The values of the solver mix them and are no optimum.
-/
theorem values_beside_optima_opposed :
    opposed.Reachable twoCoins ∧
      opposed.graph.isEmpty = false ∧
      opposed.graph.Acyclic ∧
      ∃ run,
        opposed.optimiseWith? 1 (-1) = .ok run ∧
          opposed.graph.factorCount ≤ run.result.1 ∧
          run.result.2.values? = .ok [(1, 0), (2, 0)] ∧
          ∃ best, opposed.graph.Admits best ∧
            ∀ choice,
              run.result.2.values? =
                  .ok (opposed.graph.vars.map fun var =>
                    (var, choice var)) →
                opposed.graph.total choice <
                  opposed.graph.total best := by
  have hSolver := reachable_opposed.conforms
  refine ⟨reachable_opposed, isEmpty_opposed,
    acyclic_opposed, ?_⟩
  rcases run_opposed with ⟨run, hRun, hCount, hZeros⟩
  let best : VarId → Nat := fun var => if var = 1 then 1 else 0
  have hInside :
      ∀ entry ∈ opposed.graph.factors,
        ∀ axis ∈ entry.2.scope.axes,
          best axis.var < axis.size := by
    decide +kernel
  have hLess :
      opposed.graph.total (fun _ => 0) <
        opposed.graph.total best := by
    decide +kernel
  refine ⟨run, hRun, hCount, hZeros, best, ?_, ?_⟩
  · intro factor table hTable axis hAxis
    exact hInside (factor, table)
      (hSolver.coherent.factor?_eq_some_iff.mp hTable)
      axis hAxis
  · intro choice hChoice
    rw [hZeros, vars_opposed] at hChoice
    have hPicks := Except.ok.inj hChoice
    simp only [List.map_cons, List.map_nil, List.cons.injEq,
      Prod.mk.injEq, true_and, and_true] at hPicks
    have hSame :
        opposed.graph.total choice =
          opposed.graph.total fun _ => 0 := by
      apply hSolver.coherent.total_congr
      rw [vars_opposed]
      simp [← hPicks.1, ← hPicks.2]
    rw [hSame]
    exact hLess

end Solver

end JointMax
