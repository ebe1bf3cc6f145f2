import Mathlib
import JointMax.Proofs.Recentring

/-
  Messages stay bounded on every graph. What a factor answers
  a variable spreads no further than the factor itself, for
  whatever it is told, and what a variable tells has mean
  zero; so no number of sweeps makes messages or beliefs grow
  beyond a bound that the factors alone determine.

  Main declarations:
    * `Table.spread` and `Table.maxNorm_le_iff`
    * `Graph.toldBound` and `Graph.beliefBound`
    * `Solver.Tempered`, kept by every call
    * `Solver.Bounded`
    * `Solver.Reachable.bounded_of_run`
-/

------------------------------------------------------------
-- Spreads, Sums and Norms
------------------------------------------------------------

namespace JointMax

namespace Table

variable {table : Table Rat} {bound : Rat}

/- The largest value less the smallest one. -/
def spread (table : Table Rat) : Rat :=
  table.values.toList.max?.getD 0 -
    table.values.toList.min?.getD 0

/- Both extreme values are attained. -/
theorem exists_spread_eq (table : Table Rat) :
    ∃ top < table.scope.count, ∃ bottom < table.scope.count,
      table.spread = table.cell top - table.cell bottom ∧
        ∀ index < table.scope.count,
          table.cell bottom ≤ table.cell index ∧
            table.cell index ≤ table.cell top := by
  have hMember : ∀ index < table.scope.count,
      table.cell index ∈ table.values.toList := by
    intro index hIndex
    rw [toList_values]
    exact List.mem_map_of_mem (List.mem_range.mpr hIndex)
  have hSome : table.values.toList ≠ [] :=
    List.ne_nil_of_mem (hMember 0 table.scope.count_pos)
  have hPlace : ∀ value ∈ table.values.toList,
      ∃ index < table.scope.count,
        table.cell index = value := by
    intro value hValue
    rw [toList_values] at hValue
    rcases List.mem_map.mp hValue with ⟨index, hIndex, hCell⟩
    exact ⟨index, List.mem_range.mp hIndex, hCell⟩
  unfold spread
  cases hTop : table.values.toList.max? with
  | none =>
      exact absurd (List.max?_eq_none_iff.mp hTop) hSome
  | some most =>
      cases hBottom : table.values.toList.min? with
      | none =>
          exact absurd (List.min?_eq_none_iff.mp hBottom)
            hSome
      | some least =>
          rw [List.max?_eq_some_iff] at hTop
          rw [List.min?_eq_some_iff] at hBottom
          rcases hPlace most hTop.1 with ⟨top, hTopLt, rfl⟩
          rcases hPlace least hBottom.1 with
            ⟨bottom, hBottomLt, rfl⟩
          refine ⟨top, hTopLt, bottom, hBottomLt, rfl, ?_⟩
          intro index hIndex
          have hValue := hMember index hIndex
          exact ⟨hBottom.2 _ hValue, hTop.2 _ hValue⟩

theorem spread_le_iff :
    table.spread ≤ bound ↔
      ∀ first < table.scope.count,
        ∀ second < table.scope.count,
          table.cell first - table.cell second ≤ bound := by
  rcases table.exists_spread_eq with
    ⟨top, hTop, bottom, hBottom, hSpread, hBetween⟩
  rw [hSpread]
  constructor
  · intro hBound first hFirst second hSecond
    have hUpper := (hBetween first hFirst).2
    have hLower := (hBetween second hSecond).1
    linarith
  · intro hAll
    exact hAll top hTop bottom hBottom

theorem spread_nonneg (table : Table Rat) :
    0 ≤ table.spread := by
  have hPos := table.scope.count_pos
  have hSame := spread_le_iff.mp le_rfl 0 hPos 0 hPos
  rwa [sub_self] at hSame

theorem sum_rat (table : Table Rat) :
    table.sum =
      ∑ index ∈ Finset.range table.scope.count,
        table.cell index := by
  rw [Table.sum, laneSum_rat, toList_values,
    ← List.sum_toFinset _ List.nodup_range,
    List.toFinset_range]

/- The norm is the least bound of all absolute values. -/
theorem maxNorm_le_iff :
    table.maxNorm ≤ bound ↔
      ∀ index < table.scope.count,
        |table.cell index| ≤ bound := by
  have hAbs : ∀ value : Rat, Scalar.abs value = |value| := by
    intro value
    change (if value < 0 then -value else value) = |value|
    split
    · rename_i hNeg
      exact (abs_of_neg hNeg).symm
    · rename_i hNonneg
      exact (abs_of_nonneg (not_lt.mp hNonneg)).symm
  rw [maxNorm_eq_foldl, foldl_larger_le_iff,
    List.forall_mem_map, Scalar.zero_rat]
  simp only [List.mem_range, hAbs]
  constructor
  · exact fun hBoth => hBoth.2
  · intro hAll
    have hFirst := hAll 0 table.scope.count_pos
    exact ⟨(abs_nonneg _).trans hFirst, hAll⟩

theorem abs_eval_le_maxNorm
    {choice : VarId → Nat}
    (hAdmits : table.scope.Admits choice) :
    |table.eval choice| ≤ table.maxNorm := by
  rw [eval_eq_cell]
  exact maxNorm_le_iff.mp le_rfl _ (Scope.number_lt hAdmits)

end Table

variable {size : Nat} {weight : Nat → Rat}

/- Recentred numbers add up to zero. -/
theorem sum_sub_mean
    (hPos : 0 < size)
    (weight : Nat → Rat) :
    ∑ value ∈ Finset.range size,
      (weight value -
        (∑ other ∈ Finset.range size, weight other) /
          size) = 0 := by
  have hSize : (size : Rat) ≠ 0 := by
    exact_mod_cast hPos.ne'
  rw [Finset.sum_sub_distrib, Finset.sum_const,
    Finset.card_range, nsmul_eq_mul, mul_div_cancel₀ _ hSize,
    sub_self]

/- No number is further from the mean than from another. -/
theorem abs_sub_mean_le
    {bound : Rat}
    (hSpread : ∀ first < size, ∀ second < size,
      weight first - weight second ≤ bound)
    {value : Nat}
    (hValue : value < size) :
    |weight value -
      (∑ other ∈ Finset.range size, weight other) / size| ≤
        bound := by
  have hPos : (0 : Rat) < size := by
    exact_mod_cast Nat.zero_lt_of_lt hValue
  have hUpper :
      ∑ other ∈ Finset.range size, weight other ≤
        size * (weight value + bound) := by
    have hEach : ∀ other ∈ Finset.range size,
        weight other ≤ weight value + bound := by
      intro other hOther
      have hLess := Finset.mem_range.mp hOther
      linarith [hSpread other hLess value hValue]
    have hAll := Finset.sum_le_card_nsmul _ _ _ hEach
    rwa [Finset.card_range, nsmul_eq_mul] at hAll
  have hLower :
      size * (weight value - bound) ≤
        ∑ other ∈ Finset.range size, weight other := by
    have hEach : ∀ other ∈ Finset.range size,
        weight value - bound ≤ weight other := by
      intro other hOther
      have hLess := Finset.mem_range.mp hOther
      linarith [hSpread value hValue other hLess]
    have hAll := Finset.card_nsmul_le_sum _ _ _ hEach
    rwa [Finset.card_range, nsmul_eq_mul] at hAll
  rw [← div_le_iff₀' hPos] at hUpper
  rw [← le_div_iff₀' hPos] at hLower
  rw [abs_le]
  constructor
  · linarith
  · linarith

end JointMax

------------------------------------------------------------
-- Bounds of a Graph
------------------------------------------------------------

namespace JointMax

namespace Graph

/- The spread of one factor, zero if it is not there. -/
def spread (graph : Graph Rat) (factor : FactorId) : Rat :=
  (graph.factor? factor).elim 0 Table.spread

/- The norm of one factor, zero if it is not there. -/
def norm (graph : Graph Rat) (factor : FactorId) : Rat :=
  (graph.factor? factor).elim 0 Table.maxNorm

/-
  A bound for what the variable of an edge tells its factor:
  the spreads of its other factors.
-/
def toldBound (graph : Graph Rat) (edge : Edge) : Rat :=
  ∑ factor ∈
      (graph.factorsOf edge.var).toFinset.erase edge.factor,
    graph.spread factor

/-
  A bound for the belief of a variable: the norm of each of
  its factors, and what the other variables may tell it.
-/
def beliefBound (graph : Graph Rat) (var : VarId) : Rat :=
  ∑ factor ∈ (graph.factorsOf var).toFinset,
    (graph.norm factor +
      ∑ other ∈ (graph.scopeSet factor).erase var,
        graph.toldBound ⟨factor, other⟩)

variable {graph : Graph Rat}
variable {factor : FactorId} {table : Table Rat}

theorem spread_eq
    (hTable : graph.factor? factor = some table) :
    graph.spread factor = table.spread := by
  unfold spread
  rw [hTable]
  rfl

theorem norm_eq
    (hTable : graph.factor? factor = some table) :
    graph.norm factor = table.maxNorm := by
  unfold norm
  rw [hTable]
  rfl

theorem spread_nonneg
    (graph : Graph Rat)
    (factor : FactorId) :
    0 ≤ graph.spread factor := by
  unfold spread
  cases graph.factor? factor with
  | none => exact le_rfl
  | some table => exact table.spread_nonneg

variable {told : Edge → Nat → Rat} {edge : Edge} {axis : Axis}

/-
  Answers spread no further than the factor. The best choice
  for one value, changed to another, is told the same by all
  other variables.
-/
theorem answer_sub_le
    (hTable : graph.factor? edge.factor = some table)
    (hAxis : axis ∈ table.scope.axes)
    (hVar : axis.var = edge.var)
    {first second : Nat}
    (hFirst : first < axis.size)
    (hSecond : second < axis.size) :
    graph.answer told edge first -
        graph.answer told edge second ≤
      table.spread := by
  rcases isGreatest_answer told hTable hAxis hVar hFirst with
    ⟨⟨choice, ⟨hAdmits, _⟩, hBest⟩, _⟩
  have hOther := isGreatest_answer told hTable hAxis hVar
    hSecond
  let changed := Function.update choice axis.var second
  have hChanged : table.scope.Admits changed :=
    hAdmits.update hAxis hSecond
  have hAt : changed edge.var = second := by
    rw [← hVar]
    exact Function.update_self ..
  have hBound : graph.worth told edge changed ≤
      graph.answer told edge second :=
    hOther.2 ⟨changed, ⟨hChanged, hAt⟩, rfl⟩
  have hTold :
      ∑ var ∈ (graph.scopeSet edge.factor).erase edge.var,
          told ⟨edge.factor, var⟩ (changed var) =
        ∑ var ∈ (graph.scopeSet edge.factor).erase edge.var,
          told ⟨edge.factor, var⟩ (choice var) := by
    apply Finset.sum_congr rfl
    intro var hMember
    have hNe : var ≠ axis.var :=
      hVar ▸ Finset.ne_of_mem_erase hMember
    rw [show changed var = choice var from
      Function.update_of_ne hNe ..]
  have hSpread :
      table.eval choice - table.eval changed ≤
        table.spread := by
    rw [Table.eval_eq_cell, Table.eval_eq_cell]
    exact Table.spread_le_iff.mp le_rfl _
      (Scope.number_lt hAdmits) _ (Scope.number_lt hChanged)
  rw [worth, weight_eq hTable] at hBest hBound
  rw [hTold] at hBound
  linarith

/- Answers are bounded by the factor and what it is told. -/
theorem abs_answer_le
    {bound : VarId → Rat}
    (hTold :
      ∀ var ∈ (graph.scopeSet edge.factor).erase edge.var,
        ∀ choice, table.scope.Admits choice →
          |told ⟨edge.factor, var⟩ (choice var)| ≤ bound var)
    (hTable : graph.factor? edge.factor = some table)
    (hAxis : axis ∈ table.scope.axes)
    (hVar : axis.var = edge.var)
    {value : Nat}
    (hValue : value < axis.size) :
    |graph.answer told edge value| ≤
      graph.norm edge.factor +
        ∑ var ∈ (graph.scopeSet edge.factor).erase edge.var,
          bound var := by
  rcases isGreatest_answer told hTable hAxis hVar hValue with
    ⟨⟨choice, ⟨hAdmits, _⟩, hBest⟩, _⟩
  rw [← hBest, worth, weight_eq hTable, norm_eq hTable]
  refine (abs_add_le _ _).trans ?_
  apply add_le_add (Table.abs_eval_le_maxNorm hAdmits)
  refine (Finset.abs_sum_le_sum_abs _ _).trans ?_
  apply Finset.sum_le_sum
  intro var hMember
  exact hTold var hMember choice hAdmits

end Graph

end JointMax

------------------------------------------------------------
-- Tempered Solvers
------------------------------------------------------------

namespace JointMax

namespace Solver

/-
  No stored answer spreads further than the factor that is
  there now, and all that is stored of what variables tell
  adds up to zero.
-/
structure Tempered (solver : Solver Rat) : Prop where
  toVar : ∀ (edge : Edge) (message : Table Rat),
    solver.toVar[edge]? = some message →
      ∃ table,
        solver.graph.factor? edge.factor = some table ∧
          message.spread ≤ table.spread
  toFactor : ∀ (edge : Edge) (message : Table Rat),
    solver.toFactor[edge]? = some message →
      message.sum = 0

variable {registry : Registry} {solver next : Solver Rat}

theorem tempered_start
    (registry : Registry)
    (config : Config Rat) :
    (start registry config).Tempered where
  toVar := by simp [start]
  toFactor := by simp [start]

/- Messages of the factor that changes are dropped. -/
theorem Tempered.invalidate
    (hTempered : solver.Tempered)
    {graph : Graph Rat}
    {factor : FactorId}
    (hOthers : ∀ other, other ≠ factor →
      graph.factor? other = solver.graph.factor? other) :
    (invalidate { solver with graph := graph }
      factor).Tempered where
  toVar := by
    intro edge message hMessage
    rcases invalidate_toVar_iff.mp hMessage with ⟨hOld, hNe⟩
    rcases hTempered.toVar edge message hOld with
      ⟨table, hTable, hSpread⟩
    exact ⟨table, (hOthers _ hNe).trans hTable, hSpread⟩
  toFactor := by
    intro edge message hMessage
    exact hTempered.toFactor edge message
      (invalidate_toFactor_iff.mp hMessage).1

/- A sweep tempers all messages, whatever there was before. -/
theorem Conforms.tempered_of_sweep?
    (hSolver : solver.Conforms registry)
    {delta : Rat}
    (hSweep : solver.sweep? = .ok (next, delta)) :
    next.Tempered := by
  rcases hSolver.of_sweep? hSweep with
    ⟨hNext, hSwept, _⟩
  constructor
  · intro edge message hMessage
    have hEdge := (hNext.toVar_fits edge message hMessage).1
    rw [hSwept.graph_eq] at hEdge ⊢
    rcases hSolver.equations_of_sweep? hSweep hEdge with
      ⟨table, axis, hEquations⟩
    rcases hEquations.toVar with ⟨found, hFound, hScope, _⟩
    rw [hMessage] at hFound
    cases hFound
    refine ⟨table, hEquations.factor, ?_⟩
    rw [Table.spread_le_iff, hScope, Scope.count_ofAxis]
    intro first hFirst second hSecond
    rw [← Messages.read_eq hMessage,
      ← Messages.read_eq hMessage,
      hEquations.read_toVar hFirst,
      hEquations.read_toVar hSecond]
    exact Graph.answer_sub_le hEquations.factor
      hEquations.axis_mem hEquations.axis_var hFirst hSecond
  · intro edge message hMessage
    have hEdge := (hNext.toFactor_fits edge message hMessage).1
    rw [hSwept.graph_eq] at hEdge
    rcases hSolver.equations_of_sweep? hSweep hEdge with
      ⟨table, axis, hEquations⟩
    rcases hEquations.toFactor with
      ⟨found, hFound, hScope, _⟩
    rw [hMessage] at hFound
    cases hFound
    rw [Table.sum_rat, hScope, Scope.count_ofAxis]
    refine Eq.trans ?_ (sum_sub_mean axis.size_pos
      (solver.graph.tell solver.toVar.read edge))
    apply Finset.sum_congr rfl
    intro value hValue
    rw [← Messages.read_eq hMessage]
    exact hEquations.read_toFactor
      (Finset.mem_range.mp hValue)

theorem Sweeps.tempered
    (hSolver : solver.Conforms registry)
    (hTempered : solver.Tempered)
    {deltas : List Rat}
    {final : Solver Rat}
    (hSweeps : Sweeps solver deltas final) :
    final.Tempered := by
  induction hSweeps with
  | nil => exact hTempered
  | cons head _ ih =>
      exact ih (hSolver.of_sweep? head).1
        (hSolver.tempered_of_sweep? head)

theorem Tempered.step
    (hSolver : solver.Conforms registry)
    (hTempered : solver.Tempered)
    (hStep : Step solver next) :
    next.Tempered := by
  cases hStep with
  | set factor table _ =>
      apply hTempered.invalidate
      intro other hNe
      rw [Graph.factor?_setFactor, if_neg hNe]
  | remove factor =>
      unfold Solver.removeFactor
      cases solver.graph.factor? factor with
      | none => exact hTempered
      | some old =>
          apply hTempered.invalidate
          intro other hNe
          rw [Graph.factor?_removeFactor, if_neg hNe]
  | clear => exact tempered_start _ _
  | configure config => exact { hTempered with }
  | @run budget tolerance done ran =>
      rcases hSolver.exists_run budget tolerance with
        ⟨found, deltas, final, _, hFound, hSweeps, hResult,
          _⟩
      rw [ran] at hFound
      cases hFound
      rw [hResult]
      exact { hSweeps.tempered hSolver hTempered with }
  | refuse => exact hTempered

theorem Reachable.tempered
    (hSolver : solver.Reachable registry) :
    solver.Tempered :=
  hSolver.induction (tempered_start registry)
    fun _ _ hFits hTempered => hTempered.step hFits

end Solver

end JointMax

------------------------------------------------------------
-- After a Sweep
------------------------------------------------------------

namespace JointMax

namespace Solver

/- Messages of variables, and beliefs, are within the bounds. -/
structure Bounded (solver : Solver Rat) : Prop where
  toFactor : ∀ edge ∈ solver.graph.edges, ∃ message,
    solver.toFactor[edge]? = some message ∧
      message.maxNorm ≤ solver.graph.toldBound edge
  beliefs : ∀ var ∈ solver.graph.vars, ∃ belief,
    solver.belief? var = .ok (some belief) ∧
      solver.beliefs[var]? = some belief ∧
      belief.maxNorm ≤ solver.graph.beliefBound var

variable {registry : Registry} {solver next : Solver Rat}

/- What is read of a factor spreads no further than it. -/
theorem Tempered.read_sub_le
    (hSolver : solver.Conforms registry)
    (hTempered : solver.Tempered)
    {axis : Axis}
    (hKnows : registry.Knows axis)
    (factor : FactorId)
    {first second : Nat}
    (hFirst : first < axis.size)
    (hSecond : second < axis.size) :
    solver.toVar.read ⟨factor, axis.var⟩ first -
        solver.toVar.read ⟨factor, axis.var⟩ second ≤
      solver.graph.spread factor := by
  cases hMessage :
      solver.toVar[(⟨factor, axis.var⟩ : Edge)]? with
  | none =>
      have hZero : ∀ value,
          solver.toVar.read ⟨factor, axis.var⟩ value = 0 := by
        intro value
        rw [Messages.read, hMessage]
        rfl
      rw [hZero, hZero, sub_self]
      exact solver.graph.spread_nonneg factor
  | some message =>
      rcases hTempered.toVar _ _ hMessage with
        ⟨table, hTable, hSpread⟩
      have hScope :=
        (hSolver.toVar_fits _ _ hMessage).2.scope_eq hKnows
      rw [Graph.spread_eq hTable, Messages.read_eq hMessage,
        Messages.read_eq hMessage]
      rw [Table.spread_le_iff, hScope, Scope.count_ofAxis]
        at hSpread
      exact hSpread first hFirst second hSecond

/- What a variable tells in a sweep is bounded. -/
theorem Tempered.abs_read_toFactor_le
    (hSolver : solver.Conforms registry)
    (hTempered : solver.Tempered)
    {edge : Edge}
    {table : Table Rat}
    {axis : Axis}
    (hEquations : Equations solver next edge table axis)
    {value : Nat}
    (hValue : value < axis.size) :
    |next.toFactor.read edge value| ≤
      solver.graph.toldBound edge := by
  have hKnows := hSolver.factor_sizes _ _ hEquations.factor
    axis hEquations.axis_mem
  rw [hEquations.read_toFactor hValue]
  apply abs_sub_mean_le _ hValue
  intro first hFirst second hSecond
  unfold Graph.tell Graph.toldBound
  rw [← Finset.sum_sub_distrib, ← hEquations.axis_var]
  apply Finset.sum_le_sum
  intro factor _
  exact hTempered.read_sub_le hSolver hKnows factor hFirst
    hSecond

/- What a factor answers in a sweep is bounded. -/
theorem Tempered.abs_read_toVar_le
    (hSolver : solver.Conforms registry)
    (hTempered : solver.Tempered)
    {delta : Rat}
    (hSweep : solver.sweep? = .ok (next, delta))
    {edge : Edge}
    {table : Table Rat}
    {axis : Axis}
    (hEquations : Equations solver next edge table axis)
    {value : Nat}
    (hValue : value < axis.size) :
    |next.toVar.read edge value| ≤
      solver.graph.norm edge.factor +
        ∑ other ∈ (solver.graph.scopeSet edge.factor).erase
            edge.var,
          solver.graph.toldBound ⟨edge.factor, other⟩ := by
  rw [hEquations.read_toVar hValue]
  apply Graph.abs_answer_le _ hEquations.factor
    hEquations.axis_mem hEquations.axis_var hValue
  intro var hMember choice hAdmits
  have hTouches :=
    Graph.mem_scopeSet.mp (Finset.mem_of_mem_erase hMember)
  rcases hSolver.equations_of_sweep? hSweep
      (hSolver.coherent.mem_edges.mpr hTouches :
        (⟨edge.factor, var⟩ : Edge) ∈ solver.graph.edges) with
    ⟨found, other, hOther⟩
  have hSame := hOther.factor.symm.trans hEquations.factor
  cases hSame
  apply hTempered.abs_read_toFactor_le hSolver hOther
  have hSize := hAdmits other hOther.axis_mem
  rwa [hOther.axis_var] at hSize

/- A sweep of a tempered solver leaves a bounded one. -/
theorem Tempered.bounded_of_sweep?
    (hSolver : solver.Conforms registry)
    (hTempered : solver.Tempered)
    {delta : Rat}
    (hSweep : solver.sweep? = .ok (next, delta)) :
    next.Bounded := by
  rcases hSolver.of_sweep? hSweep with
    ⟨hNext, hSwept, _⟩
  have hCurrent := hSolver.current_of_sweep? hSweep
  constructor
  · intro edge hEdge
    rw [hSwept.graph_eq] at hEdge ⊢
    rcases hSolver.equations_of_sweep? hSweep hEdge with
      ⟨table, axis, hEquations⟩
    rcases hEquations.toFactor with
      ⟨message, hMessage, hScope, _⟩
    refine ⟨message, hMessage, ?_⟩
    rw [Table.maxNorm_le_iff, hScope, Scope.count_ofAxis]
    intro value hValue
    rw [← Messages.read_eq hMessage]
    exact hTempered.abs_read_toFactor_le hSolver hEquations
      hValue
  · intro var hVar
    rcases hNext.axis?_of_mem_vars hVar with
      ⟨axis, hAxis, hKnows, rfl⟩
    rcases hNext.belief?_cell hAxis hKnows with
      ⟨belief, hBelief, hScope, hCell⟩
    refine ⟨belief, hBelief,
      (hCurrent.beliefs_iff _ belief).mpr hBelief, ?_⟩
    rw [Table.maxNorm_le_iff, hScope, Scope.count_ofAxis]
    intro value hValue
    rw [hCell value hValue, credence,
      ← List.sum_toFinset _ (next.graph.nodup_factorsOf _),
      hSwept.graph_eq]
    refine (Finset.abs_sum_le_sum_abs _ _).trans ?_
    apply Finset.sum_le_sum
    intro factor hFactor
    have hTouches := hSolver.coherent.mem_factorsOf.mp
      (List.mem_toFinset.mp hFactor)
    rcases hSolver.equations_of_sweep? hSweep
        (hSolver.coherent.mem_edges.mpr hTouches :
          (⟨factor, axis.var⟩ : Edge) ∈
            solver.graph.edges) with
      ⟨table, other, hEquations⟩
    have hSame : other = axis :=
      (hSolver.factor_sizes _ _ hEquations.factor other
        hEquations.axis_mem).unique hKnows hEquations.axis_var
    exact hTempered.abs_read_toVar_le hSolver hSweep
      hEquations (hSame ▸ hValue)

end Solver

end JointMax

------------------------------------------------------------
-- Runs of Reachable Solvers
------------------------------------------------------------

namespace JointMax

namespace Solver

variable {registry : Registry} {solver : Solver Rat}

/-
  On any graph and after any calls, stored messages of factors
  spread no further than their factors, and those of variables
  add up to zero. After a run, however many sweeps it took,
  messages of variables and beliefs are within bounds that
  speak of the factors alone.
-/
theorem Reachable.bounded_of_run
    (hReachable : solver.Reachable registry)
    (budget : Nat)
    (tolerance : Rat) :
    solver.Tempered ∧
      ∃ run,
        solver.optimiseWith? budget tolerance = .ok run ∧
          run.result.2.graph = solver.graph ∧
          (solver.graph.isEmpty = false → tolerance < 0 →
            run.result.1 = budget) ∧
          (1 ≤ run.result.1 → run.result.2.Bounded) := by
  have hSolver := hReachable.conforms
  have hTempered := hReachable.tempered
  rcases hSolver.exists_run budget tolerance with
    ⟨run, deltas, final, lastRun, hRun, hSweeps, hResult,
      hFull⟩
  refine ⟨hTempered, run, hRun, ?_⟩
  rw [hResult]
  refine ⟨hSweeps.graph_eq hSolver, hFull, ?_⟩
  intro hPos
  rcases hSweeps.exists_last
      (List.ne_nil_of_length_pos hPos) with
    ⟨before, delta, hBefore, hLast⟩
  have hBounded :=
    (hBefore.tempered hSolver hTempered).bounded_of_sweep?
      (hBefore.conforms hSolver) hLast
  exact { hBounded with }

/-
  A cyclic graph after a run and the replacement of one of its
  factors, which leaves messages of the other ones.
-/
theorem bounded_of_run_looped :
    ∃ solver run,
      solver = looped.afterAll
          [.optimiseWith 3 (-1),
            .setFactor 1 [1, 2] #[5, -5, 0, 2]] ∧
        solver.graph.isCyclic = true ∧
        solver.toVar ≠ ∅ ∧
        solver.Tempered ∧
        solver.optimiseWith? 4 (-1) = .ok run ∧
        run.result.1 = 4 ∧
        run.result.2.Bounded := by
  have hReachable :=
    reachable_looped.afterAll
      [.optimiseWith 3 (-1),
        .setFactor 1 [1, 2] #[5, -5, 0, 2]]
  rcases hReachable.bounded_of_run 4 (-1) with
    ⟨hTempered, run, hRun, _, hFull, hBounded⟩
  have hCount : run.result.1 = 4 :=
    hFull (by decide +kernel) (by decide +kernel)
  exact ⟨_, run, rfl, by decide +kernel, by decide +kernel,
    hTempered, hRun, hCount, hBounded (by omega)⟩

end Solver

end JointMax
