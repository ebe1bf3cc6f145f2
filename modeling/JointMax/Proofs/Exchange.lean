import Mathlib
import JointMax.Proofs.Equations

/-
  Sweeps on exact numbers. What a variable tells a factor is
  the sum of what its other factors told it, less the mean of
  that sum; what a factor answers a variable is the greatest
  of its values, each with what its other variables tell.

  Main declarations:
    * `laneSum_rat`
    * `Graph.tell`, `Graph.worth` and `Graph.answer`
    * `Graph.isGreatest_answer`
    * `Solver.Equations.read_toFactor`
    * `Solver.Equations.read_toVar`
    * `Solver.Conforms.exists_run`
-/

------------------------------------------------------------
-- Sums in Lanes
------------------------------------------------------------

namespace JointMax

/- No value is lost on its way into the lanes. -/
theorem Lanes.total_feed
    (lanes : Lanes Rat)
    (values : List Rat) :
    (lanes.feed values).1.total +
        (lanes.feed values).2.sum =
      lanes.total + values.sum := by
  fun_induction Lanes.feed lanes values with
  | case1 lanes x0 x1 x2 x3 x4 x5 x6 x7 rest ih =>
      rw [ih]
      simp only [total, List.sum_cons]
      ring
  | case2 lanes rest => rfl

theorem laneSum_rat (values : List Rat) :
    laneSum values = values.sum := by
  have hStart : (Lanes.start : Lanes Rat).total = 0 := by
    simp [Lanes.total, Lanes.start, Scalar.zero_rat]
  have hFeed := Lanes.start.total_feed values
  rw [hStart, zero_add] at hFeed
  rw [← hFeed]
  exact foldl_add_rat _ _

/- A sum over all items but one. -/
theorem sum_filter_ne_toFinset
    {β : Type}
    [DecidableEq β]
    {items : List β}
    (hNodup : items.Nodup)
    (item : β)
    (weight : β → Rat) :
    ((items.filter (· != item)).map weight).sum =
      ∑ other ∈ items.toFinset.erase item, weight other := by
  have hItems :
      items.toFinset.erase item =
        (items.filter (· != item)).toFinset := by
    ext other
    simp [and_comm]
  rw [hItems, List.sum_toFinset _ (hNodup.filter _)]

end JointMax

------------------------------------------------------------
-- What is Told and Answered
------------------------------------------------------------

namespace JointMax

/- One value of an admitted choice, changed within its range. -/
theorem Scope.Admits.update
    {scope : Scope}
    {choice : VarId → Nat}
    (hAdmits : scope.Admits choice)
    {axis : Axis}
    (hAxis : axis ∈ scope.axes)
    {value : Nat}
    (hValue : value < axis.size) :
    scope.Admits (Function.update choice axis.var value) := by
  intro other hOther
  by_cases hVar : other.var = axis.var
  · rw [Scope.axis_eq_of_var_eq hOther hAxis hVar,
      Function.update_self]
    exact hValue
  · rw [Function.update_of_ne hVar]
    exact hAdmits other hOther

namespace Graph

/-
  What a variable tells a factor of a value, given what all
  factors answer: the sum over its other factors.
-/
def tell
    (graph : Graph Rat)
    (answers : Edge → Nat → Rat)
    (edge : Edge)
    (value : Nat) : Rat :=
  ∑ factor ∈
      (graph.factorsOf edge.var).toFinset.erase edge.factor,
    answers ⟨factor, edge.var⟩ value

/-
  A joint value's worth to the factor of an edge: its own
  value, and what the variables other than the edge's tell.
-/
def worth
    (graph : Graph Rat)
    (told : Edge → Nat → Rat)
    (edge : Edge)
    (choice : VarId → Nat) : Rat :=
  graph.weight edge.factor choice +
    ∑ var ∈ (graph.scopeSet edge.factor).erase edge.var,
      told ⟨edge.factor, var⟩ (choice var)

/- The joint values of a factor, none if it is not there. -/
def choices
    (graph : Graph Rat)
    (factor : FactorId) : List (VarId → Nat) :=
  (graph.factor? factor).elim [] fun table =>
    table.scope.choices

/- What a factor answers a variable: its greatest worth. -/
def answer
    (graph : Graph Rat)
    (told : Edge → Nat → Rat)
    (edge : Edge)
    (value : Nat) : Rat :=
  (((graph.choices edge.factor).filter fun choice =>
    choice edge.var = value).map
      (graph.worth told edge)).max?.getD 0

variable {graph : Graph Rat}
variable {factor : FactorId} {table : Table Rat}

theorem scopeSet_eq
    (hTable : graph.factor? factor = some table) :
    graph.scopeSet factor = table.vars.toFinset := by
  unfold scopeSet
  rw [hTable]

theorem weight_eq
    (hTable : graph.factor? factor = some table)
    (choice : VarId → Nat) :
    graph.weight factor choice = table.eval choice := by
  unfold weight
  rw [hTable]
  rfl

theorem choices_eq
    (hTable : graph.factor? factor = some table) :
    graph.choices factor = table.scope.choices := by
  unfold choices
  rw [hTable]
  rfl

/- Worth is a matter of the factor's own variables. -/
theorem worth_congr
    {told : Edge → Nat → Rat}
    {edge : Edge}
    (hTable : graph.factor? edge.factor = some table)
    {first second : VarId → Nat}
    (hAgree : table.scope.Agree first second) :
    graph.worth told edge first =
      graph.worth told edge second := by
  unfold worth
  rw [weight_eq hTable, weight_eq hTable,
    Table.eval_congr hAgree, scopeSet_eq hTable]
  apply congrArg (table.eval second + ·)
  apply Finset.sum_congr rfl
  intro var hVar
  rw [hAgree var
    (List.mem_toFinset.mp (Finset.mem_of_mem_erase hVar))]

/- The answer is attained, and no worth is above it. -/
theorem isGreatest_answer
    (told : Edge → Nat → Rat)
    {edge : Edge}
    (hTable : graph.factor? edge.factor = some table)
    {axis : Axis}
    (hAxis : axis ∈ table.scope.axes)
    (hVar : axis.var = edge.var)
    {value : Nat}
    (hValue : value < axis.size) :
    IsGreatest
      (graph.worth told edge '' {choice |
        table.scope.Admits choice ∧
          choice edge.var = value})
      (graph.answer told edge value) := by
  have hEdge : edge.var ∈ table.vars :=
    hVar ▸ Scope.mem_vars hAxis
  -- Every admitted choice is listed, up to what it makes of
  -- variables outside of the factor.
  have hListed : ∀ choice, table.scope.Admits choice →
      choice edge.var = value →
        graph.worth told edge choice ∈
          (table.scope.choices.filter fun choice =>
            choice edge.var = value).map
              (graph.worth told edge) := by
    intro choice hAdmits hAt
    rcases Scope.exists_mem_choices hAdmits with
      ⟨listed, hMember, hAgree⟩
    rw [← worth_congr hTable hAgree]
    apply List.mem_map_of_mem
    rw [List.mem_filter, decide_eq_true_iff,
      hAgree edge.var hEdge]
    exact ⟨hMember, hAt⟩
  have hZero : table.scope.Admits fun _ => 0 :=
    fun axis _ => axis.size_pos
  have hSome := hListed _ (hZero.update hAxis hValue)
    (by rw [hVar, Function.update_self])
  unfold answer
  rw [choices_eq hTable]
  cases hBest :
      ((table.scope.choices.filter fun choice =>
        choice edge.var = value).map
          (graph.worth told edge)).max? with
  | none =>
      rw [List.max?_eq_none_iff] at hBest
      rw [hBest] at hSome
      cases hSome
  | some best =>
      rw [List.max?_eq_some_iff] at hBest
      rw [Option.getD_some]
      constructor
      · rcases List.mem_map.mp hBest.1 with
          ⟨choice, hChoice, hWorth⟩
        rw [List.mem_filter, decide_eq_true_iff] at hChoice
        exact ⟨choice,
          ⟨Scope.admits_of_mem_choices hChoice.1,
            hChoice.2⟩, hWorth⟩
      · rintro _ ⟨choice, ⟨hAdmits, hAt⟩, rfl⟩
        exact hBest.2 _ (hListed choice hAdmits hAt)

end Graph

end JointMax

------------------------------------------------------------
-- Equations on Exact Numbers
------------------------------------------------------------

namespace JointMax

theorem Messages.read_eq
    {messages : Messages Rat}
    {edge : Edge}
    {message : Table Rat}
    (hMessage : messages[edge]? = some message)
    (value : Nat) :
    messages.read edge value = message.cell value := by
  rw [Messages.read, hMessage]
  rfl

/- What is told adds up to what is read. -/
theorem Messages.sum_told
    (messages : Messages Rat)
    (edges : List Edge)
    (choice : VarId → Nat) :
    (messages.told edges choice).sum =
      (edges.map fun edge =>
        messages.read edge (choice edge.var)).sum := by
  induction edges with
  | nil => rfl
  | cons edge edges ih =>
      rw [List.map_cons, List.sum_cons, ← ih, Messages.read,
        Messages.told, List.filterMap_cons]
      cases messages[edge]? with
      | none => exact (zero_add _).symm
      | some message => exact List.sum_cons

namespace Solver

variable {solver next : Solver Rat}

theorem heard_rat
    (solver : Solver Rat)
    (edge : Edge)
    (value : Nat) :
    solver.heard edge value =
      solver.graph.tell solver.toVar.read edge value := by
  unfold heard Graph.tell
  refine (foldl_add_rat _ _).trans ?_
  rw [Scalar.zero_rat, zero_add, Messages.sum_told,
    List.map_map,
    ← sum_filter_ne_toFinset (solver.graph.nodup_factorsOf _)]
  rfl

theorem heardMean_rat
    (solver : Solver Rat)
    (edge : Edge)
    (size : Nat) :
    solver.heardMean edge size =
      (∑ value ∈ Finset.range size,
        solver.graph.tell solver.toVar.read edge value) /
          size := by
  unfold heardMean
  rw [laneSum_rat, ← List.sum_toFinset _ List.nodup_range,
    List.toFinset_range]
  simp only [heard_rat]
  rfl

theorem score_rat
    (solver : Solver Rat)
    {graph : Graph Rat}
    {edge : Edge}
    {table : Table Rat}
    (hTable : graph.factor? edge.factor = some table)
    (choice : VarId → Nat) :
    solver.score edge table choice =
      graph.worth solver.toFactor.read edge choice := by
  have hNodup : table.vars.Nodup := table.scope.nodup_vars
  unfold score Graph.worth
  refine (foldl_add_rat _ _).trans ?_
  rw [Messages.sum_told, List.map_map, Graph.weight_eq hTable,
    Graph.scopeSet_eq hTable,
    ← sum_filter_ne_toFinset hNodup]
  rfl

variable {edge : Edge} {table : Table Rat} {axis : Axis}

theorem Equations.lt_of_allows
    (hEquations : Equations solver next edge table axis)
    {value : Nat}
    (hAllows : solver.graph.Allows edge.var value) :
    value < axis.size :=
  hAllows edge.factor table hEquations.factor axis
    hEquations.axis_mem hEquations.axis_var

/- Variables tell the sum of what they heard, recentred. -/
theorem Equations.read_toFactor
    (hEquations : Equations solver next edge table axis)
    {value : Nat}
    (hValue : value < axis.size) :
    next.toFactor.read edge value =
      solver.graph.tell solver.toVar.read edge value -
        (∑ other ∈ Finset.range axis.size,
          solver.graph.tell solver.toVar.read edge other) /
            axis.size := by
  rcases hEquations.toFactor with
    ⟨message, hMessage, _, hCell⟩
  rw [← heardMean_rat, ← heard_rat, ← hCell value hValue,
    Messages.read_eq hMessage]

/- Factors answer the greatest worth. -/
theorem Equations.read_toVar
    (hEquations : Equations solver next edge table axis)
    {value : Nat}
    (hValue : value < axis.size) :
    next.toVar.read edge value =
      solver.graph.answer next.toFactor.read edge value := by
  rcases hEquations.toVar with
    ⟨message, hMessage, _, hCell⟩
  have hBest := hCell value hValue
  rw [foldFirst_larger, hEquations.axis_var,
    funext (next.score_rat hEquations.factor)] at hBest
  rw [Graph.answer, Graph.choices_eq hEquations.factor,
    hBest, Messages.read_eq hMessage]
  rfl

end Solver

end JointMax

------------------------------------------------------------
-- Runs of any Length
------------------------------------------------------------

namespace JointMax

namespace Solver

variable {registry : Registry} {solver : Solver Rat}

/-
  A run is sweeps in a row, none on an empty graph. Below zero
  no tolerance ends it early, so on any other graph there is a
  run of any number of sweeps.
-/
theorem Conforms.exists_run
    (hSolver : solver.Conforms registry)
    (budget : Nat)
    (tolerance : Rat) :
    ∃ run deltas final lastRun,
      solver.optimiseWith? budget tolerance = .ok run ∧
        Sweeps solver deltas final ∧
        run.result =
          (deltas.length,
            { final with lastRun := lastRun }) ∧
        (solver.graph.isEmpty = false → tolerance < 0 →
          deltas.length = budget) := by
  cases hEmpty : solver.graph.isEmpty with
  | true =>
      exact ⟨_, [], solver, _,
        optimiseWith?_of_isEmpty hEmpty budget tolerance,
        Sweeps.nil, rfl, by simp⟩
  | false =>
      rcases hSolver.optimiseWith? hEmpty budget tolerance
        with ⟨run, deltas, final, hRun, hRan, hResult⟩
      exact ⟨run, deltas, final, _, hRun, hRan.sweeps,
        hResult, fun _ hBelow =>
          hRan.length_eq hSolver hBelow⟩

end Solver

end JointMax
