import Mathlib
import JointMax.Proofs.GraphHistories
import JointMax.Proofs.Likeness
import JointMax.Proofs.Renaming

/-
  Names do not matter. On exact numbers, a solver of renamed
  factors performs the same sweeps as the original: the orders
  of sums and of joint values differ, but neither sums nor
  greatest values depend on an order.

  Main declarations:
    * `Solver.Renamed`
    * `Graph.Renamed.tell_eq` and `Graph.Renamed.answer_eq`
    * `Solver.Renamed.sweep?`
    * `Solver.rebuilt`, the same factors under new names
    * `Solver.Reachable.runsAlike_of_silent`
-/

------------------------------------------------------------
-- Lists in Another Order
------------------------------------------------------------

namespace JointMax

/- Results of the same items, which come in another order. -/
theorem perm_map_of_forall₂
    {β γ δ ε : Type}
    {related : β → γ → Prop}
    {renamed : δ → ε → Prop}
    {f : β → δ}
    {g : γ → ε}
    {items : List β}
    {results : List γ}
    {names : List δ}
    {outcomes : List ε}
    (hItems : List.Forall₂ related items results)
    (hNames : List.Forall₂ renamed names outcomes)
    (hPerm : names.Perm (items.map f))
    (hSame : ∀ item result outcome,
      related item result → renamed (f item) outcome →
        outcome = g result) :
    outcomes.Perm (results.map g) := by
  rcases List.perm_comp_forall₂ hPerm.symm hNames with
    ⟨listed, hListed, hOutcomes⟩
  rw [List.forall₂_map_left_iff] at hListed
  have hResults : listed = results.map g := by
    clear hOutcomes hNames hPerm
    induction hItems generalizing listed with
    | nil =>
        cases hListed
        rfl
    | cons hHead _ ih =>
        cases hListed with
        | cons hOther hRest =>
            rw [List.map_cons, hSame _ _ _ hHead hOther,
              ih _ hRest]
  rw [← hResults]
  exact hOutcomes.symm

/- The larger of numbers may be taken in any order. -/
instance : RightCommutative (Scalar.larger : Rat → Rat → Rat)
    where
  right_comm := by
    intro first second third
    simp only [Scalar.larger_rat]
    exact max_right_comm first second third

end JointMax

------------------------------------------------------------
-- Renamed Solvers
------------------------------------------------------------

namespace JointMax

variable {α : Type} [Scalar α]

/- The second messages are the first ones, renamed. -/
def Messages.Renamed
    (naming : Renaming)
    (first second : Messages α) : Prop :=
  ∀ edge,
    second[naming.edge edge]? =
      first[edge]?.map (Table.rename naming)

namespace Solver

/-
  The second solver holds the factors, messages and beliefs of
  the first one under new names. As every id is a name, it
  holds no others.
-/
structure Renamed
    (naming : Renaming)
    (first second : Solver α) : Prop where
  graph : first.graph.Renamed naming second.graph
  toVar : first.toVar.Renamed naming second.toVar
  toFactor : first.toFactor.Renamed naming second.toFactor
  beliefs : ∀ var,
    second.beliefs[naming.var var]? =
      first.beliefs[var]?.map (Table.rename naming)

/-
  The solver holds factors alone: no message, and no belief
  that the first changes would be measured against.
-/
structure Silent (solver : Solver α) : Prop where
  toVar : solver.toVar = ∅
  toFactor : solver.toFactor = ∅
  beliefs : solver.beliefs = ∅

theorem renamed_of_silent
    {naming : Renaming}
    {first second : Solver α}
    (hGraph : first.graph.Renamed naming second.graph)
    (hFirst : first.Silent)
    (hSecond : second.Silent) :
    first.Renamed naming second := by
  rcases hFirst with ⟨hToVar, hToFactor, hBeliefs⟩
  rcases hSecond with ⟨hOther, hOtherToFactor, hOthers⟩
  refine ⟨hGraph, ?_, ?_, ?_⟩
  · intro edge
    rw [hToVar, hOther, Std.ExtTreeMap.getElem?_empty,
      Std.ExtTreeMap.getElem?_empty]
    rfl
  · intro edge
    rw [hToFactor, hOtherToFactor,
      Std.ExtTreeMap.getElem?_empty,
      Std.ExtTreeMap.getElem?_empty]
    rfl
  · intro var
    rw [hBeliefs, hOthers, Std.ExtTreeMap.getElem?_empty,
      Std.ExtTreeMap.getElem?_empty]
    rfl

end Solver

end JointMax

------------------------------------------------------------
-- What is Told and Answered under New Names
------------------------------------------------------------

namespace JointMax

namespace Graph.Renamed

variable {naming : Renaming} {first second : Graph Rat}
variable {told renamedTold : Edge → Nat → Rat}

/- Sums run over the same factors. -/
theorem tell_eq
    (hRenamed : Graph.Renamed naming first second)
    (hFirst : first.Coherent)
    (hSecond : second.Coherent)
    (hTold : ∀ edge value,
      renamedTold (naming.edge edge) value =
        told edge value)
    (edge : Edge)
    (value : Nat) :
    second.tell renamedTold (naming.edge edge) value =
      first.tell told edge value := by
  unfold tell
  change ∑ factor ∈
      (second.factorsOf (naming.var edge.var)).toFinset.erase
        (naming.factor edge.factor), _ = _
  rw [hRenamed.factorsOf_eq hFirst hSecond,
    ← Finset.image_erase naming.factor_injective,
    Finset.sum_image naming.factor_injective.injOn]
  apply Finset.sum_congr rfl
  intro factor _
  exact hTold ⟨factor, edge.var⟩ value

/- Joint values have the same worth. -/
theorem worth_eq
    (hRenamed : Graph.Renamed naming first second)
    (hFirst : first.Coherent)
    (hSecond : second.Coherent)
    (hTold : ∀ edge value,
      renamedTold (naming.edge edge) value =
        told edge value)
    {edge : Edge}
    {table : Table Rat}
    (hTable : first.factor? edge.factor = some table)
    {choice : VarId → Nat}
    (hAdmits : (table.scope.rename naming).Admits choice) :
    second.worth renamedTold (naming.edge edge) choice =
      first.worth told edge (choice ∘ naming.var) := by
  have hOther :
      second.factor? (naming.factor edge.factor) =
        some (table.rename naming) := by
    rw [hRenamed.factor?_eq hFirst hSecond, hTable]
    rfl
  have hWeight :
      second.weight (naming.factor edge.factor) choice =
        first.weight edge.factor (choice ∘ naming.var) := by
    rw [weight_eq hOther, weight_eq hTable,
      Table.eval_rename hAdmits]
  unfold worth
  change second.weight (naming.factor edge.factor) choice +
    ∑ var ∈
      (second.scopeSet (naming.factor edge.factor)).erase
        (naming.var edge.var), _ = _
  rw [hWeight, hRenamed.scopeSet_eq hFirst hSecond,
    ← Finset.image_erase naming.var_injective,
    Finset.sum_image naming.var_injective.injOn]
  apply congrArg (first.weight edge.factor _ + ·)
  apply Finset.sum_congr rfl
  intro var _
  exact hTold ⟨edge.factor, var⟩ _

/-
  Factors answer the same. Every choice for the old names is
  one for the new names, extended by zeros.
-/
theorem answer_eq
    (hRenamed : Graph.Renamed naming first second)
    (hFirst : first.Coherent)
    (hSecond : second.Coherent)
    (hTold : ∀ edge value,
      renamedTold (naming.edge edge) value =
        told edge value)
    {edge : Edge}
    {table : Table Rat}
    (hTable : first.factor? edge.factor = some table)
    {axis : Axis}
    (hAxis : axis ∈ table.scope.axes)
    (hVar : axis.var = edge.var)
    {value : Nat}
    (hValue : value < axis.size) :
    second.answer renamedTold (naming.edge edge) value =
      first.answer told edge value := by
  have hOther :
      second.factor? (naming.factor edge.factor) =
        some (table.rename naming) := by
    rw [hRenamed.factor?_eq hFirst hSecond, hTable]
    rfl
  have hSet :
      second.worth renamedTold (naming.edge edge) ''
          {choice |
            (table.scope.rename naming).Admits choice ∧
              choice (naming.var edge.var) = value} =
        first.worth told edge ''
          {choice | table.scope.Admits choice ∧
            choice edge.var = value} := by
    apply Set.Subset.antisymm
    · rintro _ ⟨choice, ⟨hAdmits, hAt⟩, rfl⟩
      exact ⟨choice ∘ naming.var,
        ⟨Scope.admits_rename.mp hAdmits, hAt⟩,
        (hRenamed.worth_eq hFirst hSecond hTold hTable
          hAdmits).symm⟩
    · rintro _ ⟨choice, ⟨hAdmits, hAt⟩, rfl⟩
      let extended :=
        Function.extend naming.var choice fun _ => 0
      have hBack : extended ∘ naming.var = choice :=
        Function.extend_comp naming.var_injective _ _
      have hExtended :
          (table.scope.rename naming).Admits extended := by
        rw [Scope.admits_rename, hBack]
        exact hAdmits
      refine ⟨extended, ⟨hExtended, ?_⟩, ?_⟩
      · exact (congrFun hBack edge.var).trans hAt
      · rw [hRenamed.worth_eq hFirst hSecond hTold hTable
          hExtended, hBack]
  have hGreatest :=
    isGreatest_answer told hTable hAxis hVar hValue
  have hName :
      (axis.rename naming).var = (naming.edge edge).var :=
    congrArg naming.var hVar
  have hRenamedGreatest :=
    isGreatest_answer renamedTold hOther
      (Scope.mem_axes_rename hAxis) hName hValue
  exact hRenamedGreatest.unique (hSet ▸ hGreatest)

end Graph.Renamed

end JointMax

------------------------------------------------------------
-- Messages and Beliefs under New Names
------------------------------------------------------------

namespace JointMax

variable {naming : Renaming}

namespace Registry.Measures

variable {α : Type} [Scalar α]
variable {registry : Registry} {var : VarId}
variable {table : Table α}

/- Tables over one variable keep their values in place. -/
theorem values_rename
    (hMeasures : registry.Measures var table) :
    (table.rename naming).values = table.values := by
  rcases hMeasures with ⟨axis, _, _, hScope⟩
  exact (Table.rename_ofAxis hScope).2

theorem cell_rename
    (hMeasures : registry.Measures var table)
    (value : Nat) :
    (table.rename naming).cell value = table.cell value := by
  unfold Table.cell
  rw [hMeasures.values_rename]

theorem maxNorm_rename
    (hMeasures : registry.Measures var table) :
    (table.rename naming).maxNorm = table.maxNorm := by
  unfold Table.maxNorm
  rw [hMeasures.values_rename]

theorem argmax_rename
    (hMeasures : registry.Measures var table) :
    (table.rename naming).argmax = table.argmax := by
  have hBetter :
      (table.rename naming).better = table.better := by
    funext best index
    simp only [Table.better, hMeasures.cell_rename]
  unfold Table.argmax Table.argmaxAmong
  rw [hBetter, hMeasures.values_rename]

end Registry.Measures

/- Messages over one variable say the same of its values. -/
theorem Messages.Renamed.read_eq
    {registry : Registry}
    {first second : Messages Rat}
    (hRenamed : first.Renamed naming second)
    (hFits : ∀ (edge : Edge) (message : Table Rat),
      first[edge]? = some message →
        registry.Measures edge.var message)
    (edge : Edge)
    (value : Nat) :
    second.read (naming.edge edge) value =
      first.read edge value := by
  unfold Messages.read
  rw [hRenamed edge]
  cases hMessage : first[edge]? with
  | none => rfl
  | some message =>
      exact (hFits edge message hMessage).cell_rename value

namespace Solver

variable {registry other : Registry}
variable {first second next following : Solver Rat}

theorem Conforms.read_toVar
    (hFirst : first.Conforms registry)
    (hToVar : first.toVar.Renamed naming second.toVar)
    (edge : Edge)
    (value : Nat) :
    second.toVar.read (naming.edge edge) value =
      first.toVar.read edge value :=
  hToVar.read_eq
    (fun edge message hMessage =>
      (hFirst.toVar_fits edge message hMessage).2)
    edge value

theorem Conforms.read_toFactor
    (hFirst : first.Conforms registry)
    (hToFactor : first.toFactor.Renamed naming second.toFactor)
    (edge : Edge)
    (value : Nat) :
    second.toFactor.read (naming.edge edge) value =
      first.toFactor.read edge value :=
  hToFactor.read_eq
    (fun edge message hMessage =>
      (hFirst.toFactor_fits edge message hMessage).2)
    edge value

/- The equations of an edge, and those of its new name. -/
theorem Conforms.equations_renamed
    (hFirst : first.Conforms registry)
    (hSecond : second.Conforms other)
    (hGraph : first.graph.Renamed naming second.graph)
    {delta change : Rat}
    (hSweep : first.sweep? = .ok (next, delta))
    (hOther : second.sweep? = .ok (following, change))
    {edge : Edge}
    (hEdge : edge ∈ first.graph.edges) :
    ∃ table axis,
      Equations first next edge table axis ∧
        Equations second following (naming.edge edge)
          (table.rename naming) (axis.rename naming) := by
  rcases hFirst.equations_of_sweep? hSweep hEdge with
    ⟨table, axis, hEquations⟩
  have hName : naming.edge edge ∈ second.graph.edges :=
    (hGraph.mem_edges_iff hFirst.coherent
      hSecond.coherent).mpr hEdge
  rcases hSecond.equations_of_sweep? hOther hName with
    ⟨found, place, hFound⟩
  have hTable : found = table.rename naming := by
    have hFactor := hFound.factor
    change second.graph.factor?
      (naming.factor edge.factor) = _ at hFactor
    rw [hGraph.factor?_eq hFirst.coherent hSecond.coherent,
      hEquations.factor] at hFactor
    exact (Option.some.inj hFactor).symm
  subst hTable
  have hAxis : place = axis.rename naming := by
    apply Scope.axis_eq_of_var_eq hFound.axis_mem
      (Scope.mem_axes_rename hEquations.axis_mem)
    exact hFound.axis_var.trans
      (congrArg naming.var hEquations.axis_var).symm
  subst hAxis
  exact ⟨table, axis, hEquations, hFound⟩

/-
  Messages on all edges are renamed if they are tables over
  renamed axes and say the same.
-/
theorem Conforms.renamed_of_read_eq
    (hFirst : first.Conforms registry)
    (hSecond : second.Conforms other)
    (hGraph : first.graph.Renamed naming second.graph)
    {messages renamed : Messages Rat}
    (hKeys : ∀ edge,
      edge ∈ messages ↔ edge ∈ first.graph.edges)
    (hNames : ∀ edge,
      edge ∈ renamed ↔ edge ∈ second.graph.edges)
    (hEach : ∀ edge ∈ first.graph.edges,
      ∃ axis message found,
        messages[edge]? = some message ∧
          message.scope = Scope.ofAxis axis ∧
          renamed[naming.edge edge]? = some found ∧
          found.scope =
            Scope.ofAxis (axis.rename naming) ∧
          ∀ value < axis.size,
            renamed.read (naming.edge edge) value =
              messages.read edge value) :
    messages.Renamed naming renamed := by
  intro edge
  by_cases hEdge : edge ∈ first.graph.edges
  · rcases hEach edge hEdge with
      ⟨axis, message, found, hMessage, hScope, hFound,
        hOther, hRead⟩
    have hSame : found = message.rename naming := by
      apply Table.eq_rename hScope hOther
      intro value hValue
      rw [← Messages.read_eq hFound, hRead value hValue,
        Messages.read_eq hMessage]
    rw [hFound, hMessage, hSame]
    rfl
  · have hName : naming.edge edge ∉ second.graph.edges := by
      rwa [hGraph.mem_edges_iff hFirst.coherent
        hSecond.coherent]
    rw [← hKeys] at hEdge
    rw [← hNames] at hName
    rw [Std.ExtTreeMap.getElem?_eq_none hEdge,
      Std.ExtTreeMap.getElem?_eq_none hName]
    rfl

end Solver

end JointMax

------------------------------------------------------------
-- Sweeps under New Names
------------------------------------------------------------

namespace JointMax

variable {naming : Renaming}

namespace Solver

variable {registry other : Registry}
variable {first second next following : Solver Rat}
variable {delta change : Rat}

/- What variables tell is renamed by a sweep. -/
theorem Conforms.toFactor_renamed
    (hFirst : first.Conforms registry)
    (hSecond : second.Conforms other)
    (hGraph : first.graph.Renamed naming second.graph)
    (hToVar : first.toVar.Renamed naming second.toVar)
    (hSweep : first.sweep? = .ok (next, delta))
    (hOther : second.sweep? = .ok (following, change)) :
    next.toFactor.Renamed naming following.toFactor := by
  have hNextGraph := (hFirst.of_sweep? hSweep).2.1.graph_eq
  have hOtherGraph := (hSecond.of_sweep? hOther).2.1.graph_eq
  apply hFirst.renamed_of_read_eq hSecond hGraph
  · rw [← hNextGraph]
    exact (hFirst.current_of_sweep? hSweep).toFactor_keys
  · rw [← hOtherGraph]
    exact (hSecond.current_of_sweep? hOther).toFactor_keys
  · intro edge hEdge
    rcases hFirst.equations_renamed hSecond hGraph hSweep
        hOther hEdge with
      ⟨table, axis, hEquations, hRenamed⟩
    rcases hEquations.toFactor with
      ⟨message, hMessage, hScope, _⟩
    rcases hRenamed.toFactor with
      ⟨found, hFound, hFoundScope, _⟩
    refine ⟨axis, message, found, hMessage, hScope, hFound,
      hFoundScope, ?_⟩
    have hTell :=
      hGraph.tell_eq hFirst.coherent hSecond.coherent
        (hFirst.read_toVar hToVar) edge
    intro value hValue
    rw [hRenamed.read_toFactor hValue,
      hEquations.read_toFactor hValue]
    simp only [hTell]
    rfl

/- So is what factors answer. -/
theorem Conforms.toVar_renamed
    (hFirst : first.Conforms registry)
    (hSecond : second.Conforms other)
    (hGraph : first.graph.Renamed naming second.graph)
    (hToFactor :
      next.toFactor.Renamed naming following.toFactor)
    (hSweep : first.sweep? = .ok (next, delta))
    (hOther : second.sweep? = .ok (following, change)) :
    next.toVar.Renamed naming following.toVar := by
  have hNext := (hFirst.of_sweep? hSweep).1
  have hNextGraph := (hFirst.of_sweep? hSweep).2.1.graph_eq
  have hOtherGraph := (hSecond.of_sweep? hOther).2.1.graph_eq
  apply hFirst.renamed_of_read_eq hSecond hGraph
  · rw [← hNextGraph]
    exact (hFirst.current_of_sweep? hSweep).toVar_keys
  · rw [← hOtherGraph]
    exact (hSecond.current_of_sweep? hOther).toVar_keys
  · intro edge hEdge
    rcases hFirst.equations_renamed hSecond hGraph hSweep
        hOther hEdge with
      ⟨table, axis, hEquations, hRenamed⟩
    rcases hEquations.toVar with
      ⟨message, hMessage, hScope, _⟩
    rcases hRenamed.toVar with
      ⟨found, hFound, hFoundScope, _⟩
    refine ⟨axis, message, found, hMessage, hScope, hFound,
      hFoundScope, ?_⟩
    intro value hValue
    rw [hRenamed.read_toVar hValue,
      hEquations.read_toVar hValue]
    exact hGraph.answer_eq hFirst.coherent hSecond.coherent
      (hNext.read_toFactor hToFactor) hEquations.factor
      hEquations.axis_mem hEquations.axis_var hValue

/- Credence is a sum over the same factors. -/
theorem Conforms.credence_renamed
    (hFirst : first.Conforms registry)
    (hSecond : second.Conforms other)
    (hGraph : first.graph.Renamed naming second.graph)
    (hToVar : first.toVar.Renamed naming second.toVar)
    (var : VarId)
    (value : Nat) :
    second.credence (naming.var var) value =
      first.credence var value := by
  unfold credence
  rw [← List.sum_toFinset _ (second.graph.nodup_factorsOf _),
    ← List.sum_toFinset _ (first.graph.nodup_factorsOf _),
    hGraph.factorsOf_eq hFirst.coherent hSecond.coherent,
    Finset.sum_image naming.factor_injective.injOn]
  apply Finset.sum_congr rfl
  intro factor _
  exact hFirst.read_toVar hToVar ⟨factor, var⟩ value

/- Beliefs are read off renamed messages under new names. -/
theorem Conforms.belief?_renamed
    (hFirst : first.Conforms registry)
    (hSecond : second.Conforms other)
    (hGraph : first.graph.Renamed naming second.graph)
    (hToVar : first.toVar.Renamed naming second.toVar)
    (var : VarId) :
    ∃ belief,
      first.belief? var = .ok belief ∧
        second.belief? (naming.var var) =
          .ok (belief.map (Table.rename naming)) := by
  by_cases hVar : var ∈ first.graph.vars
  · rcases hFirst.coherent.mem_vars.mp hVar with
      ⟨factor, table, hTable, hMember⟩
    rcases Scope.mem_vars_iff.mp hMember with
      ⟨axis, hAxis, rfl⟩
    have hName :
        second.graph.factor? (naming.factor factor) =
          some (table.rename naming) := by
      rw [hGraph.factor?_eq hFirst.coherent
        hSecond.coherent, hTable]
      rfl
    have hPlace :
        axis.rename naming ∈
          (table.rename naming).scope.axes :=
      Scope.mem_axes_rename hAxis
    rcases hFirst.belief?_cell
        (hFirst.axis?_eq_of_mem hTable hAxis)
        (hFirst.factor_sizes _ _ hTable _ hAxis) with
      ⟨belief, hBelief, hScope, hCell⟩
    rcases hSecond.belief?_cell
        (hSecond.axis?_eq_of_mem hName hPlace)
        (hSecond.factor_sizes _ _ hName _ hPlace) with
      ⟨found, hFound, hFoundScope, hFoundCell⟩
    have hSame : found = belief.rename naming := by
      apply Table.eq_rename hScope hFoundScope
      intro value hValue
      rw [hCell value hValue, hFoundCell value hValue]
      exact hFirst.credence_renamed hSecond hGraph hToVar
        axis.var value
    subst hSame
    exact ⟨some belief, hBelief, hFound⟩
  · have hName : naming.var var ∉ second.graph.vars := by
      rw [(hGraph.perm_vars hFirst.coherent
        hSecond.coherent).mem_iff,
        List.mem_map_of_injective naming.var_injective]
      exact hVar
    exact ⟨none, hFirst.belief?_eq_none hVar,
      hSecond.belief?_eq_none hName⟩

theorem Swept.beliefs_eq
    (hSwept : first.Swept next)
    {var : VarId}
    {belief : Option (Table Rat)}
    (hBelief : next.belief? var = .ok belief) :
    next.beliefs[var]? = belief := by
  apply Option.ext
  intro table
  rw [hSwept.beliefs_iff, hBelief, Except.ok.injEq]

/- A belief changes by as much under its new name. -/
theorem Conforms.change?_renamed
    (hFirst : first.Conforms registry)
    (hBeliefs : ∀ var,
      second.beliefs[naming.var var]? =
        first.beliefs[var]?.map (Table.rename naming))
    {var : VarId}
    {belief : Table Rat}
    (hMeasures : registry.Measures var belief) :
    second.change? (naming.var var) (belief.rename naming) =
      first.change? var belief := by
  have hRenamed := hBeliefs var
  cases hOld : first.beliefs[var]? with
  | none =>
      rw [hOld] at hRenamed
      rw [change?_of_none hRenamed, change?_of_none hOld,
        hMeasures.maxNorm_rename]
  | some old =>
      have hOldMeasures := (hFirst.beliefs_fit var old hOld).2
      have hScope := hMeasures.same_scope hOldMeasures
      rw [hOld] at hRenamed
      rw [change?_of_some hRenamed
          (congrArg (Scope.rename naming) hScope),
        change?_of_some hOld hScope]
      apply congrArg Except.ok
      unfold Table.maxNorm Table.zipCells
      dsimp only
      rw [hMeasures.values_rename, hOldMeasures.values_rename]

/-
  The changes come in another order, which does not matter for
  the largest of them.
-/
theorem Conforms.delta_renamed
    (hFirst : first.Conforms registry)
    (hSecond : second.Conforms other)
    (hNext : next.Conforms registry)
    (hRenamed : first.Renamed naming second)
    (hBeliefs : ∀ var,
      following.beliefs[naming.var var]? =
        next.beliefs[var]?.map (Table.rename naming))
    (hMoved : first.Moved next delta)
    (hOther : second.Moved following change) :
    change = delta := by
  rcases hMoved with ⟨changes, hChanges, rfl⟩
  rcases hOther with ⟨others, hOthers, rfl⟩
  have hVars :=
    hRenamed.graph.perm_vars hFirst.coherent
      hSecond.coherent
  have hPerm : others.Perm (changes.map id) := by
    apply perm_map_of_forall₂ hChanges hOthers hVars
    rintro var change another ⟨belief, hBelief, hChange⟩
      ⟨found, hFound, hAnother⟩
    rw [hBeliefs, hBelief] at hFound
    cases hFound
    have hMeasures :=
      (hNext.beliefs_fit var belief hBelief).2
    rw [hFirst.change?_renamed hRenamed.beliefs hMeasures,
      hChange] at hAnother
    exact (Except.ok.inj hAnother).symm
  rw [List.map_id] at hPerm
  exact hPerm.foldl_eq _

/- A sweep leaves renamed solvers renamed. -/
theorem Renamed.sweep?
    (hFirst : first.Conforms registry)
    (hSecond : second.Conforms other)
    (hRenamed : first.Renamed naming second)
    (hSweep : first.sweep? = .ok (next, delta)) :
    ∃ following,
      second.sweep? = .ok (following, delta) ∧
        next.Renamed naming following := by
  rcases hFirst.of_sweep? hSweep with
    ⟨hNext, hSwept, hMoved⟩
  rcases hSecond.sweep? with
    ⟨following, change, hOther, hFollowing, hOtherSwept,
      hOtherMoved⟩
  have hToFactor :=
    hFirst.toFactor_renamed hSecond hRenamed.graph
      hRenamed.toVar hSweep hOther
  have hToVar :=
    hFirst.toVar_renamed hSecond hRenamed.graph hToFactor
      hSweep hOther
  have hGraph :
      next.graph.Renamed naming following.graph := by
    rw [hSwept.graph_eq, hOtherSwept.graph_eq]
    exact hRenamed.graph
  have hBeliefs : ∀ var,
      following.beliefs[naming.var var]? =
        next.beliefs[var]?.map (Table.rename naming) := by
    intro var
    rcases hNext.belief?_renamed hFollowing hGraph hToVar var
      with ⟨belief, hBelief, hName⟩
    rw [hSwept.beliefs_eq hBelief, hOtherSwept.beliefs_eq hName]
  have hDelta : change = delta :=
    hFirst.delta_renamed hSecond hNext hRenamed hBeliefs
      hMoved hOtherMoved
  subst hDelta
  exact ⟨following, hOther,
    { graph := hGraph
      toVar := hToVar
      toFactor := hToFactor
      beliefs := hBeliefs }⟩

theorem Renamed.sweeps
    (hFirst : first.Conforms registry)
    (hSecond : second.Conforms other)
    (hRenamed : first.Renamed naming second)
    {deltas : List Rat}
    {final : Solver Rat}
    (hSweeps : Sweeps first deltas final) :
    ∃ last,
      Sweeps second deltas last ∧
        final.Renamed naming last := by
  induction hSweeps generalizing second with
  | nil => exact ⟨second, Sweeps.nil, hRenamed⟩
  | cons head _ ih =>
      rcases hRenamed.sweep? hFirst hSecond head with
        ⟨following, hFollowing, hNext⟩
      rcases ih (hFirst.of_sweep? head).1
          (hSecond.of_sweep? hFollowing).1 hNext with
        ⟨last, hSweeps, hLast⟩
      exact ⟨last, Sweeps.cons hFollowing hSweeps, hLast⟩

theorem Renamed.ran
    (hFirst : first.Conforms registry)
    (hSecond : second.Conforms other)
    (hRenamed : first.Renamed naming second)
    {budget : Nat}
    {tolerance : Rat}
    {deltas : List Rat}
    {final : Solver Rat}
    (hRan : first.Ran budget tolerance deltas final) :
    ∃ last,
      second.Ran budget tolerance deltas last ∧
        final.Renamed naming last := by
  rcases hRenamed.sweeps hFirst hSecond hRan.sweeps with
    ⟨last, hSweeps, hLast⟩
  exact ⟨last, { hRan with sweeps := hSweeps }, hLast⟩

end Solver

end JointMax

------------------------------------------------------------
-- Building a Renamed Solver
------------------------------------------------------------

namespace JointMax

variable {naming : Renaming}

namespace Registry

/- The same sizes under new names. -/
def rename
    (naming : Renaming)
    (registry : Registry) : Registry :=
  ⟨Std.ExtTreeMap.ofList
    (registry.sizes.toList.map fun entry =>
      (naming.var entry.1, entry.2))⟩

variable {registry : Registry} {axis : Axis}

theorem Knows.rename
    (hKnows : registry.Knows axis) :
    (registry.rename naming).Knows (axis.rename naming) := by
  have hNodup :
      ((registry.sizes.toList.map fun entry =>
        (naming.var entry.1, entry.2)).map Prod.fst).Nodup := by
    have hKeys : (registry.sizes.toList.map Prod.fst).Nodup := by
      rw [Std.ExtTreeMap.map_fst_toList_eq_keys]
      exact Std.ExtTreeMap.nodup_keys
    have hNames := hKeys.map naming.var_injective
    rw [List.map_map] at hNames ⊢
    exact hNames
  have hSize :
      registry.sizes[axis.var]? =
        some ⟨axis.size, axis.size_pos⟩ := by
    unfold Knows size? at hKnows
    split at hKnows
    · rename_i size hFound
      cases hKnows
      exact hFound
    · cases hKnows
  have hRenamed :
      (registry.rename naming).sizes[
          (axis.rename naming).var]? =
        some ⟨axis.size, axis.size_pos⟩ := by
    apply (getElem?_ofList_iff hNodup).mpr
    exact List.mem_map.mpr
      ⟨(axis.var, ⟨axis.size, axis.size_pos⟩),
        Std.ExtTreeMap.mem_toList_iff_getElem?_eq_some.mpr
          hSize, rfl⟩
  unfold Knows size?
  rw [hRenamed]
  rfl

end Registry

namespace Solver

variable {α : Type} [Scalar α]
variable {registry : Registry} {solver : Solver α}

omit [Scalar α] in
theorem Silent.insertFactor
    (hSilent : solver.Silent)
    (factor : FactorId)
    (table : Table α) :
    (solver.insertFactor factor table).result.Silent where
  toVar := by
    change solver.toVar.filter _ = ∅
    rw [hSilent.toVar]
    rfl
  toFactor := by
    change solver.toFactor.filter _ = ∅
    rw [hSilent.toFactor]
    rfl
  beliefs := by
    change solver.beliefs.filter _ = ∅
    rw [hSilent.beliefs]
    rfl

theorem after_setFactorTable
    {factor : FactorId}
    {table : Table α}
    (hKnows : ∀ axis ∈ table.scope.axes,
      solver.registry.Knows axis) :
    solver.after (.setFactorTable factor table) =
      (solver.insertFactor factor table).result := by
  simp only [Solver.after, answer?, setFactorTable?,
    checkAxes_of_knows hKnows, Except.map]

/- New factors that fit the registry are all accepted. -/
theorem Silent.setFactorTables
    (hSilent : solver.Silent)
    (entries : List (FactorId × Table α))
    (hKnows : ∀ entry ∈ entries,
      ∀ axis ∈ entry.2.scope.axes,
        solver.registry.Knows axis)
    (hNodup :
      ((solver.graph.factors ++ entries).map
        Prod.fst).Nodup) :
    (solver.afterAll (entries.map fun entry =>
        .setFactorTable entry.1 entry.2)).Silent ∧
      (solver.afterAll (entries.map fun entry =>
        .setFactorTable entry.1 entry.2)).graph.factors =
          solver.graph.factors ++ entries := by
  induction entries generalizing solver with
  | nil => exact ⟨hSilent, (List.append_nil _).symm⟩
  | cons entry entries ih =>
      rcases entry with ⟨factor, table⟩
      let next := (solver.insertFactor factor table).result
      have hNext :
          solver.after (.setFactorTable factor table) =
            next :=
        after_setFactorTable
          (hKnows (factor, table) (by simp))
      have hFresh :
          solver.graph.factors.lookup factor = none := by
        rw [List.lookup_eq_none_iff]
        intro entry hEntry
        rw [List.map_append] at hNodup
        have hApart :=
          (List.nodup_append.mp hNodup).2.2 entry.1
            (List.mem_map_of_mem hEntry) factor (by simp)
        exact bne_iff_ne.mpr hApart.symm
      have hFactors :
          next.graph.factors =
            solver.graph.factors ++ [(factor, table)] :=
        Graph.putFactor_of_lookup_eq_none hFresh
      have hAll :
          solver.graph.factors ++ (factor, table) :: entries =
            next.graph.factors ++ entries := by
        rw [hFactors, List.append_assoc]
        rfl
      rw [hAll] at hNodup ⊢
      rw [List.map_cons]
      change (afterAll (solver.after
          (.setFactorTable factor table)) _).Silent ∧
        (afterAll (solver.after
          (.setFactorTable factor table)) _).graph.factors = _
      rw [hNext]
      apply ih (hSilent.insertFactor factor table) _ hNodup
      intro other hOther
      exact hKnows other (by simp [hOther])

/- A solver with the same factors under new names. -/
def rebuilt
    (naming : Renaming)
    (config : Config α)
    (solver : Solver α) : Solver α :=
  let entries := solver.graph.factors.map fun entry =>
    (naming.factor entry.1, entry.2.rename naming)
  (start (solver.registry.rename naming) config).afterAll
    (entries.map fun entry =>
      .setFactorTable entry.1 entry.2)

theorem Conforms.rebuilt
    (hSolver : solver.Conforms registry)
    (naming : Renaming)
    (config : Config α) :
    (solver.rebuilt naming config).Reachable
        (registry.rename naming) ∧
      (solver.rebuilt naming config).Silent ∧
      solver.graph.Renamed naming
        (solver.rebuilt naming config).graph := by
  have hRegistry := hSolver.registry_eq
  have hKnows : ∀ entry ∈ solver.graph.factors.map
      (fun entry =>
        (naming.factor entry.1, entry.2.rename naming)),
      ∀ axis ∈ entry.2.scope.axes,
        (registry.rename naming).Knows axis := by
    intro entry hEntry axis hAxis
    rcases List.mem_map.mp hEntry with
      ⟨⟨factor, table⟩, hMember, rfl⟩
    rcases List.mem_map.mp
        (Scope.perm_rename.mem_iff.mp hAxis) with
      ⟨old, hOld, rfl⟩
    exact (hSolver.factor_sizes factor table
      (hSolver.coherent.factor?_eq_some_iff.mpr hMember)
      old hOld).rename
  have hNodup :
      ((solver.graph.factors.map fun entry =>
        (naming.factor entry.1,
          entry.2.rename naming)).map Prod.fst).Nodup := by
    have hNames :=
      hSolver.coherent.nodup.map naming.factor_injective
    rw [List.map_map] at hNames ⊢
    exact hNames
  have hStart :
      (start (registry.rename naming) config).Silent :=
    ⟨rfl, rfl, rfl⟩
  rcases hStart.setFactorTables _ hKnows hNodup with
    ⟨hSilent, hFactors⟩
  subst hRegistry
  refine ⟨⟨config, _, rfl⟩, hSilent, ?_⟩
  exact List.Perm.of_eq hFactors

end Solver

end JointMax

------------------------------------------------------------
-- Runs under New Names
------------------------------------------------------------

namespace JointMax

variable {naming : Renaming}

namespace Solver

variable {registry other : Registry}
variable {first second : Solver Rat}

/- The best values are those of the renamed variables. -/
theorem Conforms.values?_renamed
    (hFirst : first.Conforms registry)
    (hSecond : second.Conforms other)
    (hGraph : first.graph.Renamed naming second.graph)
    (hToVar : first.toVar.Renamed naming second.toVar) :
    ∃ values others,
      first.values? = .ok values ∧
        second.values? = .ok others ∧
        others.Perm (values.map fun value =>
          (naming.var value.1, value.2)) := by
  rcases hFirst.values? with ⟨values, hValues, hPairs⟩
  rcases hSecond.values? with ⟨others, hOthers, hNames⟩
  refine ⟨values, others, hValues, hOthers, ?_⟩
  have hVars :=
    hGraph.perm_vars hFirst.coherent hSecond.coherent
  apply perm_map_of_forall₂ hPairs hNames hVars
  rintro _ ⟨var, _⟩ ⟨_, _⟩ ⟨rfl, belief, hBelief, rfl⟩
    ⟨rfl, found, hFound, rfl⟩
  rcases hFirst.belief?_renamed hSecond hGraph hToVar var
    with ⟨known, hKnown, hName⟩
  rw [hBelief] at hKnown
  cases hKnown
  rw [hFound] at hName
  cases hName
  have hMeasures := (hFirst.measures_of_belief? hBelief).2
  exact Prod.ext rfl hMeasures.argmax_rename

/-
  Runs within the same bounds report the same from both
  solvers. Messages and beliefs stay the same up to names, and
  so do the best values.
-/
def RunsAlike
    (naming : Renaming)
    (first second : Solver Rat) : Prop :=
  ∀ (budget : Nat) (tolerance : Rat),
    ∃ run another stats values others,
      first.optimiseWith? budget tolerance = .ok run ∧
        second.optimiseWith? budget tolerance =
          .ok another ∧
        run.result.1 = stats.iterations ∧
        another.result.1 = stats.iterations ∧
        run.result.2.lastRun = some stats ∧
        another.result.2.lastRun = some stats ∧
        run.result.2.Renamed naming another.result.2 ∧
        (∀ var, ∃ belief,
          run.result.2.belief? var = .ok belief ∧
            another.result.2.belief? (naming.var var) =
              .ok (belief.map (Table.rename naming))) ∧
        run.result.2.values? = .ok values ∧
        another.result.2.values? = .ok others ∧
        others.Perm (values.map fun value =>
          (naming.var value.1, value.2))

/- Messages and beliefs may be there already, if renamed. -/
theorem Renamed.runsAlike
    (hFirst : first.Conforms registry)
    (hSecond : second.Conforms other)
    (hRenamed : first.Renamed naming second) :
    first.RunsAlike naming second := by
  intro budget tolerance
  have hSame := hRenamed.graph.isEmpty_eq
  cases hEmpty : first.graph.isEmpty with
  | true =>
      rw [hEmpty] at hSame
      rcases hFirst.values?_renamed hSecond hRenamed.graph
          hRenamed.toVar with
        ⟨values, others, hValues, hOthers, hPerm⟩
      exact ⟨_, _, ⟨0, true, Scalar.zero⟩, values, others,
        optimiseWith?_of_isEmpty hEmpty budget tolerance,
        optimiseWith?_of_isEmpty hSame budget tolerance,
        rfl, rfl, rfl, rfl, { hRenamed with },
        (hFirst.withLastRun _).belief?_renamed
          (hSecond.withLastRun _) hRenamed.graph
          hRenamed.toVar,
        hValues, hOthers, hPerm⟩
  | false =>
      rw [hEmpty] at hSame
      rcases hFirst.optimiseWith? hEmpty budget tolerance
        with ⟨run, deltas, final, hRun, hRan, hResult⟩
      rcases hSecond.optimiseWith? hSame budget tolerance
        with ⟨another, more, last, hMore, hMoreRan, hLast⟩
      rcases hRenamed.ran hFirst hSecond hRan with
        ⟨found, hFound, hFinal⟩
      rcases hFound.unique hMoreRan with ⟨rfl, rfl⟩
      have hFinalFits := hRan.sweeps.conforms hFirst
      have hLastFits := hMoreRan.sweeps.conforms hSecond
      rcases hFinalFits.values?_renamed hLastFits
          hFinal.graph hFinal.toVar with
        ⟨values, others, hValues, hOthers, hPerm⟩
      let stats : RunStats Rat :=
        ⟨deltas.length, settled tolerance deltas,
          deltas.getLastD Scalar.zero⟩
      refine
        ⟨run, another, stats, values, others, hRun, hMore,
          ?_⟩
      rw [hResult, hLast]
      exact ⟨rfl, rfl, rfl, rfl, { hFinal with },
        (hFinalFits.withLastRun _).belief?_renamed
          (hLastFits.withLastRun _) hFinal.graph hFinal.toVar,
        hValues, hOthers, hPerm⟩

/- A variable with two values and one with three. -/
def coinAndDie : Registry :=
  ⟨twoCoins.sizes.insert 2 ⟨3, by decide⟩⟩

/- A factor over both, and one over the second alone. -/
@[irreducible]
def wagered : Solver Rat :=
  (start coinAndDie (Config.ofBounds 10 0)).afterAll
    [.setFactor 0 [1, 2] #[1, 2, 3, 0, 5, -4],
      .setFactor 1 [2] #[0, 1, -3]]

theorem reachable_wagered : wagered.Reachable coinAndDie := by
  unfold wagered
  exact ⟨_, _, rfl⟩

/- Both variables and factors change places. -/
def reversing : Renaming where
  var := fun var => 3 - var
  factor := fun factor => 1 - factor
  var_injective := fun _ _ hSame =>
    (UInt32.sub_right_inj 3).mp hSame
  factor_injective := fun _ _ hSame =>
    (UInt32.sub_right_inj 1).mp hSame

end Solver

end JointMax
