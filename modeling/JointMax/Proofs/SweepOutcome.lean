import Mathlib
import JointMax.Proofs.Conformity
import JointMax.Proofs.Slices
import JointMax.Solver.Sweep

/-
  A sweep of a conforming solver always succeeds. It leaves
  one message each way on every edge and one belief for every
  variable, each computed from what the definitions name, and
  the solver conforms as before.

  Main declarations:
    * `Solver.Conforms.received?`, sums of messages
    * `Solver.Swept`, what one sweep leaves behind
    * `Solver.Conforms.sweep?`
-/

------------------------------------------------------------
-- Lists of Results
------------------------------------------------------------

namespace JointMax

/- Steps that all succeed succeed together. -/
theorem exists_mapM
    {ε β γ : Type}
    {f : β → Except ε γ}
    {items : List β}
    (hEach : ∀ item ∈ items, ∃ result, f item = .ok result) :
    ∃ results,
      items.mapM f = .ok results ∧
        List.Forall₂ (fun item result =>
          f item = .ok result) items results := by
  induction items with
  | nil => exact ⟨[], rfl, List.Forall₂.nil⟩
  | cons item items ih =>
      rcases hEach item (by simp) with ⟨result, hResult⟩
      rcases ih (fun other hOther =>
          hEach other (by simp [hOther])) with
        ⟨results, hResults, hPairs⟩
      refine ⟨result :: results, ?_,
        List.Forall₂.cons hResult hPairs⟩
      rw [List.mapM_cons, hResult, hResults]
      rfl

/- Results filed under the keys of what they come from. -/
theorem exists_mapM_pair
    {ε β γ κ : Type}
    (key : β → κ)
    {f : β → Except ε γ}
    {items : List β}
    (hEach : ∀ item ∈ items, ∃ result, f item = .ok result) :
    ∃ pairs,
      (items.mapM fun item => do
        let result ← f item
        return (key item, result)) = .ok pairs ∧
        pairs.map Prod.fst = items.map key ∧
        ∀ name result,
          (name, result) ∈ pairs ↔
            ∃ item ∈ items,
              key item = name ∧ f item = .ok result := by
  induction items with
  | nil => exact ⟨[], rfl, rfl, by simp⟩
  | cons item items ih =>
      rcases hEach item (by simp) with ⟨first, hFirst⟩
      rcases ih (fun other hOther =>
          hEach other (by simp [hOther])) with
        ⟨pairs, hPairs, hKeys, hMember⟩
      refine ⟨(key item, first) :: pairs, ?_, ?_, ?_⟩
      · rw [List.mapM_cons, hPairs, hFirst]
        rfl
      · rw [List.map_cons, List.map_cons, hKeys]
      · intro name result
        rw [List.mem_cons, hMember, List.exists_mem_cons_iff,
          hFirst]
        simp only [Prod.mk.injEq, Except.ok.injEq, eq_comm]

theorem map_eq_of_forall₂
    {β γ δ : Type}
    (f : β → δ)
    (g : γ → δ)
    {items : List β}
    {results : List γ}
    (hPairs : List.Forall₂ (fun item result =>
      g result = f item) items results) :
    results.map g = items.map f := by
  induction hPairs with
  | nil => rfl
  | cons hHead _ ih => rw [List.map_cons, List.map_cons, hHead, ih]

theorem exists_of_forall₂_left
    {β γ : Type}
    {related : β → γ → Prop}
    {items : List β}
    {results : List γ}
    (hPairs : List.Forall₂ related items results)
    {item : β}
    (hItem : item ∈ items) :
    ∃ result ∈ results, related item result := by
  induction hPairs with
  | nil => simp at hItem
  | cons hHead _ ih =>
      rcases List.mem_cons.mp hItem with rfl | hItem
      · exact ⟨_, by simp, hHead⟩
      · rcases ih hItem with ⟨result, hResult, hRelated⟩
        exact ⟨result, by simp [hResult], hRelated⟩

theorem exists_of_forall₂_right
    {β γ : Type}
    {related : β → γ → Prop}
    {items : List β}
    {results : List γ}
    (hPairs : List.Forall₂ related items results)
    {result : γ}
    (hResult : result ∈ results) :
    ∃ item ∈ items, related item result :=
  exists_of_forall₂_left hPairs.flip hResult

/- A map made from distinct keys holds exactly its pairs. -/
theorem getElem?_ofList_iff
    {κ β : Type}
    [DecidableEq κ]
    {order : κ → κ → Ordering}
    [Std.TransCmp order]
    [Std.LawfulEqCmp order]
    {pairs : List (κ × β)}
    (hNodup : (pairs.map Prod.fst).Nodup)
    {key : κ}
    {value : β} :
    (Std.ExtTreeMap.ofList pairs order)[key]? =
        some value ↔
      (key, value) ∈ pairs := by
  have hFound : ∀ found, (key, found) ∈ pairs →
      (Std.ExtTreeMap.ofList pairs order)[key]? =
        some found := by
    intro found hPair
    apply Std.ExtTreeMap.getElem?_ofList_of_mem
      Std.ReflCmp.compare_self _ hPair
    apply (List.pairwise_map.mp hNodup).imp
    intro left right hNe hEq
    exact hNe (Std.LawfulEqCmp.eq_of_compare hEq)
  constructor
  · intro hValue
    have hKey :
        key ∈ Std.ExtTreeMap.ofList pairs order := by
      rw [Std.ExtTreeMap.mem_iff_isSome_getElem?, hValue]
      rfl
    have hMember : key ∈ pairs.map Prod.fst := by
      simpa using hKey
    rcases List.mem_map.mp hMember with
      ⟨⟨_, found⟩, hPair, rfl⟩
    rw [hFound found hPair] at hValue
    cases hValue
    exact hPair
  · exact hFound value

end JointMax

------------------------------------------------------------
-- Messages and Beliefs
------------------------------------------------------------

namespace JointMax

namespace Scope

theorem count_ofAxis (axis : Axis) :
    (ofAxis axis).count = axis.size := by
  simp [count, sizes, ofAxis, MixedRadix.count]

theorem includes_ofAxis
    {scope : Scope}
    {axis : Axis} :
    scope.includes (ofAxis axis) = true ↔
      axis ∈ scope.axes := by
  simp [includes_iff, ofAxis]

theorem filter_eq_ofAxis
    {scope : Scope}
    {axis : Axis}
    (hAxis : axis ∈ scope.axes) :
    scope.filter (· == axis.var) = ofAxis axis := by
  apply Scope.ext
  change scope.axes.filter (fun other =>
    other.var == axis.var) = [axis]
  have hNodup : scope.axes.Nodup :=
    List.Nodup.of_map Axis.var scope.nodup_vars
  apply List.perm_singleton.mp
  rw [List.perm_ext_iff_of_nodup (hNodup.filter _)
    (by simp)]
  intro other
  rw [List.mem_filter, List.mem_singleton, beq_iff_eq]
  constructor
  · rintro ⟨hOther, hVar⟩
    exact axis_eq_of_var_eq hOther hAxis hVar
  · rintro rfl
    exact ⟨hAxis, rfl⟩

theorem admits_ofAxis
    {axis : Axis}
    {choice : VarId → Nat} :
    (ofAxis axis).Admits choice ↔
      choice axis.var < axis.size := by
  simp [Admits, ofAxis]

end Scope

namespace Table

/- A table over one variable is read by its value. -/
theorem eval_ofAxis
    {α : Type}
    [Scalar α]
    {table : Table α}
    {axis : Axis}
    (hScope : table.scope = Scope.ofAxis axis)
    (choice : VarId → Nat) :
    table.eval choice = table.cell (choice axis.var) := by
  rw [eval_eq_cell, hScope]
  simp [Scope.number, Scope.ofAxis, Scope.sizes, Scope.vars,
    MixedRadix.encode]

/- The norm is the largest of the cells' absolute values. -/
theorem maxNorm_eq_foldl
    {α : Type}
    [Scalar α]
    (table : Table α) :
    table.maxNorm =
      ((List.range table.scope.count).map fun index =>
        Scalar.abs (table.cell index)).foldl
          Scalar.larger Scalar.zero := by
  rw [maxNorm, ← Array.foldl_toList, toList_values,
    List.foldl_map, List.foldl_map]

end Table

theorem Registry.Measures.eval
    {α : Type}
    [Scalar α]
    {registry : Registry}
    {var : VarId}
    {table : Table α}
    (hMeasures : registry.Measures var table)
    (choice : VarId → Nat) :
    table.eval choice = table.cell (choice var) := by
  rcases hMeasures with ⟨axis, _, rfl, hScope⟩
  exact Table.eval_ofAxis hScope choice

namespace Solver

variable {α : Type} [Scalar α]

/-
  The messages that a variable has received add up, from zero
  and in the order of the factors.
-/
theorem Conforms.received?
    {registry : Registry}
    {solver : Solver α}
    (hSolver : solver.Conforms registry)
    {axis : Axis}
    (hKnows : registry.Knows axis)
    (factors : List FactorId) :
    ∃ total,
      solver.received? axis factors = .ok total ∧
        total.scope = Scope.ofAxis axis ∧
        ∀ choice, (Scope.ofAxis axis).Admits choice →
          total.eval choice =
            ((factors.filterMap fun factor =>
              solver.messageToVar? factor axis.var).map
                fun table => table.eval choice).foldl
                  (· + ·) Scalar.zero := by
  have hIncludes :
      ∀ table ∈ factors.filterMap (fun factor =>
        solver.messageToVar? factor axis.var),
        (Table.filled (Scope.ofAxis axis)
          (Scalar.zero : α)).scope.includes
            table.scope = true := by
    intro table hTable
    rcases List.mem_filterMap.mp hTable with
      ⟨factor, _, hMessage⟩
    have hFits := (hSolver.toVar_fits _ table hMessage).2
    rw [hFits.scope_eq hKnows]
    exact Scope.includes_self _
  rcases Table.addEach?_of_includes hIncludes with
    ⟨total, hTotal, hScope, hEval⟩
  refine ⟨total, hTotal, hScope, ?_⟩
  intro choice hAdmits
  rw [hEval choice hAdmits, Table.eval_filled hAdmits]

theorem Conforms.belief?
    {registry : Registry}
    {solver : Solver α}
    (hSolver : solver.Conforms registry)
    {var : VarId}
    (hVar : var ∈ solver.graph.vars) :
    ∃ belief,
      solver.belief? var = .ok (some belief) ∧
        registry.Measures var belief := by
  rcases hSolver.axis?_of_mem_vars hVar with
    ⟨axis, hAxis, hKnows, rfl⟩
  rcases hSolver.received? hKnows
      (solver.graph.factorsOf axis.var) with
    ⟨total, hTotal, hScope, _⟩
  refine ⟨total, ?_, axis, hKnows, rfl, hScope⟩
  simp only [Solver.belief?, hAxis, hTotal]
  rfl

theorem Conforms.belief?_eq_none
    {registry : Registry}
    {solver : Solver α}
    (hSolver : solver.Conforms registry)
    {var : VarId}
    (hVar : var ∉ solver.graph.vars) :
    solver.belief? var = .ok none := by
  have hNone : solver.graph.factorsOf var = [] := by
    rw [List.eq_nil_iff_forall_not_mem]
    intro factor hFactor
    exact hVar (hSolver.coherent.mem_vars.mpr
      ⟨factor, hSolver.coherent.mem_factorsOf.mp hFactor⟩)
  simp [Solver.belief?, Graph.axis?, hNone]

theorem Conforms.currentBeliefs?
    {registry : Registry}
    {solver : Solver α}
    (hSolver : solver.Conforms registry) :
    ∃ beliefs,
      solver.currentBeliefs? = .ok beliefs ∧
        List.Forall₂ (fun var belief =>
          belief.1 = var ∧
            solver.belief? var = .ok (some belief.2))
          solver.graph.vars beliefs := by
  have hEach :
      ∀ vars : List VarId,
        (∀ var ∈ vars, var ∈ solver.graph.vars) →
        ∃ beliefs : List (VarId × Table α),
          (vars.mapM fun var => do
            let belief ← solver.belief? var
            return belief.map fun table => (var, table)) =
              .ok (beliefs.map some) ∧
            List.Forall₂ (fun var belief =>
              belief.1 = var ∧
                solver.belief? var = .ok (some belief.2))
              vars beliefs := by
    intro vars
    induction vars with
    | nil => exact fun _ => ⟨[], rfl, List.Forall₂.nil⟩
    | cons var vars ih =>
        intro hVars
        rcases hSolver.belief? (hVars var (by simp)) with
          ⟨belief, hBelief, _⟩
        rcases ih (fun other hOther =>
            hVars other (by simp [hOther])) with
          ⟨beliefs, hBeliefs, hPairs⟩
        refine ⟨(var, belief) :: beliefs, ?_,
          List.Forall₂.cons ⟨rfl, hBelief⟩ hPairs⟩
        rw [List.mapM_cons, hBeliefs, hBelief]
        rfl
  rcases hEach solver.graph.vars (fun _ hVar => hVar) with
    ⟨beliefs, hBeliefs, hPairs⟩
  refine ⟨beliefs, ?_, hPairs⟩
  unfold Solver.currentBeliefs?
  rw [hBeliefs]
  change Except.ok ((beliefs.map some).filterMap id) = _
  simp

theorem Conforms.varMessage?
    {registry : Registry}
    {solver : Solver α}
    (hSolver : solver.Conforms registry)
    {edge : Edge}
    (hEdge : edge ∈ solver.graph.edges) :
    ∃ message,
      solver.varMessage? edge = .ok message ∧
        registry.Measures edge.var message := by
  rcases hSolver.axis?_of_touches
      (hSolver.coherent.mem_edges.mp hEdge) with
    ⟨axis, hAxis, hKnows, hVar⟩
  rcases hSolver.received? hKnows
      ((solver.graph.factorsOf edge.var).filter
        (· != edge.factor)) with
    ⟨total, hTotal, hScope, _⟩
  refine ⟨total.withScalar .sub total.mean, ?_,
    axis, hKnows, hVar, hScope⟩
  simp only [Solver.varMessage?, hAxis, hTotal]
  rfl

/- The messages to a factor add up on its own scope. -/
theorem Conforms.addEach?_toFactor
    {registry : Registry}
    {solver : Solver α}
    (hSolver : solver.Conforms registry)
    {factor : FactorId}
    {table : Table α}
    (hTable : solver.graph.factor? factor = some table)
    (others : List VarId)
    (hOthers : ∀ other ∈ others, other ∈ table.vars) :
    ∃ total,
      table.addEach? (others.filterMap fun other =>
        solver.messageToFactor? other factor) =
          .ok total ∧
        total.scope = table.scope ∧
        ∀ choice, table.scope.Admits choice →
          total.eval choice =
            ((others.filterMap fun other =>
              solver.messageToFactor? other factor).map
                fun message => message.eval choice).foldl
                  (· + ·) (table.eval choice) := by
  apply Table.addEach?_of_includes
  intro message hMessage
  rcases List.mem_filterMap.mp hMessage with
    ⟨other, hOther, hFound⟩
  rcases Scope.mem_vars_iff.mp (hOthers other hOther) with
    ⟨axis, hAxis, rfl⟩
  have hFits := (hSolver.toFactor_fits _ message hFound).2
  rw [hFits.scope_eq
    (hSolver.factor_sizes factor table hTable axis hAxis)]
  exact Scope.includes_ofAxis.mpr hAxis

/-
  A factor folds the slices of the total that it formed of its
  own table and of what its other variables say.
-/
theorem factorMessage?_of_total
    {solver : Solver α}
    {factor : FactorId}
    {table total : Table α}
    {axis : Axis}
    (hAxis : axis ∈ table.scope.axes)
    (hTotal :
      table.addEach?
        ((table.vars.filter (· != axis.var)).filterMap
          fun other =>
            solver.messageToFactor? other factor) =
        .ok total)
    (hScope : total.scope = table.scope) :
    ∃ message,
      solver.factorMessage? factor table axis.var =
          .ok message ∧
        message.scope = Scope.ofAxis axis ∧
        ∀ value < axis.size,
          foldFirst Scalar.larger
            ((total.places (Scope.ofAxis axis)
              fun _ => value).map total.cell) =
            some (message.cell value) := by
  have hOutput :
      (Table.filled (table.scope.filter (· == axis.var))
        (Scalar.zero : α)).scope = Scope.ofAxis axis :=
    Scope.filter_eq_ofAxis hAxis
  have hIncludes :
      total.scope.includes
        (Table.filled (table.scope.filter (· == axis.var))
          (Scalar.zero : α)).scope = true := by
    rw [hScope, hOutput]
    exact Scope.includes_ofAxis.mpr hAxis
  rcases Table.marginal?_of_includes Scalar.larger
      hIncludes with
    ⟨message, hMessage, hMessageScope, hFold⟩
  rw [hOutput] at hMessageScope hFold
  refine ⟨message, ?_, hMessageScope, ?_⟩
  · simp only [Solver.factorMessage?, hTotal]
    exact hMessage
  · intro value hValue
    rw [hFold (fun _ => value)
        (Scope.admits_ofAxis.mpr hValue),
      Table.eval_ofAxis hMessageScope]

theorem Conforms.factorMessage?
    {registry : Registry}
    {solver : Solver α}
    (hSolver : solver.Conforms registry)
    {factor : FactorId}
    {table : Table α}
    (hTable : solver.graph.factor? factor = some table)
    {var : VarId}
    (hVar : var ∈ table.vars) :
    ∃ message,
      solver.factorMessage? factor table var =
        .ok message ∧
        registry.Measures var message := by
  rcases Scope.mem_vars_iff.mp hVar with
    ⟨axis, hAxis, rfl⟩
  rcases hSolver.addEach?_toFactor hTable
      (table.vars.filter (· != axis.var))
      (fun other hOther => (List.mem_filter.mp hOther).1) with
    ⟨total, hTotal, hScope, _⟩
  rcases factorMessage?_of_total hAxis hTotal hScope with
    ⟨message, hMessage, hMessageScope, _⟩
  exact ⟨message, hMessage, axis,
    hSolver.factor_sizes factor table hTable axis hAxis,
    rfl, hMessageScope⟩

end Solver

end JointMax

------------------------------------------------------------
-- Phases
------------------------------------------------------------

namespace JointMax

namespace Solver

variable {α : Type} [Scalar α]

theorem Conforms.varPhase?
    {registry : Registry}
    {solver : Solver α}
    (hSolver : solver.Conforms registry) :
    ∃ messages : Messages α,
      solver.varPhase? = .ok messages ∧
        ∀ (edge : Edge) (message : Table α),
          messages[edge]? = some message ↔
            edge ∈ solver.graph.edges ∧
              solver.varMessage? edge = .ok message := by
  have hEach : ∀ edge ∈ solver.graph.edges,
      ∃ message, solver.varMessage? edge = .ok message := by
    intro edge hEdge
    rcases hSolver.varMessage? hEdge with
      ⟨message, hMessage, _⟩
    exact ⟨message, hMessage⟩
  rcases exists_mapM_pair (fun edge => edge) hEach with
    ⟨pairs, hPairs, hKeys, hMember⟩
  have hNodup : (pairs.map Prod.fst).Nodup := by
    rw [hKeys, List.map_id']
    exact hSolver.coherent.nodup_edges
  refine ⟨Std.ExtTreeMap.ofList pairs Edge.order, ?_, ?_⟩
  · unfold Solver.varPhase?
    rw [hPairs]
    rfl
  · intro edge message
    rw [getElem?_ofList_iff hNodup, hMember]
    constructor
    · intro hFiled
      rcases hFiled with ⟨other, hEdge, rfl, hMessage⟩
      exact ⟨hEdge, hMessage⟩
    · intro hSent
      exact ⟨edge, hSent.1, rfl, hSent.2⟩

/- The messages of one factor, one for each variable. -/
def factorRow?
    (solver : Solver α)
    (entry : FactorId × Table α) :
    Except Fault (List (Edge × Table α)) :=
  entry.2.vars.mapM fun var => do
    let message ← solver.factorMessage? entry.1 entry.2 var
    return ((⟨entry.1, var⟩ : Edge), message)

theorem Conforms.factorRow?
    {registry : Registry}
    {solver : Solver α}
    (hSolver : solver.Conforms registry)
    {entry : FactorId × Table α}
    (hEntry : entry ∈ solver.graph.factors) :
    ∃ row,
      solver.factorRow? entry = .ok row ∧
        row.map Prod.fst =
          entry.2.vars.map (fun var => ⟨entry.1, var⟩) ∧
        ∀ (edge : Edge) (message : Table α),
          (edge, message) ∈ row ↔
            ∃ var ∈ entry.2.vars,
              ⟨entry.1, var⟩ = edge ∧
                solver.factorMessage? entry.1 entry.2 var =
                  .ok message := by
  have hTable :=
    hSolver.coherent.factor?_eq_some_iff.mpr hEntry
  have hEach : ∀ var ∈ entry.2.vars, ∃ message,
      solver.factorMessage? entry.1 entry.2 var =
        .ok message := by
    intro var hVar
    rcases hSolver.factorMessage? hTable hVar with
      ⟨message, hMessage, _⟩
    exact ⟨message, hMessage⟩
  exact exists_mapM_pair
    (fun var => (⟨entry.1, var⟩ : Edge)) hEach

/- Row by row, the messages of all factors are found. -/
theorem Conforms.factorRows?
    {registry : Registry}
    {solver : Solver α}
    (hSolver : solver.Conforms registry) :
    ∃ rows,
      solver.graph.factors.mapM solver.factorRow? =
          .ok rows ∧
        rows.flatten.map Prod.fst = solver.graph.edges ∧
        ∀ (edge : Edge) (message : Table α),
          (edge, message) ∈ rows.flatten ↔
            ∃ table,
              solver.graph.factor? edge.factor =
                  some table ∧
                edge.var ∈ table.vars ∧
                solver.factorMessage? edge.factor table
                  edge.var = .ok message := by
  have hEach : ∀ entry ∈ solver.graph.factors,
      ∃ row, solver.factorRow? entry = .ok row := by
    intro entry hEntry
    rcases hSolver.factorRow? hEntry with ⟨row, hRow, _⟩
    exact ⟨row, hRow⟩
  rcases exists_mapM hEach with ⟨rows, hRows, hPairs⟩
  have hRow : ∀ entry row,
      (entry, row) ∈ solver.graph.factors.zip rows →
        solver.factorRow? entry = .ok row := by
    intro entry row hZip
    exact (List.forall₂_iff_zip.mp hPairs).2 hZip
  refine ⟨rows, hRows, ?_, ?_⟩
  · rw [List.map_flatten, Graph.edges, List.flatMap]
    apply congrArg List.flatten
    apply map_eq_of_forall₂
    rw [List.forall₂_iff_zip]
    refine ⟨hPairs.length_eq, ?_⟩
    intro entry row hZip
    have hEntry := (List.of_mem_zip hZip).1
    rcases hSolver.factorRow? hEntry with
      ⟨found, hFound, hKeys, _⟩
    rw [hRow entry row hZip] at hFound
    cases hFound
    exact hKeys
  · intro edge message
    rw [List.mem_flatten]
    constructor
    · intro hFiled
      rcases hFiled with ⟨row, hMember, hPair⟩
      rcases exists_of_forall₂_right hPairs hMember with
        ⟨entry, hEntry, hOk⟩
      rcases hSolver.factorRow? hEntry with
        ⟨found, hFound, _, hMessages⟩
      rw [hOk] at hFound
      cases hFound
      rcases (hMessages edge message).mp hPair with
        ⟨var, hVar, rfl, hMessage⟩
      exact ⟨entry.2,
        hSolver.coherent.factor?_eq_some_iff.mpr hEntry,
        hVar, hMessage⟩
    · intro hSent
      rcases hSent with ⟨table, hTable, hVar, hMessage⟩
      have hEntry :=
        hSolver.coherent.factor?_eq_some_iff.mp hTable
      rcases exists_of_forall₂_left hPairs hEntry with
        ⟨row, hMember, hOk⟩
      rcases hSolver.factorRow? hEntry with
        ⟨found, hFound, _, hMessages⟩
      rw [hOk] at hFound
      cases hFound
      exact ⟨row, hMember, (hMessages edge message).mpr
        ⟨edge.var, hVar, rfl, hMessage⟩⟩

theorem Conforms.factorPhase?
    {registry : Registry}
    {solver : Solver α}
    (hSolver : solver.Conforms registry) :
    ∃ messages : Messages α,
      solver.factorPhase? = .ok messages ∧
        ∀ (edge : Edge) (message : Table α),
          messages[edge]? = some message ↔
            ∃ table,
              solver.graph.factor? edge.factor =
                  some table ∧
                edge.var ∈ table.vars ∧
                solver.factorMessage? edge.factor table
                  edge.var = .ok message := by
  rcases hSolver.factorRows? with
    ⟨rows, hRows, hKeys, hMember⟩
  have hNodup : (rows.flatten.map Prod.fst).Nodup := by
    rw [hKeys]
    exact hSolver.coherent.nodup_edges
  refine
    ⟨Std.ExtTreeMap.ofList rows.flatten Edge.order, ?_, ?_⟩
  · unfold Solver.factorPhase?
    change solver.graph.factors.mapM solver.factorRow? >>=
      _ = _
    rw [hRows]
    rfl
  · intro edge message
    rw [getElem?_ofList_iff hNodup, hMember]

/- The beliefs of a sweep, filed under their variables. -/
theorem Conforms.filedBeliefs?
    {registry : Registry}
    {solver : Solver α}
    (hSolver : solver.Conforms registry) :
    ∃ beliefs,
      solver.currentBeliefs? = .ok beliefs ∧
        beliefs.map Prod.fst = solver.graph.vars ∧
        (∀ var belief,
          (Std.ExtTreeMap.ofList beliefs)[var]? =
              some belief ↔
            (var, belief) ∈ beliefs) ∧
        ∀ var belief,
          (var, belief) ∈ beliefs ↔
            solver.belief? var = .ok (some belief) := by
  rcases hSolver.currentBeliefs? with
    ⟨beliefs, hBeliefs, hPairs⟩
  have hKeys :
      beliefs.map Prod.fst = solver.graph.vars := by
    rw [map_eq_of_forall₂ id Prod.fst
      (hPairs.imp fun _ _ hPair => hPair.1), List.map_id]
  have hNodup : (beliefs.map Prod.fst).Nodup := by
    rw [hKeys]
    exact solver.graph.increasing_vars.imp
      fun hLess hEq => UInt32.ne_of_lt hLess hEq
  refine ⟨beliefs, hBeliefs, hKeys, ?_, ?_⟩
  · intro var belief
    exact getElem?_ofList_iff hNodup
  · intro var belief
    constructor
    · intro hMember
      rcases exists_of_forall₂_right hPairs hMember with
        ⟨other, _, hSame, hOk⟩
      dsimp only at hSame
      rw [hSame]
      exact hOk
    · intro hOk
      have hVar : var ∈ solver.graph.vars := by
        by_contra hAbsent
        rw [hSolver.belief?_eq_none hAbsent] at hOk
        cases hOk
      rcases exists_of_forall₂_left hPairs hVar with
        ⟨⟨_, found⟩, hMember, rfl, hFound⟩
      rw [hOk] at hFound
      cases hFound
      exact hMember

end Solver

end JointMax

------------------------------------------------------------
-- Sweeps
------------------------------------------------------------

namespace JointMax

namespace Solver

variable {α : Type} [Scalar α]

/-
  What a sweep leaves behind. Variables answer to the earlier
  messages of factors, and factors to the new messages of
  variables.
-/
structure Swept (solver next : Solver α) : Prop where
  registry_eq : next.registry = solver.registry
  config_eq : next.config = solver.config
  graph_eq : next.graph = solver.graph
  toFactor_iff : ∀ (edge : Edge) (message : Table α),
    next.toFactor[edge]? = some message ↔
      edge ∈ solver.graph.edges ∧
        solver.varMessage? edge = .ok message
  toVar_iff : ∀ (edge : Edge) (message : Table α),
    next.toVar[edge]? = some message ↔
      ∃ table,
        solver.graph.factor? edge.factor = some table ∧
          edge.var ∈ table.vars ∧
          next.factorMessage? edge.factor table edge.var =
            .ok message
  beliefs_iff : ∀ var belief,
    next.beliefs[var]? = some belief ↔
      next.belief? var = .ok (some belief)

/- The change of each belief, and the largest of them. -/
def Moved
    (solver next : Solver α)
    (delta : α) : Prop :=
  ∃ changes,
    List.Forall₂ (fun var change =>
      ∃ belief,
        next.beliefs[var]? = some belief ∧
          solver.change? var belief = .ok change)
      solver.graph.vars changes ∧
    delta = changes.foldl Scalar.larger Scalar.zero

theorem change?_of_none
    {solver : Solver α}
    {var : VarId}
    (hNone : solver.beliefs[var]? = none)
    (belief : Table α) :
    solver.change? var belief = .ok belief.maxNorm := by
  rw [Solver.change?, hNone]

theorem change?_of_some
    {solver : Solver α}
    {var : VarId}
    {belief old : Table α}
    (hOld : solver.beliefs[var]? = some old)
    (hSame : belief.scope = old.scope) :
    solver.change? var belief =
      .ok (Table.zipCells Op.sub.apply belief old
        hSame).maxNorm := by
  rw [Solver.change?, hOld]
  dsimp only
  rw [Table.zipWith?, dif_pos hSame]
  rfl

theorem Conforms.change?
    {registry : Registry}
    {solver : Solver α}
    (hSolver : solver.Conforms registry)
    {var : VarId}
    {belief : Table α}
    (hBelief : registry.Measures var belief) :
    ∃ change, solver.change? var belief = .ok change := by
  cases hOld : solver.beliefs[var]? with
  | none => exact ⟨_, change?_of_none hOld belief⟩
  | some old =>
      have hFits := (hSolver.beliefs_fit var old hOld).2
      exact ⟨_, change?_of_some hOld
        (hBelief.same_scope hFits)⟩

theorem Conforms.withToFactor
    {registry : Registry}
    {solver : Solver α}
    (hSolver : solver.Conforms registry)
    {toFactor : Messages α}
    (hToFactor : ∀ (edge : Edge) (message : Table α),
      toFactor[edge]? = some message →
        edge ∈ solver.graph.edges ∧
          solver.varMessage? edge = .ok message) :
    { solver with toFactor := toFactor }.Conforms registry :=
  { hSolver with
    toFactor_fits := by
      intro edge message hMessage
      rcases hToFactor edge message hMessage with
        ⟨hEdge, hOk⟩
      rcases hSolver.varMessage? hEdge with
        ⟨found, hFound, hFits⟩
      rw [hOk] at hFound
      cases hFound
      exact ⟨hEdge, hFits⟩ }

theorem Conforms.withToVar
    {registry : Registry}
    {solver : Solver α}
    (hSolver : solver.Conforms registry)
    {toVar : Messages α}
    (hToVar : ∀ (edge : Edge) (message : Table α),
      toVar[edge]? = some message → ∃ table,
        solver.graph.factor? edge.factor = some table ∧
          edge.var ∈ table.vars ∧
          solver.factorMessage? edge.factor table edge.var =
            .ok message) :
    { solver with toVar := toVar }.Conforms registry :=
  { hSolver with
    toVar_fits := by
      intro edge message hMessage
      rcases hToVar edge message hMessage with
        ⟨table, hTable, hVar, hOk⟩
      rcases hSolver.factorMessage? hTable hVar with
        ⟨found, hFound, hFits⟩
      rw [hOk] at hFound
      cases hFound
      exact ⟨hSolver.coherent.mem_edges.mpr
        ⟨table, hTable, hVar⟩, hFits⟩ }

theorem Conforms.measures_of_belief?
    {registry : Registry}
    {solver : Solver α}
    (hSolver : solver.Conforms registry)
    {var : VarId}
    {belief : Table α}
    (hBelief : solver.belief? var = .ok (some belief)) :
    var ∈ solver.graph.vars ∧
      registry.Measures var belief := by
  have hVar : var ∈ solver.graph.vars := by
    by_contra hAbsent
    rw [hSolver.belief?_eq_none hAbsent] at hBelief
    cases hBelief
  rcases hSolver.belief? hVar with
    ⟨found, hFound, hMeasures⟩
  rw [hBelief] at hFound
  cases hFound
  exact ⟨hVar, hMeasures⟩

theorem Conforms.withBeliefs
    {registry : Registry}
    {solver : Solver α}
    (hSolver : solver.Conforms registry)
    {beliefs : Std.ExtTreeMap VarId (Table α)}
    (hBeliefs : ∀ var belief,
      beliefs[var]? = some belief →
        solver.belief? var = .ok (some belief)) :
    { solver with beliefs := beliefs }.Conforms registry :=
  { hSolver with
    beliefs_fit := fun var belief hBelief =>
      hSolver.measures_of_belief?
        (hBeliefs var belief hBelief) }

/- The changes of filed beliefs, as a list found them. -/
theorem moved_of_changes
    {solver next : Solver α}
    {beliefs : List (VarId × Table α)}
    {changes : List α}
    (hKeys : beliefs.map Prod.fst = solver.graph.vars)
    (hFiled : ∀ belief ∈ beliefs,
      next.beliefs[belief.1]? = some belief.2)
    (hChanges : List.Forall₂ (fun belief change =>
      solver.change? belief.1 belief.2 = .ok change)
      beliefs changes) :
    solver.Moved next
      (changes.foldl Scalar.larger Scalar.zero) := by
  refine ⟨changes, ?_, rfl⟩
  rw [← hKeys, List.forall₂_map_left_iff]
  rw [List.forall₂_iff_zip] at hChanges ⊢
  refine ⟨hChanges.1, ?_⟩
  intro belief change hPair
  have hListed := (List.of_mem_zip hPair).1
  exact ⟨belief.2, hFiled belief hListed,
    hChanges.2 hPair⟩

/- A sweep succeeds, and what it leaves conforms again. -/
theorem Conforms.sweep?
    {registry : Registry}
    {solver : Solver α}
    (hSolver : solver.Conforms registry) :
    ∃ next delta,
      solver.sweep? = .ok (next, delta) ∧
        next.Conforms registry ∧
        solver.Swept next ∧
        solver.Moved next delta := by
  rcases hSolver.varPhase? with
    ⟨toFactor, hVarPhase, hToFactor⟩
  let sent := { solver with toFactor := toFactor }
  have hSent : sent.Conforms registry :=
    hSolver.withToFactor fun edge message =>
      (hToFactor edge message).mp
  rcases hSent.factorPhase? with
    ⟨toVar, hFactorPhase, hToVar⟩
  let answered := { sent with toVar := toVar }
  have hAnswered : answered.Conforms registry :=
    hSent.withToVar fun edge message =>
      (hToVar edge message).mp
  rcases hAnswered.filedBeliefs? with
    ⟨beliefs, hBeliefs, hKeys, hListed, hMember⟩
  have hEach : ∀ belief ∈ beliefs, ∃ change,
      solver.change? belief.1 belief.2 = .ok change := by
    intro belief hBelief
    have hOk := (hMember belief.1 belief.2).mp hBelief
    exact hSolver.change?
      (hAnswered.measures_of_belief? hOk).2
  rcases exists_mapM hEach with
    ⟨changes, hChanges, hChangePairs⟩
  let next :=
    { answered with
      beliefs := Std.ExtTreeMap.ofList beliefs }
  have hFiled : ∀ var belief,
      next.beliefs[var]? = some belief ↔
        answered.belief? var = .ok (some belief) :=
    fun var belief =>
      (hListed var belief).trans (hMember var belief)
  refine
    ⟨next, changes.foldl Scalar.larger Scalar.zero, ?_,
      hAnswered.withBeliefs fun var belief =>
        (hFiled var belief).mp, ?_, ?_⟩
  · unfold Solver.sweep?
    rw [hVarPhase]
    change sent.factorPhase? >>= _ = _
    rw [hFactorPhase]
    change answered.currentBeliefs? >>= _ = _
    rw [hBeliefs]
    change (beliefs.mapM fun belief =>
      solver.change? belief.1 belief.2) >>= _ = _
    rw [hChanges]
    rfl
  · exact
      { registry_eq := rfl
        config_eq := rfl
        graph_eq := rfl
        toFactor_iff := hToFactor
        toVar_iff := hToVar
        beliefs_iff := hFiled }
  · exact moved_of_changes hKeys
      (fun belief => (hListed belief.1 belief.2).mpr)
      hChangePairs

end Solver

end JointMax
