import Mathlib
import JointMax.Proofs.Incidence
import JointMax.Wire.Values

/-
  Histories of factor graphs. Factors are set, replaced and
  removed, a graph is cleared, or it is read from bytes, which
  rebuilds the incidence from the factors. Through all of this
  every query describes one incidence relation, the one that
  the current factors have, and the factors keep their order.

  Main declarations:
    * `Graph.Change` and `Graph.afterAll`
    * `Graph.Consistent` and `Graph.Orderly`
    * `Graph.consistent_afterAll`
-/

------------------------------------------------------------
-- Changes
------------------------------------------------------------

namespace JointMax

namespace Graph

variable {α : Type}

/-
  What may happen to a graph. It is decoded from any bytes,
  or reloaded from its own.
-/
inductive Change (α : Type) where
  | setFactor (factor : FactorId) (table : Table α)
  | removeFactor (factor : FactorId)
  | clear
  | decode (bytes : Bytes)
  | reload

variable [Binary64 α]

/- The graph that bytes hold; refused bytes change nothing. -/
def decode (graph : Graph α) (bytes : Bytes) : Graph α :=
  match (read : Reader (Graph α)).run bytes with
  | .ok (decoded, _) => decoded
  | .error _ => graph

def after (graph : Graph α) : Change α → Graph α
  | .setFactor factor table => graph.setFactor factor table
  | .removeFactor factor => graph.removeFactor factor
  | .clear => empty
  | .decode bytes => graph.decode bytes
  | .reload => graph.decode graph.toBytes

def afterAll
    (graph : Graph α)
    (changes : List (Change α)) : Graph α :=
  changes.foldl after graph

end Graph

end JointMax

------------------------------------------------------------
-- Coherence through Histories
------------------------------------------------------------

namespace JointMax

namespace Graph

variable {α : Type}

theorem Coherent.setFactors
    {graph : Graph α}
    (hGraph : graph.Coherent)
    (factors : List (FactorId × Table α)) :
    (factors.foldl (fun graph entry =>
      graph.setFactor entry.1 entry.2) graph).Coherent := by
  induction factors generalizing graph with
  | nil => exact hGraph
  | cons entry entries ih =>
      exact ih (hGraph.setFactor entry.1 entry.2)

theorem coherent_ofFactors
    (factors : List (FactorId × Table α)) :
    (ofFactors factors).Coherent :=
  coherent_empty.setFactors factors

variable [Binary64 α]

/- A graph that was read has had its factors inserted. -/
theorem exists_ofFactors_of_read
    {bytes rest : Bytes}
    {graph : Graph α}
    (hRead :
      (read : Reader (Graph α)).run bytes =
        .ok (graph, rest)) :
    ∃ factors, graph = ofFactors factors := by
  unfold read at hRead
  rw [StateT.run_bind] at hRead
  cases hFactors :
      (Wire.readList
        (readFactor (α := α))).run bytes with
  | error fault =>
      rw [hFactors] at hRead
      cases hRead
  | ok found =>
      rw [hFactors] at hRead
      cases hRead
      exact ⟨found.1, rfl⟩

theorem Coherent.decode
    {graph : Graph α}
    (hGraph : graph.Coherent)
    (bytes : Bytes) :
    (graph.decode bytes).Coherent := by
  unfold Graph.decode
  split
  · rename_i decoded rest hRead
    rcases exists_ofFactors_of_read hRead with
      ⟨factors, rfl⟩
    exact coherent_ofFactors factors
  · exact hGraph

theorem Coherent.after
    {graph : Graph α}
    (hGraph : graph.Coherent)
    (change : Change α) :
    (graph.after change).Coherent := by
  cases change with
  | setFactor factor table =>
      exact hGraph.setFactor factor table
  | removeFactor factor => exact hGraph.removeFactor factor
  | clear => exact coherent_empty
  | decode bytes => exact hGraph.decode bytes
  | reload => exact hGraph.decode graph.toBytes

theorem Coherent.afterAll
    {graph : Graph α}
    (hGraph : graph.Coherent)
    (changes : List (Change α)) :
    (graph.afterAll changes).Coherent := by
  induction changes generalizing graph with
  | nil => exact hGraph
  | cons change changes ih => exact ih (hGraph.after change)

end Graph

end JointMax

------------------------------------------------------------
-- One Incidence Relation
------------------------------------------------------------

namespace JointMax

namespace Graph

variable {α : Type}

/-
  Everything that a graph is asked describes one relation:
  which factor depends on which variable. The size of a
  variable is looked up at the least of its factors, and what
  is looked up there is never missing.
-/
structure Consistent (graph : Graph α) : Prop where
  ids : (graph.factors.map Prod.fst).Nodup
  touches : ∀ factor var,
    graph.Touches factor var ↔
      ∃ table,
        (factor, table) ∈ graph.factors ∧ var ∈ table.vars
  listed : ∀ var,
    var ∈ graph.incidence ↔
      ∃ factor, graph.Touches factor var
  linked : ∀ var factors,
    graph.incidence[var]? = some factors →
      factors ≠ ∅ ∧
        ∀ factor,
          factor ∈ factors ↔ graph.Touches factor var
  vars : ∀ var,
    var ∈ graph.vars ↔ ∃ factor, graph.Touches factor var
  vars_increasing : Increasing graph.vars
  varCount : graph.varCount = graph.vars.length
  containsVar : ∀ var,
    graph.containsVar var = true ↔
      ∃ factor, graph.Touches factor var
  factorsOf : ∀ factor var,
    factor ∈ graph.factorsOf var ↔ graph.Touches factor var
  factorsOf_increasing : ∀ var,
    Increasing (graph.factorsOf var)
  edges : ∀ edge,
    edge ∈ graph.edges ↔
      graph.Touches edge.factor edge.var
  edges_nodup : graph.edges.Nodup
  scopeOf : ∀ factor var,
    (∃ vars,
      graph.scopeOf? factor = some vars ∧ var ∈ vars) ↔
        graph.Touches factor var
  varSize : ∀ var,
    (graph.varSize? var).isSome ↔
      ∃ factor, graph.Touches factor var
  least : ∀ var factor others,
    graph.factorsOf var = factor :: others →
      ∃ table axis,
        graph.factor? factor = some table ∧
          axis ∈ table.scope.axes ∧ axis.var = var ∧
          graph.varSize? var = some axis.size

/- A listed variable has some factor. -/
theorem Coherent.exists_touches
    {graph : Graph α}
    (hGraph : graph.Coherent)
    {var : VarId}
    {factors : Std.ExtTreeSet FactorId}
    (hFactors : graph.incidence[var]? = some factors) :
    ∃ factor, graph.Touches factor var := by
  apply hGraph.mem_vars.mp
  unfold vars
  rw [Std.ExtTreeMap.mem_keys,
    Std.ExtTreeMap.mem_iff_isSome_getElem?, hFactors]
  rfl

theorem Coherent.linked
    {graph : Graph α}
    (hGraph : graph.Coherent)
    {var : VarId}
    {factors : Std.ExtTreeSet FactorId}
    (hFactors : graph.incidence[var]? = some factors) :
    factors ≠ ∅ ∧
      ∀ factor,
        factor ∈ factors ↔ graph.Touches factor var := by
  have hMember : ∀ factor,
      factor ∈ factors ↔ graph.Touches factor var := by
    intro factor
    rw [← hGraph.links_iff, Incidence.Links,
      Std.ExtTreeMap.getD_eq_getD_getElem?, hFactors]
    rfl
  refine ⟨?_, hMember⟩
  intro hEmpty
  rcases hGraph.exists_touches hFactors with
    ⟨factor, hTouches⟩
  have hFound := (hMember factor).mpr hTouches
  rw [hEmpty] at hFound
  exact Std.ExtTreeSet.not_mem_empty hFound

theorem mem_scopeOf?_iff
    {graph : Graph α}
    {factor : FactorId}
    {var : VarId} :
    (∃ vars,
      graph.scopeOf? factor = some vars ∧ var ∈ vars) ↔
        graph.Touches factor var := by
  unfold scopeOf? Touches
  constructor
  · rintro ⟨vars, hScope, hVar⟩
    rcases Option.map_eq_some_iff.mp hScope with
      ⟨table, hTable, rfl⟩
    exact ⟨table, hTable, hVar⟩
  · rintro ⟨table, hTable, hVar⟩
    exact ⟨table.vars, by rw [hTable]; rfl, hVar⟩

/- A size is known exactly of the graph's variables. -/
theorem Coherent.isSome_varSize?
    {graph : Graph α}
    (hGraph : graph.Coherent)
    {var : VarId} :
    (graph.varSize? var).isSome ↔
      ∃ factor, graph.Touches factor var := by
  constructor
  · intro hSize
    cases hFactors : graph.factorsOf var with
    | nil =>
        simp [varSize?, axis?, hFactors] at hSize
    | cons least others =>
        exact ⟨least, hGraph.mem_factorsOf.mp
          (by simp [hFactors])⟩
  · rintro ⟨factor, hTouches⟩
    rcases hGraph.axis?_of_touches hTouches with
      ⟨_, _, _, axis, _, _, _, _, hAxis⟩
    simp [varSize?, hAxis]

theorem Coherent.least
    {graph : Graph α}
    (hGraph : graph.Coherent)
    {var : VarId}
    {factor : FactorId}
    {others : List FactorId}
    (hFactors : graph.factorsOf var = factor :: others) :
    ∃ table axis,
      graph.factor? factor = some table ∧
        axis ∈ table.scope.axes ∧ axis.var = var ∧
        graph.varSize? var = some axis.size := by
  have hTouches : graph.Touches factor var :=
    hGraph.mem_factorsOf.mp (by simp [hFactors])
  rcases hGraph.axis?_of_touches hTouches with
    ⟨least, _, table, axis, hLeast, hTable, hAxis, hVar,
      hFound⟩
  rw [hFactors] at hLeast
  cases hLeast
  exact ⟨table, axis, hTable, hAxis, hVar,
    by simp [varSize?, hFound]⟩

theorem Coherent.consistent
    {graph : Graph α}
    (hGraph : graph.Coherent) :
    graph.Consistent where
  ids := hGraph.nodup
  touches := by
    intro factor var
    simp only [Touches, hGraph.factor?_eq_some_iff]
  listed := by
    intro var
    rw [← hGraph.mem_vars, vars, Std.ExtTreeMap.mem_keys]
  linked := fun _ _ hFactors => hGraph.linked hFactors
  vars := fun _ => hGraph.mem_vars
  vars_increasing := graph.increasing_vars
  varCount := Std.ExtTreeMap.length_keys.symm
  containsVar := fun _ =>
    containsVar_iff.trans hGraph.mem_vars
  factorsOf := fun _ _ => hGraph.mem_factorsOf
  factorsOf_increasing := graph.increasing_factorsOf
  edges := fun _ => hGraph.mem_edges
  edges_nodup := hGraph.nodup_edges
  scopeOf := fun _ _ => mem_scopeOf?_iff
  varSize := fun _ => hGraph.isSome_varSize?
  least := fun _ _ _ hFactors => hGraph.least hFactors

end Graph

end JointMax

------------------------------------------------------------
-- Order of the Factors
------------------------------------------------------------

namespace JointMax

namespace Graph

variable {α : Type}

theorem putFactor_of_lookup_eq_none
    {factor : FactorId}
    {table : Table α}
    {factors : List (FactorId × Table α)}
    (hFresh : factors.lookup factor = none) :
    putFactor factor table factors =
      factors ++ [(factor, table)] := by
  induction factors with
  | nil => rfl
  | cons entry entries ih =>
      rcases entry with ⟨id, old⟩
      rw [lookup_cons_eq_ite] at hFresh
      split at hFresh
      · cases hFresh
      · rename_i hId
        simp only [putFactor, if_neg (Ne.symm hId),
          ih hFresh, List.cons_append]

/- The entry of a used id is replaced where it stands. -/
theorem putFactor_of_lookup_eq_some
    {factor : FactorId}
    {table old : Table α}
    {factors : List (FactorId × Table α)}
    (hNodup : (factors.map Prod.fst).Nodup)
    (hOld : factors.lookup factor = some old) :
    putFactor factor table factors =
      factors.map fun entry =>
        if entry.1 = factor then (factor, table)
        else entry := by
  induction factors with
  | nil => simp at hOld
  | cons entry entries ih =>
      rcases entry with ⟨id, first⟩
      rcases List.nodup_cons.mp hNodup with
        ⟨hFresh, hRest⟩
      by_cases hId : id = factor
      · subst hId
        -- No later entry has the id, so the others stay.
        have hOthers :
            (entries.map fun entry =>
              if entry.1 = id then (id, table)
              else entry) = entries := by
          conv_rhs => rw [← List.map_id entries]
          apply List.map_congr_left
          intro other hOther
          have hNe : other.1 ≠ id := by
            intro hSame
            exact hFresh
              (List.mem_map.mpr ⟨other, hOther, hSame⟩)
          simp [hNe]
        simp only [putFactor, List.map_cons, if_pos,
          hOthers]
      · rw [lookup_cons_eq_ite, if_neg (Ne.symm hId)]
          at hOld
        simp only [putFactor, if_neg hId, List.map_cons,
          ih hRest hOld]

/-
  A replaced factor keeps its place, a new one comes last,
  and the others keep their order when one is removed.
-/
structure Orderly (graph : Graph α) : Prop where
  replaced : ∀ factor table old,
    graph.factor? factor = some old →
      (graph.setFactor factor table).factors =
        graph.factors.map fun entry =>
          if entry.1 = factor then (factor, table)
          else entry
  appended : ∀ factor table,
    graph.factor? factor = none →
      (graph.setFactor factor table).factors =
        graph.factors ++ [(factor, table)]
  removed : ∀ factor,
    (graph.removeFactor factor).factors =
      graph.factors.filter fun entry =>
        entry.1 != factor

theorem factors_removeFactor
    {graph : Graph α}
    {factor : FactorId} :
    (graph.removeFactor factor).factors =
      graph.factors.filter fun entry =>
        entry.1 != factor := by
  unfold removeFactor
  cases hOld : graph.factor? factor with
  | none =>
      symm
      apply List.filter_eq_self.mpr
      intro entry hEntry
      have hNe :=
        List.lookup_eq_none_iff.mp hOld entry hEntry
      exact bne_iff_ne.mpr (Ne.symm (bne_iff_ne.mp hNe))
  | some old => rfl

theorem Coherent.orderly
    {graph : Graph α}
    (hGraph : graph.Coherent) :
    graph.Orderly where
  replaced := fun _ _ _ hOld =>
    putFactor_of_lookup_eq_some hGraph.nodup hOld
  appended := fun _ _ hFresh =>
    putFactor_of_lookup_eq_none hFresh
  removed := fun _ => factors_removeFactor

/-
  After every history of changes, the queries describe the
  incidence of the current factors, and the next change of a
  factor keeps the order of the others.
-/
theorem consistent_afterAll
    [Binary64 α]
    (changes : List (Change α)) :
    ((empty : Graph α).afterAll changes).Consistent ∧
      ((empty : Graph α).afterAll changes).Orderly := by
  have hGraph : ((empty : Graph α).afterAll
      changes).Coherent :=
    coherent_empty.afterAll changes
  exact ⟨hGraph.consistent, hGraph.orderly⟩

/- The bytes of a graph are read, not refused. -/
example :
    let table : Table DoubleBits :=
      Table.filled (Scope.ofAxis ⟨3, 2, by decide⟩) ⟨5⟩
    (empty.afterAll
      [.decode (empty.setFactor 7 table).toBytes]).factors =
        [(7, table)] := by
  decide +kernel

end Graph

end JointMax
