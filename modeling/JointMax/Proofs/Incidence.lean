import Mathlib
import JointMax.Graph.Basic
import JointMax.Proofs.Numbering

/-
  The incidence that a graph keeps is the one of its factors:
  a variable is listed with exactly the factors that depend
  on it, and is not listed without one. Setting and removing
  factors keep this so.

  Main declarations:
    * `Graph.Touches`, the incidence read off the factors
    * `Graph.Coherent`, kept by `Graph.setFactor` and
      `Graph.removeFactor`
    * `Graph.mem_factorsOf`, `Graph.mem_vars`,
      `Graph.mem_edges`
-/

------------------------------------------------------------
-- Kept Incidence
------------------------------------------------------------

namespace JointMax

namespace Incidence

/- The factor is listed under the variable. -/
def Links
    (incidence : Incidence)
    (factor : FactorId)
    (var : VarId) : Prop :=
  factor ∈ incidence.getD var ∅

/- No variable is listed without a factor. -/
def Occupied (incidence : Incidence) : Prop :=
  ∀ var ∈ incidence, ∃ factor, incidence.Links factor var

theorem mem_of_links
    {incidence : Incidence}
    {factor : FactorId}
    {var : VarId}
    (hLinks : incidence.Links factor var) :
    var ∈ incidence := by
  by_contra hAbsent
  rw [Links, Std.ExtTreeMap.getD_eq_fallback hAbsent]
    at hLinks
  exact Std.ExtTreeSet.not_mem_empty hLinks

theorem links_insert
    {incidence : Incidence}
    {factors : Std.ExtTreeSet FactorId}
    {factor : FactorId}
    {var other : VarId} :
    Links (incidence.insert var factors) factor other ↔
      if var = other then factor ∈ factors
      else incidence.Links factor other := by
  by_cases hVar : var = other
  · simp [Links, hVar]
  · simp [Links, Std.ExtTreeMap.getD_insert, hVar]

theorem links_erase
    {incidence : Incidence}
    {factor : FactorId}
    {var other : VarId} :
    Links (incidence.erase var) factor other ↔
      var ≠ other ∧ incidence.Links factor other := by
  by_cases hVar : var = other
  · simp [Links, hVar]
  · simp [Links, Std.ExtTreeMap.getD_erase, hVar]

theorem links_attach
    {incidence : Incidence}
    {factor other : FactorId}
    {var otherVar : VarId} :
    (incidence.attach factor var).Links other otherVar ↔
      (other = factor ∧ otherVar = var) ∨
        incidence.Links other otherVar := by
  unfold attach
  rw [links_insert]
  by_cases hVar : var = otherVar
  · subst hVar
    rw [if_pos rfl, Std.ExtTreeSet.mem_insert,
      Std.compare_eq_iff_eq]
    simp [Links, eq_comm]
  · rw [if_neg hVar]
    simp [Ne.symm hVar]

theorem occupied_attach
    {incidence : Incidence}
    {factor : FactorId}
    {var : VarId}
    (hOccupied : incidence.Occupied) :
    (incidence.attach factor var).Occupied := by
  intro other hOther
  rw [attach, Std.ExtTreeMap.mem_insert,
    Std.compare_eq_iff_eq] at hOther
  rcases hOther with rfl | hOther
  · exact ⟨factor, links_attach.mpr (.inl ⟨rfl, rfl⟩)⟩
  · rcases hOccupied other hOther with ⟨found, hFound⟩
    exact ⟨found, links_attach.mpr (.inr hFound)⟩

theorem links_detach
    {incidence : Incidence}
    {factor other : FactorId}
    {var otherVar : VarId} :
    (incidence.detach factor var).Links other otherVar ↔
      incidence.Links other otherVar ∧
        ¬ (other = factor ∧ otherVar = var) := by
  unfold detach
  cases hFactors : incidence[var]? with
  | none =>
      have hAbsent : var ∉ incidence := by
        rw [Std.ExtTreeMap.mem_iff_isSome_getElem?,
          hFactors]
        simp
      constructor
      · intro hLinks
        refine ⟨hLinks, ?_⟩
        rintro ⟨rfl, rfl⟩
        exact hAbsent (mem_of_links hLinks)
      · exact And.left
  | some factors =>
      have hKept :
          incidence.Links other var ↔ other ∈ factors := by
        unfold Links
        rw [Std.ExtTreeMap.getD_eq_getD_getElem?,
          hFactors]
        rfl
      have hErased :
          other ∈ factors.erase factor ↔
            other ∈ factors ∧ ¬ other = factor := by
        rw [Std.ExtTreeSet.mem_erase, ne_eq,
          Std.compare_eq_iff_eq, eq_comm, and_comm]
      dsimp only
      split
      · rename_i hEmpty
        rw [links_erase]
        by_cases hVar : var = otherVar
        · subst hVar
          rw [Std.ExtTreeSet.isEmpty_iff.mp hEmpty]
            at hErased
          rw [hKept]
          simpa using hErased
        · simp [hVar, Ne.symm hVar]
      · rw [links_insert]
        by_cases hVar : var = otherVar
        · subst hVar
          rw [if_pos rfl, hKept, hErased]
          simp
        · rw [if_neg hVar]
          simp [Ne.symm hVar]

theorem occupied_detach
    {incidence : Incidence}
    {factor : FactorId}
    {var : VarId}
    (hOccupied : incidence.Occupied) :
    (incidence.detach factor var).Occupied := by
  unfold detach
  cases hFactors : incidence[var]? with
  | none => exact hOccupied
  | some factors =>
      dsimp only
      split
      · intro other hOther
        rw [Std.ExtTreeMap.mem_erase, ne_eq,
          Std.compare_eq_iff_eq] at hOther
        rcases hOccupied other hOther.2 with
          ⟨found, hFound⟩
        exact ⟨found, links_erase.mpr ⟨hOther.1, hFound⟩⟩
      · rename_i hNotEmpty
        intro other hOther
        rw [Std.ExtTreeMap.mem_insert,
          Std.compare_eq_iff_eq] at hOther
        by_cases hVar : var = other
        · subst hVar
          have hSome : factors.erase factor ≠ ∅ := by
            simpa using hNotEmpty
          rw [ne_eq,
            Std.ExtTreeSet.eq_empty_iff_forall_not_mem]
            at hSome
          push Not at hSome
          rcases hSome with ⟨found, hFound⟩
          exact ⟨found, links_insert.mpr (by
            rwa [if_pos rfl])⟩
        · rcases hOccupied other
              (hOther.resolve_left hVar) with
            ⟨found, hFound⟩
          exact ⟨found, links_insert.mpr (by simpa [hVar])⟩

theorem links_foldl_attach
    {incidence : Incidence}
    {factor other : FactorId}
    {vars : List VarId}
    {var : VarId} :
    (vars.foldl (attach · factor) incidence).Links
        other var ↔
      (other = factor ∧ var ∈ vars) ∨
        incidence.Links other var := by
  induction vars generalizing incidence with
  | nil => simp
  | cons head tail ih =>
      rw [List.foldl_cons, ih, links_attach,
        List.mem_cons]
      tauto

theorem links_foldl_detach
    {incidence : Incidence}
    {factor other : FactorId}
    {vars : List VarId}
    {var : VarId} :
    (vars.foldl (detach · factor) incidence).Links
        other var ↔
      incidence.Links other var ∧
        ¬ (other = factor ∧ var ∈ vars) := by
  induction vars generalizing incidence with
  | nil => simp
  | cons head tail ih =>
      rw [List.foldl_cons, ih, links_detach,
        List.mem_cons]
      tauto

theorem occupied_foldl_attach
    {incidence : Incidence}
    {factor : FactorId}
    {vars : List VarId}
    (hOccupied : incidence.Occupied) :
    (vars.foldl (attach · factor) incidence).Occupied := by
  induction vars generalizing incidence with
  | nil => exact hOccupied
  | cons head tail ih => exact ih (occupied_attach hOccupied)

theorem occupied_foldl_detach
    {incidence : Incidence}
    {factor : FactorId}
    {vars : List VarId}
    (hOccupied : incidence.Occupied) :
    (vars.foldl (detach · factor) incidence).Occupied := by
  induction vars generalizing incidence with
  | nil => exact hOccupied
  | cons head tail ih => exact ih (occupied_detach hOccupied)

end Incidence

end JointMax

------------------------------------------------------------
-- Factors under Their Ids
------------------------------------------------------------

namespace JointMax

namespace Graph

variable {α : Type}

/- The first entry is found under its id and no other. -/
theorem lookup_cons_eq_ite
    {factor id : FactorId}
    {table : Table α}
    {factors : List (FactorId × Table α)} :
    ((id, table) :: factors).lookup factor =
      if factor = id then some table
      else factors.lookup factor := by
  by_cases hId : factor = id
  · simp [hId]
  · rw [if_neg hId, List.lookup_cons,
      beq_false_of_ne hId]

theorem lookup_putFactor
    {factor other : FactorId}
    {table : Table α}
    {factors : List (FactorId × Table α)} :
    (putFactor factor table factors).lookup other =
      if other = factor then some table
      else factors.lookup other := by
  induction factors with
  | nil => exact lookup_cons_eq_ite
  | cons entry entries ih =>
      rcases entry with ⟨id, old⟩
      simp only [putFactor, lookup_cons_eq_ite]
      by_cases hId : id = factor
      · subst hId
        rw [if_pos rfl, lookup_cons_eq_ite]
        by_cases hOther : other = id <;> simp [hOther]
      · rw [if_neg hId, lookup_cons_eq_ite, ih]
        by_cases hOther : other = id
        · subst hOther
          simp [hId]
        · simp [hOther]

theorem mem_ids_putFactor
    {factor other : FactorId}
    {table : Table α}
    {factors : List (FactorId × Table α)} :
    other ∈ (putFactor factor table factors).map Prod.fst ↔
      other = factor ∨ other ∈ factors.map Prod.fst := by
  induction factors with
  | nil => simp [putFactor]
  | cons entry entries ih =>
      simp only [putFactor]
      split
      · rename_i hId
        simp [hId]
      · rw [List.map_cons, List.mem_cons, ih,
          List.map_cons, List.mem_cons]
        tauto

theorem nodup_putFactor
    {factor : FactorId}
    {table : Table α}
    {factors : List (FactorId × Table α)}
    (hNodup : (factors.map Prod.fst).Nodup) :
    ((putFactor factor table factors).map
      Prod.fst).Nodup := by
  induction factors with
  | nil => simp [putFactor]
  | cons entry entries ih =>
      rcases List.nodup_cons.mp hNodup with
        ⟨hFresh, hRest⟩
      simp only [putFactor]
      split
      · rename_i hId
        simpa [hId] using hNodup
      · rename_i hId
        refine List.nodup_cons.mpr ⟨?_, ih hRest⟩
        rw [mem_ids_putFactor]
        rintro (hEq | hMember)
        · exact hId hEq
        · exact hFresh hMember

theorem lookup_filter_ne
    {factor other : FactorId}
    {factors : List (FactorId × Table α)} :
    (factors.filter fun entry =>
        entry.1 != factor).lookup other =
      if other = factor then none
      else factors.lookup other := by
  induction factors with
  | nil => simp
  | cons entry entries ih =>
      rcases entry with ⟨id, table⟩
      rw [lookup_cons_eq_ite]
      by_cases hId : id = factor
      · subst hId
        rw [List.filter_cons_of_neg (by simp), ih]
        by_cases hOther : other = id <;> simp [hOther]
      · rw [List.filter_cons_of_pos (by simpa using hId),
          lookup_cons_eq_ite, ih]
        by_cases hOther : other = id
        · subst hOther
          simp [hId]
        · simp [hOther]

theorem lookup_eq_some_iff
    {factor : FactorId}
    {table : Table α}
    {factors : List (FactorId × Table α)}
    (hNodup : (factors.map Prod.fst).Nodup) :
    factors.lookup factor = some table ↔
      (factor, table) ∈ factors := by
  induction factors with
  | nil => simp
  | cons entry entries ih =>
      rcases entry with ⟨id, first⟩
      rcases List.nodup_cons.mp hNodup with
        ⟨hFresh, hRest⟩
      rw [lookup_cons_eq_ite]
      by_cases hId : factor = id
      · subst hId
        have hAbsent : (factor, table) ∉ entries := by
          intro hMember
          exact hFresh
            (List.mem_map.mpr ⟨_, hMember, rfl⟩)
        simp [hAbsent, eq_comm]
      · simp [ih hRest, hId]

end Graph

end JointMax

------------------------------------------------------------
-- Coherent Graphs
------------------------------------------------------------

namespace JointMax

namespace Graph

variable {α : Type}

/- The factor depends on the variable. -/
def Touches
    (graph : Graph α)
    (factor : FactorId)
    (var : VarId) : Prop :=
  ∃ table,
    graph.factor? factor = some table ∧ var ∈ table.vars

/-
  Every id is used once, and the incidence lists under each
  variable the factors that depend on it, and no others.
-/
structure Coherent (graph : Graph α) : Prop where
  nodup : (graph.factors.map Prod.fst).Nodup
  links_iff : ∀ factor var,
    graph.incidence.Links factor var ↔
      graph.Touches factor var
  occupied : graph.incidence.Occupied

theorem coherent_empty :
    (empty : Graph α).Coherent where
  nodup := List.nodup_nil
  links_iff := by
    intro factor var
    simp [Incidence.Links, Touches, empty, factor?]
  occupied := by
    intro var hVar
    simp [empty] at hVar

theorem factor?_setFactor
    {graph : Graph α}
    {factor other : FactorId}
    {table : Table α} :
    (graph.setFactor factor table).factor? other =
      if other = factor then some table
      else graph.factor? other :=
  lookup_putFactor

theorem factor?_removeFactor
    {graph : Graph α}
    {factor other : FactorId} :
    (graph.removeFactor factor).factor? other =
      if other = factor then none
      else graph.factor? other := by
  unfold removeFactor
  cases hOld : graph.factor? factor with
  | none =>
      by_cases hOther : other = factor
      · simp [hOther, hOld]
      · simp [hOther]
  | some old => exact lookup_filter_ne

theorem Coherent.setFactor
    {graph : Graph α}
    (hGraph : graph.Coherent)
    (factor : FactorId)
    (table : Table α) :
    (graph.setFactor factor table).Coherent where
  nodup := nodup_putFactor hGraph.nodup
  links_iff := by
    intro other var
    have hTouches :
        (graph.setFactor factor table).Touches other var ↔
          (other = factor ∧ var ∈ table.vars) ∨
            (other ≠ factor ∧ graph.Touches other var) := by
      unfold Touches
      rw [factor?_setFactor]
      by_cases hOther : other = factor <;> simp [hOther]
    rw [hTouches]
    unfold Graph.setFactor
    simp only [Incidence.links_foldl_detach,
      Incidence.links_foldl_attach, hGraph.links_iff]
    -- Only the links of the factor itself can change.
    by_cases hOther : other = factor
    · subst hOther
      cases hOld : graph.factor? other with
      | none => simp [Touches, hOld]
      | some old =>
          simp [Touches, hOld, Table.dependsOn,
            Scope.contains, Table.vars]
          tauto
    · simp [hOther]
  occupied :=
    Incidence.occupied_foldl_detach
      (Incidence.occupied_foldl_attach hGraph.occupied)

theorem Coherent.removeFactor
    {graph : Graph α}
    (hGraph : graph.Coherent)
    (factor : FactorId) :
    (graph.removeFactor factor).Coherent := by
  cases hOld : graph.factor? factor with
  | none =>
      have hSame : graph.removeFactor factor = graph := by
        simp [Graph.removeFactor, hOld]
      rw [hSame]
      exact hGraph
  | some old =>
      refine
        { nodup := ?_
          links_iff := ?_
          occupied := ?_ }
      · simp only [Graph.removeFactor, hOld]
        exact hGraph.nodup.sublist
          (List.filter_sublist.map Prod.fst)
      · intro other var
        have hTouches :
            (graph.removeFactor factor).Touches other var ↔
              other ≠ factor ∧ graph.Touches other var := by
          unfold Touches
          rw [factor?_removeFactor]
          by_cases hOther : other = factor <;>
            simp [hOther]
        rw [hTouches]
        simp only [Graph.removeFactor, hOld,
          Incidence.links_foldl_detach, hGraph.links_iff]
        by_cases hOther : other = factor
        · subst hOther
          simp [Touches, hOld]
        · simp [hOther]
      · simp only [Graph.removeFactor, hOld]
        exact Incidence.occupied_foldl_detach
          hGraph.occupied

end Graph

end JointMax

------------------------------------------------------------
-- Queries of Coherent Graphs
------------------------------------------------------------

namespace JointMax

namespace Graph

variable {α : Type}

theorem Coherent.factor?_eq_some_iff
    {graph : Graph α}
    (hGraph : graph.Coherent)
    {factor : FactorId}
    {table : Table α} :
    graph.factor? factor = some table ↔
      (factor, table) ∈ graph.factors :=
  lookup_eq_some_iff hGraph.nodup

theorem Coherent.mem_factorsOf
    {graph : Graph α}
    (hGraph : graph.Coherent)
    {factor : FactorId}
    {var : VarId} :
    factor ∈ graph.factorsOf var ↔
      graph.Touches factor var := by
  unfold factorsOf
  rw [Std.ExtTreeSet.mem_toList]
  exact hGraph.links_iff factor var

theorem Coherent.mem_vars
    {graph : Graph α}
    (hGraph : graph.Coherent)
    {var : VarId} :
    var ∈ graph.vars ↔
      ∃ factor, graph.Touches factor var := by
  unfold vars
  rw [Std.ExtTreeMap.mem_keys]
  constructor
  · intro hVar
    rcases hGraph.occupied var hVar with ⟨factor, hLinks⟩
    exact ⟨factor, (hGraph.links_iff factor var).mp hLinks⟩
  · rintro ⟨factor, hTouches⟩
    exact Incidence.mem_of_links
      ((hGraph.links_iff factor var).mpr hTouches)

theorem Coherent.mem_edges
    {graph : Graph α}
    (hGraph : graph.Coherent)
    {edge : Edge} :
    edge ∈ graph.edges ↔
      graph.Touches edge.factor edge.var := by
  rcases edge with ⟨factor, var⟩
  simp only [edges, List.mem_flatMap, List.mem_map,
    Edge.mk.injEq, Touches, hGraph.factor?_eq_some_iff]
  constructor
  · rintro ⟨⟨id, table⟩, hEntry, other, hOther, rfl, rfl⟩
    exact ⟨table, hEntry, hOther⟩
  · rintro ⟨table, hEntry, hVar⟩
    exact ⟨(factor, table), hEntry, var, hVar, rfl, rfl⟩

theorem containsVar_iff
    {graph : Graph α}
    {var : VarId} :
    graph.containsVar var = true ↔ var ∈ graph.vars := by
  unfold containsVar
  rw [vars, Std.ExtTreeMap.mem_keys]
  exact Std.ExtTreeMap.mem_iff_contains.symm

/- Variables are listed in increasing order. -/
theorem increasing_vars (graph : Graph α) :
    Increasing graph.vars := by
  rw [vars]
  apply Std.ExtTreeMap.ordered_keys.imp
  intro first second hOrder
  exact Std.compare_eq_lt.mp hOrder

/- So are the factors of a variable. -/
theorem increasing_factorsOf
    (graph : Graph α)
    (var : VarId) :
    Increasing (graph.factorsOf var) := by
  rw [factorsOf]
  apply Std.ExtTreeSet.ordered_toList.imp
  intro first second hOrder
  exact Std.compare_eq_lt.mp hOrder

theorem nodup_factorsOf
    (graph : Graph α)
    (var : VarId) :
    (graph.factorsOf var).Nodup :=
  (graph.increasing_factorsOf var).imp UInt32.ne_of_lt

/-
  The size of a variable is read off the least factor that
  depends on it, and that factor is there and has a size.
-/
theorem Coherent.axis?_of_touches
    {graph : Graph α}
    (hGraph : graph.Coherent)
    {factor : FactorId}
    {var : VarId}
    (hTouches : graph.Touches factor var) :
    ∃ least others table axis,
      graph.factorsOf var = least :: others ∧
        graph.factor? least = some table ∧
        axis ∈ table.scope.axes ∧ axis.var = var ∧
        graph.axis? var = some axis := by
  have hMember : factor ∈ graph.factorsOf var :=
    hGraph.mem_factorsOf.mpr hTouches
  cases hFactors : graph.factorsOf var with
  | nil => simp [hFactors] at hMember
  | cons least others =>
      have hLeast : least ∈ graph.factorsOf var := by
        simp [hFactors]
      rcases hGraph.mem_factorsOf.mp hLeast with
        ⟨table, hTable, hVar⟩
      rcases Scope.mem_vars_iff.mp hVar with
        ⟨axis, hAxis, hAxisVar⟩
      refine ⟨least, others, table, axis, rfl, hTable,
        hAxis, hAxisVar, ?_⟩
      unfold axis?
      rw [hFactors]
      simp only [hTable]
      exact Scope.axis?_eq_some_iff.mpr ⟨hAxis, hAxisVar⟩

/- Each edge is listed once. -/
theorem Coherent.nodup_edges
    {graph : Graph α}
    (hGraph : graph.Coherent) :
    graph.edges.Nodup := by
  unfold edges
  rw [List.nodup_flatMap]
  constructor
  · intro entry _
    exact entry.2.scope.nodup_vars.map fun _ _ hEq => by
      simpa using hEq
  · have hIds :
        graph.factors.Pairwise fun left right =>
          left.1 ≠ right.1 :=
      List.pairwise_map.mp hGraph.nodup
    apply hIds.imp
    intro left right hNe edge hLeft hRight
    rcases List.mem_map.mp hLeft with ⟨_, _, rfl⟩
    rcases List.mem_map.mp hRight with ⟨_, _, hEq⟩
    exact hNe (Edge.mk.inj hEq).1.symm

end Graph

end JointMax
