import Mathlib
import JointMax.Proofs.Incidence

/-
  Graphs without a cycle. A walk that never turns back visits
  no factor twice, so it ends; seen from any variable, factors
  can be removed one by one so that each shares at most one
  variable with what is left.

  Main declarations:
    * `Graph.Acyclic`
    * `Graph.Acyclic.shallow`
    * `Graph.Acyclic.exists_branching`
    * `acyclic_of_rank`
-/

------------------------------------------------------------
-- Factors and Variables as One Graph
------------------------------------------------------------

namespace JointMax

/- Factors on the left, variables on the right. -/
def bipartite {φ ν : Type} (touches : φ → ν → Prop) :
    SimpleGraph (φ ⊕ ν) where
  Adj
    | .inl factor, .inr var => touches factor var
    | .inr var, .inl factor => touches factor var
    | _, _ => False
  symm := ⟨by
    rintro (factor | var) (other | other) hAdj
    · exact hAdj
    · exact hAdj
    · exact hAdj
    · exact hAdj⟩
  loopless := ⟨by
    rintro (factor | var) hAdj
    · exact hAdj
    · exact hAdj⟩

namespace Graph

variable {α : Type}

/- No cycle runs through factors and variables. -/
def Acyclic (graph : Graph α) : Prop :=
  (bipartite graph.Touches).IsAcyclic

end Graph

end JointMax

------------------------------------------------------------
-- Trails
------------------------------------------------------------

namespace JointMax

open SimpleGraph

variable {φ ν : Type} {touches : φ → ν → Prop}

/-
  A path to the root, over so many of the listed factors. It
  starts at a factor and leaves it by a variable.
-/
def Trail
    (touches : φ → ν → Prop)
    (factors : List φ)
    (root : φ ⊕ ν)
    (number : Nat)
    (factor : φ)
    (exit : ν) : Prop :=
  ∃ path : (bipartite touches).Walk (.inl factor) root,
    path.IsPath ∧
      path.snd = .inr exit ∧
      (path.support.filterMap Sum.getLeft?).length =
        number ∧
      ∀ visited ∈ path.support.filterMap Sum.getLeft?,
        visited ∈ factors

namespace Trail

variable {factors : List φ} {root : φ ⊕ ν}
variable {number : Nat} {factor : φ} {exit : ν}

theorem single
    (hTouches : touches factor exit)
    (hFactor : factor ∈ factors) :
    Trail touches factors (.inr exit) 1 factor exit := by
  have hAdj : (bipartite touches).Adj (.inl factor)
      (.inr exit) := hTouches
  refine ⟨Walk.cons hAdj Walk.nil, ?_, rfl, rfl, ?_⟩
  · simp
  · simpa using hFactor

/- A trail from one factor of a variable to another. -/
theorem through
    {other : φ}
    (hTouches : touches factor exit)
    (hOther : touches other exit)
    (hNe : factor ≠ other)
    (hFactor : factor ∈ factors)
    (hListed : other ∈ factors) :
    Trail touches factors (.inl other) 2 factor exit := by
  have hAdj : (bipartite touches).Adj (.inl factor)
      (.inr exit) := hTouches
  have hBack : (bipartite touches).Adj (.inr exit)
      (.inl other) := hOther
  refine
    ⟨Walk.cons hAdj (Walk.cons hBack Walk.nil), ?_, rfl,
      rfl, ?_⟩
  · simp [hNe]
  · simp [hFactor, hListed]

/- Going on past a factor never leads back. -/
theorem cons
    (hAcyclic : (bipartite touches).IsAcyclic)
    (hTrail : Trail touches factors root number factor exit)
    {var : ν}
    {next : φ}
    (hVar : touches factor var)
    (hExit : var ≠ exit)
    (hNext : touches next var)
    (hNe : next ≠ factor)
    (hListed : next ∈ factors) :
    Trail touches factors root (number + 1) next var := by
  rcases hTrail with
    ⟨path, hPath, hSnd, hNumber, hFactors⟩
  have hFirst : (bipartite touches).Adj (.inl factor)
      (.inr var) := hVar
  have hSecond : (bipartite touches).Adj (.inl next)
      (.inr var) := hNext
  have hFresh : Sum.inr var ∉ path.support := by
    intro hMember
    have hSame :=
      hAcyclic.eq_snd_of_adj_start hPath hFirst hMember
    rw [hSnd] at hSame
    exact hExit (Sum.inr.inj hSame)
  have hLonger :
      (Walk.cons hFirst.symm path).IsPath :=
    hPath.cons hFresh
  have hBeyond :
      Sum.inl next ∉
        (Walk.cons hFirst.symm path).support := by
    intro hMember
    have hSame :=
      hAcyclic.eq_snd_of_adj_start hLonger hSecond.symm
        hMember
    rw [Walk.snd_cons] at hSame
    exact hNe (Sum.inl.inj hSame)
  refine
    ⟨Walk.cons hSecond (Walk.cons hFirst.symm path),
      hLonger.cons hBeyond, rfl, ?_, ?_⟩
  · rw [Walk.support_cons, Walk.support_cons]
    simp [List.filterMap_cons, hNumber]
  · rw [Walk.support_cons, Walk.support_cons]
    simpa [List.filterMap_cons, hListed] using hFactors

/- A trail visits no factor twice. -/
theorem number_le
    (hTrail :
      Trail touches factors root number factor exit) :
    number ≤ factors.length := by
  rcases hTrail with
    ⟨path, hPath, _, hNumber, hFactors⟩
  rw [← hNumber]
  apply List.Subperm.length_le
  apply List.Nodup.subperm _ hFactors
  apply hPath.support_nodup.filterMap
  intro left right visited hLeft hRight
  rw [Option.mem_def, Sum.getLeft?_eq_some_iff] at hLeft hRight
  rw [hLeft, hRight]

/- A factor on a trail meets the root only next to it. -/
theorem exit_eq
    (hAcyclic : (bipartite touches).IsAcyclic)
    {var : ν}
    (hTrail :
      Trail touches factors (.inr var) number factor exit)
    (hVar : touches factor var) :
    var = exit := by
  rcases hTrail with ⟨path, hPath, hSnd, _⟩
  have hAdj : (bipartite touches).Adj (.inl factor)
      (.inr var) := hVar
  have hSame :=
    hAcyclic.eq_snd_of_adj_start hPath hAdj
      path.end_mem_support
  rw [hSnd] at hSame
  exact Sum.inr.inj hSame

end Trail

end JointMax

------------------------------------------------------------
-- Depth behind an Edge
------------------------------------------------------------

namespace JointMax

variable {φ ν : Type} {touches : φ → ν → Prop}

/-
  Going on from a factor, away from one of its variables,
  ends after fewer than so many factors.
-/
def Shallow (touches : φ → ν → Prop) :
    Nat → φ → ν → Prop
  | 0, _, _ => False
  | depth + 1, factor, var =>
      ∀ other, touches factor other → other ≠ var →
        ∀ next, touches next other → next ≠ factor →
          Shallow touches depth next other

/- What is not shallow goes on, over ever more factors. -/
theorem Trail.exists_of_not_shallow
    (hAcyclic : (bipartite touches).IsAcyclic)
    {factors : List φ}
    (hListed : ∀ factor var, touches factor var →
      factor ∈ factors)
    {root : φ ⊕ ν}
    {number depth : Nat}
    {factor : φ}
    {exit : ν}
    (hTrail :
      Trail touches factors root number factor exit)
    (hDeep : ¬ Shallow touches depth factor exit) :
    ∃ last var,
      Trail touches factors root (number + depth) last
        var := by
  induction depth generalizing number factor exit with
  | zero => exact ⟨factor, exit, hTrail⟩
  | succ depth ih =>
      simp only [Shallow, not_forall] at hDeep
      rcases hDeep with
        ⟨other, hOther, hExit, next, hNext, hNe, hDeep⟩
      have hLonger :=
        hTrail.cons hAcyclic hOther hExit hNext hNe
          (hListed next other hNext)
      rcases ih hLonger hDeep with ⟨last, var, hLast⟩
      refine ⟨last, var, ?_⟩
      have hSum :
          number + 1 + depth = number + (depth + 1) := by
        omega
      exact hSum ▸ hLast

theorem Trail.shallow
    (hAcyclic : (bipartite touches).IsAcyclic)
    {factors : List φ}
    (hListed : ∀ factor var, touches factor var →
      factor ∈ factors)
    {root : φ ⊕ ν}
    {number depth : Nat}
    {factor : φ}
    {exit : ν}
    (hTrail :
      Trail touches factors root number factor exit)
    (hDepth : factors.length < number + depth) :
    Shallow touches depth factor exit := by
  by_contra hDeep
  rcases hTrail.exists_of_not_shallow hAcyclic hListed
      hDeep with
    ⟨last, var, hLast⟩
  have hBound := hLast.number_le
  omega

namespace Graph

variable {α : Type} {graph : Graph α}

theorem Touches.mem_ids
    {factor : FactorId}
    {var : VarId}
    (hTouches : graph.Touches factor var) :
    factor ∈ graph.factors.map Prod.fst := by
  rcases hTouches with ⟨table, hTable, _⟩
  rcases List.lookup_eq_some_iff.mp hTable with
    ⟨before, after, hFactors, _⟩
  simp [hFactors]

/- No edge of a forest has more than all factors behind it. -/
theorem Acyclic.shallow
    (hAcyclic : graph.Acyclic)
    {factor : FactorId}
    {var : VarId}
    (hTouches : graph.Touches factor var) :
    Shallow graph.Touches graph.factorCount factor var := by
  apply Trail.shallow hAcyclic
    (fun _ _ => Touches.mem_ids)
    (Trail.single hTouches hTouches.mem_ids)
  rw [List.length_map, factorCount]
  omega

/- Seen from another factor there is one factor less. -/
theorem Acyclic.shallow_of_ne
    (hAcyclic : graph.Acyclic)
    {factor other : FactorId}
    {var : VarId}
    (hTouches : graph.Touches factor var)
    (hOther : graph.Touches other var)
    (hNe : factor ≠ other) :
    Shallow graph.Touches (graph.factorCount - 1) factor
      var := by
  have hPos : 0 < graph.factorCount := by
    have hMember := hTouches.mem_ids
    have hLength := List.length_pos_of_mem hMember
    rwa [List.length_map] at hLength
  apply Trail.shallow hAcyclic
    (fun _ _ => Touches.mem_ids)
    (Trail.through hTouches hOther hNe hTouches.mem_ids
      hOther.mem_ids)
  rw [List.length_map]
  change graph.factorCount < _
  omega

end Graph

end JointMax

------------------------------------------------------------
-- Removing Factors One by One
------------------------------------------------------------

namespace JointMax

variable {φ ν : Type} {touches : φ → ν → Prop}

/-
  A factor shares at most one variable, its hub, with the
  root and the other listed factors.
-/
def Loose
    (touches : φ → ν → Prop)
    (root : ν)
    (factors : List φ)
    (factor : φ)
    (hub : ν) : Prop :=
  ∀ var, touches factor var →
    (var = root ∨
      ∃ other ∈ factors,
        other ≠ factor ∧ touches other var) →
    var = hub

/- If no factor were loose, trails would never end. -/
theorem Trail.exists_of_not_loose
    (hAcyclic : (bipartite touches).IsAcyclic)
    {factors : List φ}
    {root : ν}
    (hTight : ∀ factor ∈ factors, ∀ hub,
      ¬ Loose touches root factors factor hub)
    {first : φ}
    (hFirst : first ∈ factors)
    (hRoot : touches first root)
    (number : Nat) :
    ∃ factor ∈ factors, ∃ exit,
      Trail touches factors (.inr root) (number + 1) factor
        exit := by
  induction number with
  | zero =>
      exact
        ⟨first, hFirst, root, Trail.single hRoot hFirst⟩
  | succ number ih =>
      rcases ih with ⟨factor, hFactor, exit, hTrail⟩
      have hShared := hTight factor hFactor exit
      simp only [Loose, not_forall] at hShared
      rcases hShared with ⟨var, hVar, hShared, hExit⟩
      rcases hShared with rfl | hShared
      · exact absurd (hTrail.exit_eq hAcyclic hVar) hExit
      · rcases hShared with ⟨next, hNext, hNe, hMeets⟩
        exact ⟨next, hNext, var,
          hTrail.cons hAcyclic hVar hExit hMeets hNe hNext⟩

theorem exists_loose_of_touches
    (hAcyclic : (bipartite touches).IsAcyclic)
    {factors : List φ}
    {root : ν}
    {first : φ}
    (hFirst : first ∈ factors)
    (hRoot : touches first root) :
    ∃ factor ∈ factors, ∃ hub,
      Loose touches root factors factor hub := by
  by_contra hNone
  have hTight : ∀ factor ∈ factors, ∀ hub,
      ¬ Loose touches root factors factor hub := by
    intro factor hFactor hub hLoose
    exact hNone ⟨factor, hFactor, hub, hLoose⟩
  rcases Trail.exists_of_not_loose hAcyclic hTight hFirst
      hRoot factors.length with
    ⟨_, _, _, hTrail⟩
  have hBound := hTrail.number_le
  omega

/- Some factor of a forest is loose, whatever the root. -/
theorem exists_loose
    (hAcyclic : (bipartite touches).IsAcyclic)
    (root : ν)
    {factors : List φ}
    (hSome : factors ≠ []) :
    ∃ factor ∈ factors, ∃ hub,
      Loose touches root factors factor hub := by
  by_cases hRoot : ∃ first ∈ factors, touches first root
  · rcases hRoot with ⟨first, hFirst, hTouches⟩
    exact exists_loose_of_touches hAcyclic hFirst hTouches
  · by_cases hAny :
        ∃ first ∈ factors, ∃ var, touches first var
    · rcases hAny with ⟨first, hFirst, other, hTouches⟩
      rcases exists_loose_of_touches hAcyclic hFirst
          hTouches with
        ⟨factor, hFactor, hub, hLoose⟩
      refine ⟨factor, hFactor, hub, ?_⟩
      intro var hVar hShared
      rcases hShared with rfl | hShared
      · exact absurd ⟨factor, hFactor, hVar⟩ hRoot
      · exact hLoose var hVar (.inr hShared)
    · rcases List.exists_mem_of_ne_nil factors hSome with
        ⟨factor, hFactor⟩
      refine ⟨factor, hFactor, root, ?_⟩
      intro var hVar _
      exact absurd ⟨factor, hFactor, var, hVar⟩ hAny

/-
  Each factor shares at most one variable with the root and
  the factors after it.
-/
inductive Branching
    (touches : φ → ν → Prop)
    (root : ν) : List φ → Prop where
  | nil : Branching touches root []
  | cons {factor : φ} {rest : List φ} (hub : ν)
      (loose : ∀ var, touches factor var →
        (var = root ∨ ∃ other ∈ rest, touches other var) →
        var = hub)
      (tail : Branching touches root rest) :
      Branching touches root (factor :: rest)

theorem exists_branching
    [DecidableEq φ]
    (hAcyclic : (bipartite touches).IsAcyclic)
    (root : ν)
    {factors : List φ}
    (hNodup : factors.Nodup) :
    ∃ order,
      order.Perm factors ∧
        Branching touches root order := by
  induction hLength : factors.length
      generalizing factors with
  | zero =>
      rw [List.length_eq_zero_iff] at hLength
      exact ⟨[], hLength ▸ List.Perm.nil, Branching.nil⟩
  | succ number ih =>
      have hSome : factors ≠ [] := by
        rintro rfl
        simp at hLength
      rcases exists_loose hAcyclic root hSome with
        ⟨factor, hFactor, hub, hLoose⟩
      have hRest :
          (factors.erase factor).length = number := by
        rw [List.length_erase_of_mem hFactor, hLength]
        omega
      rcases ih (hNodup.erase factor) hRest with
        ⟨order, hPerm, hBranching⟩
      refine ⟨factor :: order, ?_, ?_⟩
      · exact (hPerm.cons factor).trans
          (List.perm_cons_erase hFactor).symm
      · refine Branching.cons hub ?_ hBranching
        intro var hVar hShared
        apply hLoose var hVar
        rcases hShared with hRoot | ⟨other, hOther, hMeets⟩
        · exact .inl hRoot
        · have hMember := hPerm.mem_iff.mp hOther
          rw [hNodup.mem_erase_iff] at hMember
          exact .inr
            ⟨other, hMember.2, hMember.1, hMeets⟩

namespace Graph

variable {α : Type} {graph : Graph α}

/-
  The factors of a forest can be listed so that each shares
  at most one variable with the root and those after it.
-/
theorem Acyclic.exists_branching
    (hAcyclic : graph.Acyclic)
    (hGraph : graph.Coherent)
    (root : VarId) :
    ∃ order,
      order.Perm (graph.factors.map Prod.fst) ∧
        Branching graph.Touches root order :=
  JointMax.exists_branching hAcyclic root hGraph.nodup

end Graph

end JointMax

------------------------------------------------------------
-- Graphs with a Rank
------------------------------------------------------------

namespace JointMax

open SimpleGraph

/-
  A graph is a forest if its nodes can be ranked so that each
  has at most one neighbour that is not above it.
-/
theorem acyclic_of_rank
    {V : Type}
    {network : SimpleGraph V}
    (rank : V → Nat)
    (hRank : ∀ node left right,
      network.Adj node left → network.Adj node right →
        rank left ≤ rank node → rank right ≤ rank node →
          left = right) :
    network.IsAcyclic := by
  classical
  intro base cycle hCycle
  have hSome : cycle.support.toFinset.Nonempty :=
    ⟨base, by simp⟩
  rcases Finset.exists_max_image cycle.support.toFinset rank
      hSome with
    ⟨top, hTop, hGreatest⟩
  rw [List.mem_toFinset] at hTop
  have hTurned : (cycle.rotate top hTop).IsCycle :=
    (Walk.isCycle_rotate hTop).mpr hCycle
  have hBelow : ∀ node ∈ (cycle.rotate top hTop).support,
      rank node ≤ rank top := by
    intro node hNode
    apply hGreatest
    rw [List.mem_toFinset]
    exact (cycle.mem_support_rotate_iff top hTop).mp hNode
  apply hTurned.snd_ne_penultimate
  apply hRank top
  · exact Walk.adj_snd hTurned.not_nil
  · exact (Walk.adj_penultimate hTurned.not_nil).symm
  · exact hBelow _ (Walk.getVert_mem_support _ _)
  · exact hBelow _ (Walk.getVert_mem_support _ _)

namespace Graph

variable {α : Type} {graph : Graph α}

/- A rank of factors and variables, edge by edge. -/
theorem acyclic_of_edges
    (hGraph : graph.Coherent)
    (factorRank : FactorId → Nat)
    (varRank : VarId → Nat)
    (hRank : ∀ left ∈ graph.edges, ∀ right ∈ graph.edges,
      (left.factor = right.factor →
        varRank left.var ≤ factorRank left.factor →
        varRank right.var ≤ factorRank right.factor →
          left = right) ∧
      (left.var = right.var →
        factorRank left.factor ≤ varRank left.var →
        factorRank right.factor ≤ varRank right.var →
          left = right)) :
    graph.Acyclic := by
  have hEdge : ∀ factor var, graph.Touches factor var →
      (⟨factor, var⟩ : Edge) ∈ graph.edges := by
    intro factor var hTouches
    exact hGraph.mem_edges.mpr hTouches
  apply acyclic_of_rank (Sum.elim factorRank varRank)
  rintro (factor | var) (left | left) (right | right)
    hLeft hRight hLeftRank hRightRank
  · exact hLeft.elim
  · exact hLeft.elim
  · exact hRight.elim
  · have hSame :=
      (hRank _ (hEdge factor left hLeft) _
        (hEdge factor right hRight)).1 rfl hLeftRank
          hRightRank
    exact congrArg Sum.inr (congrArg Edge.var hSame)
  · have hSame :=
      (hRank _ (hEdge left var hLeft) _
        (hEdge right var hRight)).2 rfl hLeftRank
          hRightRank
    exact congrArg Sum.inl (congrArg Edge.factor hSame)
  · exact hRight.elim
  · exact hLeft.elim
  · exact hLeft.elim

end Graph

end JointMax
