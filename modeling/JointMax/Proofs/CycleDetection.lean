import Mathlib
import JointMax.Graph.Cycle
import JointMax.Proofs.Forest
import JointMax.Proofs.GraphHistories
import JointMax.Proofs.ParentForests

/-
  Detection of cycles. While edges are merged one by one, two
  nodes lie in one tree of parent pointers exactly when the
  edges so far connect them. The first edge within a tree
  closes a cycle, and if there is no such edge there is none.

  Main declarations:
    * `reachable_sup_edge_iff`
    * `DisjointSets.Mirrors`, kept by `find` and `link`
    * `DisjointSets.Mirrors.closesCycle_iff`
    * `Graph.Coherent.isCyclic_iff`
    * `DisjointSets.Detects`, merging without a bound
    * `Graph.isCyclic_afterAll`
-/

------------------------------------------------------------
-- Networks that Grow by Edges
------------------------------------------------------------

namespace JointMax

open SimpleGraph

variable {V : Type} {network : SimpleGraph V}

/- A walk that uses the new edge need use it once only. -/
theorem reachable_sup_edge_iff
    {left right first second : V} :
    (network ⊔ edge left right).Reachable first second ↔
      network.Reachable first second ∨
        (network.Reachable first left ∧
          network.Reachable right second) ∨
        (network.Reachable first right ∧
          network.Reachable left second) := by
  have hOld : ∀ {first second : V},
      network.Reachable first second →
        (network ⊔ edge left right).Reachable first
          second :=
    fun hReach => hReach.mono le_sup_left
  have hNew :
      (network ⊔ edge left right).Reachable left right := by
    by_cases hSame : left = right
    · rw [hSame]
    · exact (le_sup_right (a := network)
        ((edge_adj ..).mpr ⟨.inl ⟨rfl, rfl⟩, hSame⟩)).reachable
  constructor
  · rintro ⟨walk⟩
    induction walk with
    | nil => exact .inl (Reachable.refl _)
    | cons hAdj _ ih =>
        rcases hAdj with hAdj | hAdj
        · have hStep := hAdj.reachable
          exact ih.imp hStep.trans
            (Or.imp (And.imp_left hStep.trans)
              (And.imp_left hStep.trans))
        · rcases ((edge_adj ..).mp hAdj).1 with
            ⟨rfl, rfl⟩ | ⟨rfl, rfl⟩
          · rcases ih with hRest | ⟨_, hRest⟩ | ⟨_, hRest⟩
            · exact .inr (.inl ⟨Reachable.refl _, hRest⟩)
            · exact .inr (.inl ⟨Reachable.refl _, hRest⟩)
            · exact .inl hRest
          · rcases ih with hRest | ⟨_, hRest⟩ | ⟨_, hRest⟩
            · exact .inr (.inr ⟨Reachable.refl _, hRest⟩)
            · exact .inl hRest
            · exact .inr (.inr ⟨Reachable.refl _, hRest⟩)
  · rintro (hReach | ⟨hFirst, hSecond⟩ | ⟨hFirst, hSecond⟩)
    · exact hOld hReach
    · exact (hOld hFirst).trans (hNew.trans (hOld hSecond))
    · exact (hOld hFirst).trans
        (hNew.symm.trans (hOld hSecond))

/- The network after edges were added one after another. -/
def joined
    (network : SimpleGraph V)
    (edges : List (V × V)) : SimpleGraph V :=
  edges.foldl (fun network ends =>
    network ⊔ edge ends.1 ends.2) network

theorem joined_adj_iff
    {edges : List (V × V)}
    {first second : V} :
    (joined network edges).Adj first second ↔
      network.Adj first second ∨
        ∃ ends ∈ edges,
          (edge ends.1 ends.2).Adj first second := by
  induction edges generalizing network with
  | nil => simp [joined]
  | cons ends edges ih =>
      change (joined (network ⊔ edge ends.1 ends.2)
        edges).Adj first second ↔ _
      rw [ih, sup_adj, List.exists_mem_cons_iff, or_assoc]

theorem le_joined
    (network : SimpleGraph V)
    (edges : List (V × V)) :
    network ≤ joined network edges :=
  fun _ _ hAdj => joined_adj_iff.mpr (.inl hAdj)

end JointMax

------------------------------------------------------------
-- Trees as Components
------------------------------------------------------------

namespace JointMax

namespace DisjointSets

open SimpleGraph

variable {V : Type}

/-
  Numbered nodes lie in one tree exactly when the network
  connects them.
-/
structure Mirrors
    (sets : DisjointSets)
    (number : V → Nat)
    (nodes : Set V)
    (network : SimpleGraph V) : Prop where
  forest : sets.Forest
  inside : ∀ node ∈ nodes, number node < sets.size
  top_eq_iff : ∀ first ∈ nodes, ∀ second ∈ nodes,
    sets.top (number first) = sets.top (number second) ↔
      network.Reachable first second

variable {sets : DisjointSets} {number : V → Nat}
variable {nodes : Set V} {network : SimpleGraph V}

theorem mirrors_singletons
    {count : Nat}
    (hInside : ∀ node ∈ nodes, number node < count)
    (hInjective : Set.InjOn number nodes) :
    (singletons count).Mirrors number nodes ⊥ where
  forest := forest_singletons count
  inside := by
    intro node hNode
    rw [size_singletons]
    exact hInside node hNode
  top_eq_iff := by
    intro first hFirst second hSecond
    rw [top_of_root (parent_singletons count _),
      top_of_root (parent_singletons count _), reachable_bot]
    exact hInjective.eq_iff hFirst hSecond

/- The search for a root finds it and keeps all trees. -/
theorem Mirrors.find
    (hMirrors : sets.Mirrors number nodes network)
    {node : V}
    (hNode : node ∈ nodes) :
    (sets.find (number node)).2 = sets.top (number node) ∧
      (∀ other, (sets.find (number node)).1.top other =
        sets.top other) ∧
      (sets.find (number node)).1.Mirrors number nodes
        network := by
  have hClimbs :=
    hMirrors.forest.climbs_find (hMirrors.inside node hNode)
  rcases hClimbs.top_eq hMirrors.forest with ⟨hRoot, hTops⟩
  refine ⟨hRoot, hTops, hClimbs.forest hMirrors.forest,
    ?_, ?_⟩
  · rw [hClimbs.size_eq]
    exact hMirrors.inside
  · intro first hFirst second hSecond
    rw [hTops, hTops]
    exact hMirrors.top_eq_iff first hFirst second hSecond

/- An edge between two trees links their roots. -/
theorem Mirrors.link
    (hMirrors : sets.Mirrors number nodes network)
    {left right : V}
    (hLeft : left ∈ nodes)
    (hRight : right ∈ nodes)
    (hNe :
      sets.top (number left) ≠ sets.top (number right)) :
    (sets.link (sets.top (number left))
      (sets.top (number right))).Mirrors number nodes
        (network ⊔ edge left right) := by
  have hForest := hMirrors.forest
  have hLeftInside :=
    hForest.top_lt (hMirrors.inside left hLeft)
  have hRightInside :=
    hForest.top_lt (hMirrors.inside right hRight)
  have hLeftRoot := hForest.parent_top (number left)
  have hRightRoot := hForest.parent_top (number right)
  refine
    { forest := hForest.link hLeftInside hRightInside
        hLeftRoot hRightRoot hNe
      inside := ?_
      top_eq_iff := ?_ }
  · intro node hNode
    rw [size_link]
    exact hMirrors.inside node hNode
  · intro first hFirst second hSecond
    rw [hForest.top_link hLeftInside hRightInside hLeftRoot
        hRightRoot hNe,
      hForest.top_link hLeftInside hRightInside hLeftRoot
        hRightRoot hNe,
      reachable_sup_edge_iff,
      ← hMirrors.top_eq_iff first hFirst second hSecond,
      ← hMirrors.top_eq_iff first hFirst left hLeft,
      ← hMirrors.top_eq_iff right hRight second hSecond,
      ← hMirrors.top_eq_iff first hFirst right hRight,
      ← hMirrors.top_eq_iff left hLeft second hSecond]
    split <;> split <;> grind

end DisjointSets

end JointMax

------------------------------------------------------------
-- The First Edge within a Tree
------------------------------------------------------------

namespace JointMax

namespace DisjointSets

open SimpleGraph

variable {V : Type}
variable {sets : DisjointSets} {number : V → Nat}
variable {nodes : Set V} {network : SimpleGraph V}

/- A cycle is closed when a new edge lies within a component. -/
theorem isAcyclic_sup_edge_iff
    (hAcyclic : network.IsAcyclic)
    {left right : V}
    (hNe : left ≠ right)
    (hFresh : ¬ network.Adj left right) :
    (network ⊔ edge left right).IsAcyclic ↔
      ¬ network.Reachable left right := by
  rw [isAcyclic_sup_fromEdgeSet_iff]
  tauto

/-
  Merging new edges one by one finds out whether they close a
  cycle. The induction is on the edges still to come; trees
  mirror the network of those that came before.
-/
theorem Mirrors.closesCycle_iff
    (hMirrors : sets.Mirrors number nodes network)
    (hAcyclic : network.IsAcyclic)
    {edges : List (V × V)}
    (hEnds : ∀ ends ∈ edges,
      ends.1 ∈ nodes ∧ ends.2 ∈ nodes)
    (hFresh : ∀ ends ∈ edges,
      ends.1 ≠ ends.2 ∧ ¬ network.Adj ends.1 ends.2)
    (hDistinct : edges.Pairwise fun earlier later =>
      s(earlier.1, earlier.2) ≠ s(later.1, later.2)) :
    sets.closesCycle
        (edges.map (Prod.map number number)) = true ↔
      ¬ (joined network edges).IsAcyclic := by
  induction edges generalizing sets network with
  | nil => simpa [closesCycle, joined] using hAcyclic
  | cons ends edges ih =>
      rcases ends with ⟨left, right⟩
      rcases hEnds (left, right) (by simp) with
        ⟨hLeft, hRight⟩
      rcases hFresh (left, right) (by simp) with
        ⟨hNe, hNew⟩
      rcases List.pairwise_cons.mp hDistinct with
        ⟨hOthers, hRest⟩
      rcases hMirrors.find hLeft with
        ⟨hFirstRoot, hFirstTops, hFirst⟩
      rcases hFirst.find hRight with
        ⟨hSecondRoot, hSecondTops, hSecond⟩
      have hTops : ∀ node,
          ((sets.find (number left)).1.find
            (number right)).1.top node = sets.top node :=
        fun node => by rw [hSecondTops, hFirstTops]
      rw [hFirstTops] at hSecondRoot
      have hTest :=
        hMirrors.top_eq_iff left hLeft right hRight
      have hCloses :=
        isAcyclic_sup_edge_iff hAcyclic hNe hNew
      simp only [List.map_cons, Prod.map_apply, closesCycle,
        hFirstRoot, hSecondRoot]
      split
      · rename_i hSame
        have hReach := hTest.mp hSame
        simp only [true_iff]
        intro hJoined
        exact hCloses.mp
          (hJoined.anti (le_joined _ edges)) hReach
      · rename_i hApart
        have hReach := mt hTest.mpr hApart
        rw [← hTops, ← hTops (number right)]
        apply ih
        · apply hSecond.link hLeft hRight
          rwa [hTops, hTops]
        · exact hCloses.mpr hReach
        · exact fun other hOther =>
            hEnds other (by simp [hOther])
        · intro other hOther
          rcases hFresh other (by simp [hOther]) with
            ⟨hOtherNe, hOtherNew⟩
          refine ⟨hOtherNe, ?_⟩
          rintro (hAdj | hAdj)
          · exact hOtherNew hAdj
          · apply hOthers other hOther
            rcases ((edge_adj ..).mp hAdj).1 with
              ⟨hFst, hSnd⟩ | ⟨hFst, hSnd⟩
            · rw [hFst, hSnd]
            · rw [hFst, hSnd]
              exact Sym2.eq_swap
        · exact hRest

end DisjointSets

end JointMax

------------------------------------------------------------
-- Numbered Factors and Variables
------------------------------------------------------------

namespace JointMax

namespace Graph

open SimpleGraph

variable {α : Type}

/- Factors are numbered by their places, variables after. -/
def node (graph : Graph α) : FactorId ⊕ VarId → Nat :=
  Sum.elim
    (fun factor =>
      (graph.factors.map Prod.fst).idxOf factor)
    graph.varNode

/- The factors and the variables of a graph. -/
def nodes (graph : Graph α) : Set (FactorId ⊕ VarId) :=
  {node |
    Sum.elim (· ∈ graph.factors.map Prod.fst)
      (· ∈ graph.vars) node}

/- The ends of the edges, in the order of the edges. -/
def ends (graph : Graph α) :
    List ((FactorId ⊕ VarId) × (FactorId ⊕ VarId)) :=
  graph.edges.map fun edge =>
    (Sum.inl edge.factor, Sum.inr edge.var)

variable {graph : Graph α}

theorem node_lt
    {node : FactorId ⊕ VarId}
    (hNode : node ∈ graph.nodes) :
    graph.node node <
      graph.factorCount + graph.varCount := by
  have hVars : graph.vars.length = graph.varCount :=
    Std.ExtTreeMap.length_keys
  have hIds : (graph.factors.map Prod.fst).length =
      graph.factorCount := List.length_map ..
  rcases node with factor | var
  · have hPlace := List.idxOf_lt_length_of_mem hNode
    change (graph.factors.map Prod.fst).idxOf factor < _
    omega
  · have hPlace := List.idxOf_lt_length_of_mem hNode
    change graph.factorCount + graph.vars.idxOf var < _
    omega

/- No two nodes have one number. -/
theorem node_injOn (graph : Graph α) :
    Set.InjOn graph.node graph.nodes := by
  have hIds : (graph.factors.map Prod.fst).length =
      graph.factorCount := List.length_map ..
  have hApart : ∀ factor var,
      factor ∈ graph.factors.map Prod.fst →
        graph.node (.inl factor) ≠
          graph.node (.inr var) := by
    intro factor var hFactor
    have hPlace := List.idxOf_lt_length_of_mem hFactor
    change (graph.factors.map Prod.fst).idxOf factor ≠
      graph.factorCount + graph.vars.idxOf var
    omega
  rintro (first | first) hFirst (second | second) hSecond
    hSame
  · exact congrArg Sum.inl
      ((List.idxOf_inj hFirst).mp hSame)
  · exact absurd hSame (hApart first second hFirst)
  · exact absurd hSame.symm (hApart second first hSecond)
  · exact congrArg Sum.inr
      ((List.idxOf_inj hFirst).mp
        (Nat.add_left_cancel hSame))

/- The place of a factor is the place of its id. -/
theorem zipIdx_factors
    (hNodup : (graph.factors.map Prod.fst).Nodup) :
    graph.factors.zipIdx =
      graph.factors.map fun entry =>
        (entry, graph.node (.inl entry.1)) := by
  apply List.ext_getElem
  · simp
  · intro place hLeft hRight
    simp only [List.length_zipIdx] at hLeft
    have hPlace :
        (graph.factors.map Prod.fst).idxOf
            graph.factors[place].1 = place := by
      have hFound :=
        hNodup.idxOf_getElem place (by simpa using hLeft)
      rwa [List.getElem_map] at hFound
    simp [Graph.node, hPlace]

/- Merged are the numbers of the ends of all edges. -/
theorem links_eq_map_ends
    (hNodup : (graph.factors.map Prod.fst).Nodup) :
    graph.links =
      graph.ends.map (Prod.map graph.node graph.node) := by
  unfold links ends edges
  rw [zipIdx_factors hNodup, List.flatMap_map,
    List.map_flatMap, List.map_flatMap]
  simp only [List.map_map]
  rfl

theorem Coherent.mem_ends
    (hGraph : graph.Coherent)
    {first second : FactorId ⊕ VarId} :
    (first, second) ∈ graph.ends ↔
      ∃ factor var,
        graph.Touches factor var ∧
          first = .inl factor ∧ second = .inr var := by
  simp only [ends, List.mem_map, hGraph.mem_edges,
    Prod.mk.injEq]
  constructor
  · rintro ⟨⟨factor, var⟩, hTouches, rfl, rfl⟩
    exact ⟨factor, var, hTouches, rfl, rfl⟩
  · rintro ⟨factor, var, hTouches, rfl, rfl⟩
    exact ⟨⟨factor, var⟩, hTouches, rfl, rfl⟩

/- The ends of an edge are a factor and a variable. -/
theorem Coherent.ends_mem_nodes
    (hGraph : graph.Coherent) :
    ∀ ends ∈ graph.ends,
      ends.1 ∈ graph.nodes ∧ ends.2 ∈ graph.nodes := by
  rintro ⟨first, second⟩ hEnds
  rcases hGraph.mem_ends.mp hEnds with
    ⟨factor, var, hTouches, rfl, rfl⟩
  exact ⟨hTouches.mem_ids,
    hGraph.mem_vars.mpr ⟨factor, hTouches⟩⟩

/- All edges together are the graph of the incidence. -/
theorem Coherent.joined_ends
    (hGraph : graph.Coherent) :
    joined ⊥ graph.ends = bipartite graph.Touches := by
  ext first second
  rw [joined_adj_iff]
  simp only [bot_adj, false_or, Prod.exists,
    hGraph.mem_ends, edge_adj]
  constructor
  · rintro ⟨_, _, ⟨factor, var, hTouches, rfl, rfl⟩, hEnds, _⟩
    rcases hEnds with ⟨rfl, rfl⟩ | ⟨rfl, rfl⟩
    · exact hTouches
    · exact hTouches
  · rcases first with factor | var
    · rcases second with other | var
      · exact False.elim
      · intro hTouches
        exact ⟨_, _, ⟨factor, var, hTouches, rfl, rfl⟩,
          .inl ⟨rfl, rfl⟩, by simp⟩
    · rcases second with factor | other
      · intro hTouches
        exact ⟨_, _, ⟨factor, var, hTouches, rfl, rfl⟩,
          .inr ⟨rfl, rfl⟩, by simp⟩
      · exact False.elim

theorem Coherent.pairwise_ends
    (hGraph : graph.Coherent) :
    graph.ends.Pairwise fun earlier later =>
      s(earlier.1, earlier.2) ≠ s(later.1, later.2) := by
  rw [ends, List.pairwise_map]
  apply hGraph.nodup_edges.imp
  rintro ⟨factor, var⟩ ⟨other, otherVar⟩ hNe hSame
  simp only [Sym2.eq_iff, Sum.inl.injEq, Sum.inr.injEq,
    reduceCtorEq, and_self, or_false] at hSame
  exact hNe (by rw [hSame.1, hSame.2])

/- A coherent graph is cyclic exactly when it has a cycle. -/
theorem Coherent.isCyclic_iff
    (hGraph : graph.Coherent) :
    graph.isCyclic = true ↔ ¬ graph.Acyclic := by
  unfold isCyclic Acyclic
  rw [links_eq_map_ends hGraph.nodup, ← hGraph.joined_ends]
  apply (DisjointSets.mirrors_singletons
    (fun _ => node_lt) graph.node_injOn).closesCycle_iff
      isAcyclic_bot hGraph.ends_mem_nodes
  · rintro ⟨first, second⟩ hEnds
    rcases hGraph.mem_ends.mp hEnds with
      ⟨factor, var, _, rfl, rfl⟩
    exact ⟨by simp, id⟩
  · exact hGraph.pairwise_ends

end Graph

end JointMax

------------------------------------------------------------
-- Merging without a Bound
------------------------------------------------------------

namespace JointMax

namespace DisjointSets

/-
  Merging edges with a search for a root at each end, where no
  search is bounded. There is an answer only if every search
  on the way to it ends.
-/
inductive Detects :
    DisjointSets → List (Nat × Nat) → Bool → Prop where
  | exhausted {sets : DisjointSets} :
      Detects sets [] false
  | closed {sets middle last : DisjointSets}
      {left right root : Nat} {edges : List (Nat × Nat)}
      (first : Climbs sets left middle root)
      (second : Climbs middle right last root) :
      Detects sets ((left, right) :: edges) true
  | merged {sets middle last : DisjointSets}
      {left right root target : Nat}
      {edges : List (Nat × Nat)} {answer : Bool}
      (first : Climbs sets left middle root)
      (second : Climbs middle right last target)
      (apart : root ≠ target)
      (rest : Detects (last.link root target) edges answer) :
      Detects sets ((left, right) :: edges) answer

/-
  Searches and links keep a forest of the same nodes, so that
  every search ends.
-/
theorem Forest.detects
    {sets : DisjointSets}
    (hForest : sets.Forest)
    {edges : List (Nat × Nat)}
    (hEdges : ∀ ends ∈ edges,
      ends.1 < sets.size ∧ ends.2 < sets.size) :
    Detects sets edges (sets.closesCycle edges) := by
  induction edges generalizing sets with
  | nil => exact Detects.exhausted
  | cons ends edges ih =>
      rcases ends with ⟨left, right⟩
      rcases hEdges (left, right) (by simp) with
        ⟨hLeft, hRight⟩
      have hFirst := hForest.climbs_find hLeft
      have hMiddle := hFirst.forest hForest
      have hRightAfter : right < (sets.find left).1.size := by
        rwa [hFirst.size_eq]
      have hSecond := hMiddle.climbs_find hRightAfter
      have hLast := hSecond.forest hMiddle
      have hSize : ((sets.find left).1.find right).1.size =
          sets.size := by
        rw [hSecond.size_eq, hFirst.size_eq]
      rcases hFirst.top_eq hForest with
        ⟨hFirstRoot, hFirstTops⟩
      rcases hSecond.top_eq hMiddle with
        ⟨hSecondRoot, hSecondTops⟩
      simp only [closesCycle]
      split
      · rename_i hSame
        exact Detects.closed hFirst (hSame ▸ hSecond)
      · rename_i hApart
        refine Detects.merged hFirst hSecond hApart (ih ?_ ?_)
        · -- Both roots are still roots after the searches.
          rw [hFirstRoot, hSecondRoot, hFirstTops] at hApart ⊢
          have hLeftTop := hLast.parent_top left
          have hRightTop := hLast.parent_top right
          rw [hSecondTops, hFirstTops] at hLeftTop hRightTop
          exact hLast.link (hSize ▸ hForest.top_lt hLeft)
            (hSize ▸ hForest.top_lt hRight) hLeftTop
            hRightTop hApart
        · intro other hOther
          rw [size_link, hSize]
          exact hEdges other (by simp [hOther])

end DisjointSets

end JointMax

------------------------------------------------------------
-- Cycles after Every History
------------------------------------------------------------

namespace JointMax

namespace Graph

variable {α : Type}

/-
  After every history of changes a graph is found cyclic
  exactly when a cycle runs through its factors and variables.
  Other histories that lead to the same incidence lead to the
  same answer. On the way, every variable of a factor has its
  node, and every search for a root ends.
-/
theorem isCyclic_afterAll
    [Binary64 α]
    (changes : List (Change α)) :
    let graph := (empty : Graph α).afterAll changes
    (graph.isCyclic = true ↔
      ∃ base,
        ∃ cycle : (bipartite graph.Touches).Walk base base,
          cycle.IsCycle) ∧
      (∀ others : List (Change α),
        (∀ factor var,
          ((empty : Graph α).afterAll others).Touches
              factor var ↔
            graph.Touches factor var) →
          ((empty : Graph α).afterAll others).isCyclic =
            graph.isCyclic) ∧
      (∀ entry ∈ graph.factors, ∀ var ∈ entry.2.vars,
        var ∈ graph.vars) ∧
      DisjointSets.Detects
        (DisjointSets.singletons
          (graph.factorCount + graph.varCount))
        graph.links graph.isCyclic := by
  intro graph
  have hGraph : graph.Coherent :=
    coherent_empty.afterAll changes
  have hExact := hGraph.isCyclic_iff
  refine ⟨?_, ?_, ?_, ?_⟩
  · rw [hExact, Acyclic, SimpleGraph.IsAcyclic]
    push Not
    exact Iff.rfl
  · intro others hSame
    have hOther :=
      (coherent_empty.afterAll others).isCyclic_iff
    have hTouches :
        ((empty : Graph α).afterAll others).Touches =
          graph.Touches := by
      funext factor var
      exact propext (hSame factor var)
    rw [Bool.eq_iff_iff, hOther, hExact, Acyclic, Acyclic,
      hTouches]
  · intro entry hEntry var hVar
    exact hGraph.mem_vars.mpr ⟨entry.1, entry.2,
      hGraph.factor?_eq_some_iff.mpr hEntry, hVar⟩
  · apply (DisjointSets.forest_singletons _).detects
    rw [links_eq_map_ends hGraph.nodup,
      DisjointSets.size_singletons]
    intro ends hEnds
    rcases List.mem_map.mp hEnds with ⟨edge, hEdge, rfl⟩
    rcases hGraph.ends_mem_nodes edge hEdge with
      ⟨hFirst, hSecond⟩
    exact ⟨node_lt hFirst, node_lt hSecond⟩

end Graph

end JointMax
