import JointMax.Graph.Basic
import JointMax.DisjointSets

/-
  Cycles of the bipartite graph of factors and variables.
  Factors are numbered by their places and variables after
  them by theirs, and the edges are merged one by one.

  Key definitions include:
    * `Graph.links`
    * `Graph.isCyclic`
-/

namespace JointMax

namespace Graph

variable {α : Type}

/- The node of a variable. -/
def varNode (graph : Graph α) (var : VarId) : Nat :=
  graph.factorCount + graph.vars.idxOf var

/- Edges between numbered nodes. -/
def links (graph : Graph α) : List (Nat × Nat) :=
  graph.factors.zipIdx.flatMap fun entry =>
    entry.1.2.vars.map fun var =>
      (entry.2, graph.varNode var)

/- Whether factors and variables lie on a common cycle. -/
def isCyclic (graph : Graph α) : Bool :=
  (DisjointSets.singletons
    (graph.factorCount + graph.varCount)).closesCycle
      graph.links

end Graph

end JointMax
