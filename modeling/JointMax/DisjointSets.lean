/-
  Disjoint sets of the nodes `0 … n - 1`, kept as a forest of
  parent pointers. A root points to itself.

  Key definitions include:
    * `DisjointSets.singletons`
    * `DisjointSets.find`, with path halving
    * `DisjointSets.link`
    * `DisjointSets.closesCycle`
-/

------------------------------------------------------------
-- Forests of Parent Pointers
------------------------------------------------------------

namespace JointMax

structure DisjointSets where
  parents : Array Nat
deriving DecidableEq, Repr

namespace DisjointSets

/- Every node is alone. -/
def singletons (n : Nat) : DisjointSets :=
  ⟨Array.range n⟩

def size (sets : DisjointSets) : Nat :=
  sets.parents.size

/- The parent of a node; a stranger is its own parent. -/
def parent (sets : DisjointSets) (node : Nat) : Nat :=
  sets.parents.getD node node

/- Let one node point to another. -/
def redirect
    (sets : DisjointSets)
    (node target : Nat) : DisjointSets :=
  ⟨sets.parents.setIfInBounds node target⟩

/-
  Climb to the root in at most so many steps. Each step lets
  the current node point to its grandparent and goes there.
-/
def climb :
    Nat → DisjointSets → Nat → DisjointSets × Nat
  | 0, sets, node => (sets, node)
  | steps + 1, sets, node =>
      if sets.parent node = node then
        (sets, node)
      else
        let grandparent := sets.parent (sets.parent node)
        climb steps (sets.redirect node grandparent)
          grandparent

/-
  The root of a node, beside the forest with shorter paths. A
  path visits no node twice, so that the number of nodes
  bounds the climb.
-/
def find (sets : DisjointSets) (node : Nat) :
    DisjointSets × Nat :=
  climb sets.size sets node

/- Merge two classes, given by their roots. -/
def link (sets : DisjointSets) (root target : Nat) :
    DisjointSets :=
  sets.redirect root target

end DisjointSets

end JointMax

------------------------------------------------------------
-- Cycles
------------------------------------------------------------

namespace JointMax

namespace DisjointSets

/-
  Merge the ends of each edge in turn. An edge whose ends are
  in one class already closes a cycle.
-/
def closesCycle :
    DisjointSets → List (Nat × Nat) → Bool
  | _, [] => false
  | sets, (left, right) :: edges =>
      let first := sets.find left
      let second := first.1.find right
      if first.2 = second.2 then
        true
      else
        closesCycle (second.1.link first.2 second.2) edges

end DisjointSets

end JointMax
