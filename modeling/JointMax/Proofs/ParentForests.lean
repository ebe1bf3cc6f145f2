import Mathlib
import JointMax.DisjointSets

/-
  Forests of parent pointers. Following parents from any node
  comes to a root, the loop that looks for it ends within as
  many steps as there are nodes, and its path halving moves no
  node to another tree. Linking two roots merges their trees
  and leaves all others.

  Main declarations:
    * `DisjointSets.Forest` and `DisjointSets.top`
    * `DisjointSets.Climbs`, the loop without a bound
    * `DisjointSets.Forest.climbs_find`
    * `DisjointSets.Climbs.top_eq` and
      `DisjointSets.Climbs.forest`
    * `DisjointSets.Forest.link` and
      `DisjointSets.Forest.top_link`
-/

------------------------------------------------------------
-- Forests
------------------------------------------------------------

namespace JointMax

namespace DisjointSets

/- Parents are nodes, and only roots are their own ancestors. -/
structure Forest (sets : DisjointSets) : Prop where
  inside : ∀ node < sets.size,
    sets.parent node < sets.size
  root_of_cycle : ∀ node steps,
    sets.parent^[steps + 1] node = node →
      sets.parent node = node

/- The end of the path that follows parents from a node. -/
def top (sets : DisjointSets) (node : Nat) : Nat :=
  sets.parent^[sets.size] node

/- A step to another node lowers the depth. -/
def Descends
    (sets : DisjointSets)
    (depth : Nat → Nat) : Prop :=
  ∀ node, sets.parent node ≠ node →
    depth (sets.parent node) < depth node

variable {sets : DisjointSets}

theorem parent_of_size_le
    {node : Nat}
    (hNode : sets.size ≤ node) :
    sets.parent node = node := by
  unfold size at hNode
  simp [parent, hNode]

theorem parent_redirect
    {node target other : Nat}
    (hNode : node < sets.size) :
    (sets.redirect node target).parent other =
      if other = node then target
      else sets.parent other := by
  unfold size at hNode
  by_cases hOther : other = node
  · subst hOther
    simp [parent, redirect, hNode]
  · rw [if_neg hOther]
    simp [parent, redirect, Ne.symm hOther]

theorem size_redirect (sets : DisjointSets) (node target : Nat) :
    (sets.redirect node target).size = sets.size := by
  simp [size, redirect]

theorem Forest.iterate_lt
    (hForest : sets.Forest)
    {node : Nat}
    (hNode : node < sets.size)
    (steps : Nat) :
    sets.parent^[steps] node < sets.size := by
  induction steps with
  | zero => exact hNode
  | succ steps ih =>
      rw [Function.iterate_succ_apply']
      exact hForest.inside _ ih

/-
  A path over as many steps as there are nodes meets some node
  twice, and what it meets twice is a root.
-/
theorem Forest.exists_root
    (hForest : sets.Forest)
    (node : Nat) :
    ∃ steps ≤ sets.size,
      sets.parent (sets.parent^[steps] node) =
        sets.parent^[steps] node := by
  by_cases hNode : node < sets.size
  · have hCard :
        (Finset.range sets.size).card <
          (Finset.range (sets.size + 1)).card := by
      simp
    have hMaps : ∀ steps ∈ Finset.range (sets.size + 1),
        sets.parent^[steps] node ∈
          Finset.range sets.size := by
      intro steps _
      exact Finset.mem_range.mpr
        (hForest.iterate_lt hNode steps)
    rcases Finset.exists_ne_map_eq_of_card_lt_of_maps_to
        hCard hMaps with
      ⟨first, hFirst, second, hSecond, hNe, hSame⟩
    wlog hLess : first < second generalizing first second
    · exact this second hSecond first hFirst hNe.symm
        hSame.symm (by omega)
    refine ⟨first, ?_, ?_⟩
    · have := Finset.mem_range.mp hFirst
      omega
    · apply hForest.root_of_cycle _ (second - first - 1)
      rw [← Function.iterate_add_apply, hSame]
      congr 1
      omega
  · exact ⟨0, Nat.zero_le _,
      parent_of_size_le (Nat.le_of_not_lt hNode)⟩

/- Depth is the number of steps to the root. -/
theorem Forest.exists_depth (hForest : sets.Forest) :
    ∃ depth,
      sets.Descends depth ∧
        ∀ node, depth node ≤ sets.size := by
  classical
  have hRoot : ∀ node, ∃ steps,
      sets.parent (sets.parent^[steps] node) =
        sets.parent^[steps] node := by
    intro node
    rcases hForest.exists_root node with ⟨steps, _, hSteps⟩
    exact ⟨steps, hSteps⟩
  refine ⟨fun node => Nat.find (hRoot node), ?_, ?_⟩
  · intro node hMoves
    cases hDepth : Nat.find (hRoot node) with
    | zero =>
        have hFound := Nat.find_spec (hRoot node)
        rw [hDepth] at hFound
        exact absurd hFound hMoves
    | succ depth =>
        have hFound := Nat.find_spec (hRoot node)
        rw [hDepth, Function.iterate_succ_apply] at hFound
        have hBound :=
          Nat.find_min' (hRoot (sets.parent node)) hFound
        change Nat.find (hRoot (sets.parent node)) <
          Nat.find (hRoot node)
        omega
  · intro node
    rcases hForest.exists_root node with
      ⟨steps, hSteps, hFound⟩
    exact (Nat.find_min' (hRoot node) hFound).trans hSteps

/- Where every step descends, no path comes back. -/
theorem Descends.forest
    {depth : Nat → Nat}
    (hDepth : sets.Descends depth)
    (hInside : ∀ node < sets.size,
      sets.parent node < sets.size) :
    sets.Forest where
  inside := hInside
  root_of_cycle := by
    have hFalls : ∀ steps node,
        depth (sets.parent^[steps] node) ≤ depth node := by
      intro steps
      induction steps with
      | zero => exact fun _ => le_rfl
      | succ steps ih =>
          intro node
          rw [Function.iterate_succ_apply]
          by_cases hMoves : sets.parent node = node
          · rw [hMoves]
            exact ih node
          · exact (ih _).trans (hDepth node hMoves).le
    intro node steps hCycle
    by_contra hMoves
    have hBelow := hDepth node hMoves
    have hBack := hFalls steps (sets.parent node)
    rw [Function.iterate_succ_apply] at hCycle
    rw [hCycle] at hBack
    omega

end DisjointSets

end JointMax

------------------------------------------------------------
-- Roots
------------------------------------------------------------

namespace JointMax

namespace DisjointSets

variable {sets : DisjointSets}

theorem top_of_root
    {node : Nat}
    (hRoot : sets.parent node = node) :
    sets.top node = node :=
  Function.iterate_fixed hRoot sets.size

theorem Forest.parent_top
    (hForest : sets.Forest)
    (node : Nat) :
    sets.parent (sets.top node) = sets.top node := by
  rcases hForest.exists_root node with
    ⟨steps, hSteps, hRoot⟩
  have hTop :
      sets.top node = sets.parent^[steps] node := by
    unfold top
    rw [← Nat.sub_add_cancel hSteps,
      Function.iterate_add_apply]
    exact Function.iterate_fixed hRoot _
  rw [hTop]
  exact hRoot

/- A node and its parent have one root. -/
theorem Forest.top_parent
    (hForest : sets.Forest)
    (node : Nat) :
    sets.top (sets.parent node) = sets.top node := by
  unfold top
  rw [← Function.iterate_succ_apply,
    Function.iterate_succ_apply']
  exact hForest.parent_top node

theorem Forest.top_lt
    (hForest : sets.Forest)
    {node : Nat}
    (hNode : node < sets.size) :
    sets.top node < sets.size :=
  hForest.iterate_lt hNode sets.size

/- From the root down: each node comes after its parent. -/
theorem Forest.induction
    (hForest : sets.Forest)
    {motive : Nat → Prop}
    (root : ∀ node, sets.parent node = node → motive node)
    (below : ∀ node, sets.parent node ≠ node →
      motive (sets.parent node) → motive node)
    (node : Nat) :
    motive node := by
  rcases hForest.exists_depth with ⟨depth, hDepth, _⟩
  induction hRank : depth node using Nat.strong_induction_on
      generalizing node with
  | _ rank ih =>
      by_cases hMoves : sets.parent node = node
      · exact root node hMoves
      · exact below node hMoves
          (ih _ (hRank ▸ hDepth node hMoves) _ rfl)

/-
  Roots are kept by a change of pointers that lets no node
  point out of its tree and makes no new root.
-/
theorem Forest.top_eq_of_parent
    {other : DisjointSets}
    (hOther : other.Forest)
    (hRoots : ∀ node, other.parent node = node →
      sets.parent node = node)
    (hTrees : ∀ node,
      sets.top (other.parent node) = sets.top node)
    (node : Nat) :
    other.top node = sets.top node := by
  induction node using hOther.induction with
  | root node hRoot =>
      rw [top_of_root hRoot, top_of_root (hRoots node hRoot)]
  | below node _ ih =>
      rw [← hOther.top_parent node, ih, hTrees]

end DisjointSets

end JointMax

------------------------------------------------------------
-- Path Halving
------------------------------------------------------------

namespace JointMax

namespace DisjointSets

variable {sets : DisjointSets}

/- Let a node point to its grandparent. -/
def halve (sets : DisjointSets) (node : Nat) : DisjointSets :=
  sets.redirect node (sets.parent (sets.parent node))

theorem parent_halve
    {node : Nat}
    (hNode : node < sets.size)
    (other : Nat) :
    (sets.halve node).parent other =
      if other = node then sets.parent (sets.parent node)
      else sets.parent other :=
  parent_redirect hNode

theorem size_halve (sets : DisjointSets) (node : Nat) :
    (sets.halve node).size = sets.size :=
  size_redirect ..

/- A grandparent is deeper down than a node by no step. -/
theorem Descends.grandparent
    {depth : Nat → Nat}
    (hDepth : sets.Descends depth)
    {node : Nat}
    (hMoves : sets.parent node ≠ node) :
    depth (sets.parent (sets.parent node)) < depth node := by
  have hParent := hDepth node hMoves
  by_cases hRoot :
      sets.parent (sets.parent node) = sets.parent node
  · rw [hRoot]
    exact hParent
  · exact (hDepth _ hRoot).trans hParent

theorem Descends.halve
    {depth : Nat → Nat}
    (hDepth : sets.Descends depth)
    {node : Nat}
    (hNode : node < sets.size)
    (hMoves : sets.parent node ≠ node) :
    (sets.halve node).Descends depth := by
  intro other hOther
  rw [parent_halve hNode] at hOther ⊢
  by_cases hSame : other = node
  · rw [if_pos hSame, hSame]
    exact hDepth.grandparent hMoves
  · rw [if_neg hSame] at hOther ⊢
    exact hDepth other hOther

theorem Forest.halve
    (hForest : sets.Forest)
    {node : Nat}
    (hNode : node < sets.size)
    (hMoves : sets.parent node ≠ node) :
    (sets.halve node).Forest := by
  rcases hForest.exists_depth with ⟨depth, hDepth, _⟩
  apply (hDepth.halve hNode hMoves).forest
  intro other hOther
  rw [size_halve] at hOther ⊢
  rw [parent_halve hNode]
  split
  · exact hForest.inside _ (hForest.inside _ hNode)
  · exact hForest.inside _ hOther

/- Halving moves no node to another tree. -/
theorem Forest.top_halve
    (hForest : sets.Forest)
    {node : Nat}
    (hNode : node < sets.size)
    (hMoves : sets.parent node ≠ node)
    (other : Nat) :
    (sets.halve node).top other = sets.top other := by
  rcases hForest.exists_depth with ⟨depth, hDepth, _⟩
  apply (hForest.halve hNode hMoves).top_eq_of_parent
  · intro found hRoot
    rw [parent_halve hNode] at hRoot
    by_cases hSame : found = node
    · rw [if_pos hSame] at hRoot
      have hFalls := hDepth.grandparent hMoves
      rw [hRoot, hSame] at hFalls
      exact absurd hFalls (lt_irrefl _)
    · rwa [if_neg hSame] at hRoot
  · intro found
    rw [parent_halve hNode]
    by_cases hSame : found = node
    · rw [if_pos hSame, hForest.top_parent,
        hForest.top_parent, hSame]
    · rw [if_neg hSame, hForest.top_parent]

end DisjointSets

end JointMax

------------------------------------------------------------
-- The Search for a Root
------------------------------------------------------------

namespace JointMax

namespace DisjointSets

variable {sets final : DisjointSets} {node root : Nat}

/-
  The loop that finds a root, with no bound on its steps. As
  long as the current node is no root, it is let point to its
  grandparent, which becomes the current node. Whatever is
  looked up is a node.
-/
inductive Climbs :
    DisjointSets → Nat → DisjointSets → Nat → Prop where
  | stop {sets : DisjointSets} {node : Nat}
      (inside : node < sets.size)
      (isRoot : sets.parent node = node) :
      Climbs sets node sets node
  | step {sets final : DisjointSets} {node root : Nat}
      (inside : node < sets.size)
      (parentInside : sets.parent node < sets.size)
      (moves : sets.parent node ≠ node)
      (rest : Climbs (sets.halve node)
        (sets.parent (sets.parent node)) final root) :
      Climbs sets node final root

/-
  The bounded loop is the loop, if its bound is no less than
  the depth at which it starts.
-/
theorem Forest.climbs_climb
    (hForest : sets.Forest)
    {depth : Nat → Nat}
    (hDepth : sets.Descends depth)
    (hNode : node < sets.size)
    {steps : Nat}
    (hSteps : depth node ≤ steps) :
    Climbs sets node (climb steps sets node).1
      (climb steps sets node).2 := by
  induction steps generalizing sets node with
  | zero =>
      have hRoot : sets.parent node = node := by
        by_contra hMoves
        have hFalls := hDepth node hMoves
        omega
      exact Climbs.stop hNode hRoot
  | succ steps ih =>
      unfold climb
      split
      · rename_i hRoot
        exact Climbs.stop hNode hRoot
      · rename_i hMoves
        have hFalls := hDepth.grandparent hMoves
        have hParent := hForest.inside _ hNode
        have hGrandparent : sets.parent (sets.parent node) <
            (sets.halve node).size := by
          rw [size_halve]
          exact hForest.inside _ hParent
        exact Climbs.step hNode hParent hMoves
          (ih (hForest.halve hNode hMoves)
            (hDepth.halve hNode hMoves) hGrandparent
            (by omega))

/-
  In a forest the search for a root ends, and its bound does
  not cut it short.
-/
theorem Forest.climbs_find
    (hForest : sets.Forest)
    (hNode : node < sets.size) :
    Climbs sets node (sets.find node).1
      (sets.find node).2 := by
  rcases hForest.exists_depth with ⟨depth, hDepth, hBound⟩
  exact hForest.climbs_climb hDepth hNode (hBound node)

theorem Climbs.size_eq
    (hClimbs : Climbs sets node final root) :
    final.size = sets.size := by
  induction hClimbs with
  | stop _ _ => rfl
  | step _ _ _ _ ih =>
      rw [ih, size_halve]

theorem Climbs.forest
    (hClimbs : Climbs sets node final root)
    (hForest : sets.Forest) :
    final.Forest := by
  induction hClimbs with
  | stop _ _ => exact hForest
  | step inside _ moves _ ih =>
      exact ih (hForest.halve inside moves)

/- The search finds the root, and leaves every node its own. -/
theorem Climbs.top_eq
    (hClimbs : Climbs sets node final root)
    (hForest : sets.Forest) :
    root = sets.top node ∧
      ∀ other, final.top other = sets.top other := by
  induction hClimbs with
  | stop _ isRoot =>
      exact ⟨(top_of_root isRoot).symm, fun _ => rfl⟩
  | @step sets _ node _ inside _ moves _ ih =>
      rcases ih (hForest.halve inside moves) with
        ⟨hRoot, hTops⟩
      constructor
      · rw [hRoot, hForest.top_halve inside moves,
          hForest.top_parent, hForest.top_parent]
      · intro other
        rw [hTops, hForest.top_halve inside moves]

end DisjointSets

end JointMax

------------------------------------------------------------
-- Links between Roots
------------------------------------------------------------

namespace JointMax

namespace DisjointSets

variable {sets : DisjointSets} {first second : Nat}

theorem size_link (sets : DisjointSets) (first second : Nat) :
    (sets.link first second).size = sets.size :=
  size_redirect ..

/- Linking two roots keeps a forest. -/
theorem Forest.link
    (hForest : sets.Forest)
    (hFirst : first < sets.size)
    (hSecond : second < sets.size)
    (hFirstRoot : sets.parent first = first)
    (hSecondRoot : sets.parent second = second)
    (hNe : first ≠ second) :
    (sets.link first second).Forest := by
  rcases hForest.exists_depth with ⟨depth, hDepth, _⟩
  -- The tree below the first root comes to lie deeper.
  let lowered : Nat → Nat := fun node =>
    if sets.top node = first then
      depth node + depth second + 1
    else
      depth node
  have hLowered :
      (sets.link first second).Descends lowered := by
    intro node hMoves
    rw [DisjointSets.link, parent_redirect hFirst]
      at hMoves ⊢
    by_cases hSame : node = first
    · simp only [hSame, if_pos, lowered,
        top_of_root hFirstRoot, top_of_root hSecondRoot,
        if_neg hNe.symm]
      omega
    · rw [if_neg hSame] at hMoves ⊢
      have hFalls := hDepth node hMoves
      simp only [lowered, hForest.top_parent]
      split
      · omega
      · exact hFalls
  apply hLowered.forest
  intro node hNode
  rw [size_link] at hNode ⊢
  rw [DisjointSets.link, parent_redirect hFirst]
  split
  · exact hSecond
  · exact hForest.inside node hNode

/- It merges their trees, and no others. -/
theorem Forest.top_link
    (hForest : sets.Forest)
    (hFirst : first < sets.size)
    (hSecond : second < sets.size)
    (hFirstRoot : sets.parent first = first)
    (hSecondRoot : sets.parent second = second)
    (hNe : first ≠ second)
    (node : Nat) :
    (sets.link first second).top node =
      if sets.top node = first then second
      else sets.top node := by
  have hLinked :=
    hForest.link hFirst hSecond hFirstRoot hSecondRoot hNe
  have hParent : ∀ other,
      (sets.link first second).parent other =
        if other = first then second
        else sets.parent other :=
    fun other => parent_redirect hFirst
  induction node using hLinked.induction with
  | root node hRoot =>
      rw [top_of_root hRoot]
      rw [hParent] at hRoot
      by_cases hSame : node = first
      · rw [if_pos hSame, hSame] at hRoot
        exact absurd hRoot.symm hNe
      · rw [if_neg hSame] at hRoot
        rw [top_of_root hRoot, if_neg hSame]
  | below node _ ih =>
      rw [← hLinked.top_parent, ih, hParent]
      by_cases hSame : node = first
      · rw [if_pos hSame, hSame, top_of_root hFirstRoot,
          top_of_root hSecondRoot, if_neg hNe.symm,
          if_pos rfl]
      · rw [if_neg hSame, hForest.top_parent]

end DisjointSets

end JointMax

------------------------------------------------------------
-- Single Nodes
------------------------------------------------------------

namespace JointMax

namespace DisjointSets

theorem parent_singletons (count node : Nat) :
    (singletons count).parent node = node := by
  simp only [parent, singletons, Array.getD_eq_getD_getElem?,
    Array.getElem?_range]
  split <;> rfl

theorem size_singletons (count : Nat) :
    (singletons count).size = count := by
  simp [size, singletons]

theorem forest_singletons (count : Nat) :
    (singletons count).Forest where
  inside := by
    intro node hNode
    rwa [parent_singletons]
  root_of_cycle := by
    intro node _ _
    exact parent_singletons count node

end DisjointSets

end JointMax
