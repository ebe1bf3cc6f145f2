import Mathlib
import JointMax.Proofs.ParentForests

/-
  Trees of a forest of parent pointers, told apart by their
  roots. A search from any node has one outcome: it ends at
  the root of the node, and the forest that it leaves has the
  same trees. Linking two roots then makes one tree of two and
  leaves every other tree alone.

  Main declarations:
    * `DisjointSets.RootOf` and `DisjointSets.Together`
    * `DisjointSets.Climbs.unique`
    * `DisjointSets.Unites` and `DisjointSets.Forest.unites`
    * `DisjointSets.Forest.search_then_link`
-/

------------------------------------------------------------
-- Roots and Trees
------------------------------------------------------------

namespace JointMax

namespace DisjointSets

/- A node that points to itself, met on the way up. -/
structure RootOf
    (sets : DisjointSets)
    (node root : Nat) : Prop where
  isRoot : sets.parent root = root
  reached : ∃ steps, sets.parent^[steps] node = root

/- Two nodes are in one tree. -/
def Together
    (sets : DisjointSets)
    (left right : Nat) : Prop :=
  ∃ root, sets.RootOf left root ∧ sets.RootOf right root

variable {sets : DisjointSets} {node root left right : Nat}

theorem Forest.top_iterate
    (hForest : sets.Forest)
    (node steps : Nat) :
    sets.top (sets.parent^[steps] node) = sets.top node := by
  induction steps with
  | zero => rfl
  | succ steps ih =>
      rw [Function.iterate_succ_apply', hForest.top_parent, ih]

theorem Forest.rootOf_iff (hForest : sets.Forest) :
    sets.RootOf node root ↔ sets.top node = root := by
  constructor
  · rintro ⟨hRoot, steps, hReached⟩
    rw [← hForest.top_iterate node steps, hReached,
      top_of_root hRoot]
  · rintro rfl
    exact ⟨hForest.parent_top node, sets.size, rfl⟩

theorem Forest.together_iff (hForest : sets.Forest) :
    sets.Together left right ↔
      sets.top left = sets.top right := by
  simp only [Together, hForest.rootOf_iff]
  exact ⟨fun ⟨_, hLeft, hRight⟩ => hLeft.trans hRight.symm,
    fun hSame => ⟨_, hSame, rfl⟩⟩

end DisjointSets

end JointMax

------------------------------------------------------------
-- One Outcome
------------------------------------------------------------

namespace JointMax

namespace DisjointSets

variable {sets final other : DisjointSets}
variable {node root target : Nat}

/- The loop cannot go on from a node in two ways. -/
theorem Climbs.unique
    (hFirst : Climbs sets node final root)
    (hSecond : Climbs sets node other target) :
    final = other ∧ root = target := by
  induction hFirst with
  | stop _ isRoot =>
      cases hSecond with
      | stop _ _ => exact ⟨rfl, rfl⟩
      | step _ _ moves _ => exact absurd isRoot moves
  | step _ _ moves _ ih =>
      cases hSecond with
      | stop _ isRoot => exact absurd isRoot moves
      | step _ _ _ rest => exact ih rest

theorem Forest.climbs_iff
    (hForest : sets.Forest)
    (hNode : node < sets.size) :
    Climbs sets node final root ↔
      sets.find node = (final, root) := by
  have hFind := hForest.climbs_find hNode
  constructor
  · intro hClimbs
    rcases hFind.unique hClimbs with ⟨hFinal, hRoot⟩
    exact Prod.ext hFinal hRoot
  · intro hFound
    rwa [hFound] at hFind

end DisjointSets

end JointMax

------------------------------------------------------------
-- Two Trees Made One
------------------------------------------------------------

namespace JointMax

namespace DisjointSets

variable {sets : DisjointSets} {first second node : Nat}

/-
  The nodes below the first root come to lie below the second
  one, and nothing else moves.
-/
structure Unites
    (before after : DisjointSets)
    (first second : Nat) : Prop where
  forest : after.Forest
  size_eq : after.size = before.size
  moved : ∀ node, before.RootOf node first →
    after.RootOf node second
  kept : ∀ node root, before.RootOf node root →
    root ≠ first → after.RootOf node root
  together_iff : ∀ left right,
    after.Together left right ↔
      before.Together left right ∨
        (before.RootOf left first ∧
          before.RootOf right second) ∨
        (before.RootOf left second ∧
          before.RootOf right first)

theorem Forest.unites
    (hForest : sets.Forest)
    (hFirst : first < sets.size)
    (hSecond : second < sets.size)
    (hFirstRoot : sets.parent first = first)
    (hSecondRoot : sets.parent second = second)
    (hNe : first ≠ second) :
    sets.Unites (sets.link first second) first second := by
  have hLinked :=
    hForest.link hFirst hSecond hFirstRoot hSecondRoot hNe
  have hTop := hForest.top_link hFirst hSecond hFirstRoot
    hSecondRoot hNe
  refine
    { forest := hLinked
      size_eq := size_link sets first second
      moved := ?_
      kept := ?_
      together_iff := ?_ }
  · intro node hNode
    rw [hForest.rootOf_iff] at hNode
    rw [hLinked.rootOf_iff, hTop, if_pos hNode]
  · intro node root hNode hOther
    rw [hForest.rootOf_iff] at hNode
    rw [hLinked.rootOf_iff, hTop, hNode, if_neg hOther]
  · intro left right
    simp only [hLinked.together_iff, hForest.together_iff,
      hForest.rootOf_iff, hTop]
    split_ifs <;> grind

end DisjointSets

end JointMax

------------------------------------------------------------
-- Searching and Linking
------------------------------------------------------------

namespace JointMax

namespace DisjointSets

variable {sets : DisjointSets} {node : Nat}

/-
  From any node of a forest the search ends, with one outcome:
  the root of the node, and a forest with the same trees. Two
  roots of this forest can be linked, which unites their trees.
-/
theorem Forest.search_then_link
    (hForest : sets.Forest)
    (hNode : node < sets.size) :
    ∃ final root,
      sets.find node = (final, root) ∧
        (∀ other target,
          Climbs sets node other target ↔
            other = final ∧ target = root) ∧
        sets.RootOf node root ∧
        root < sets.size ∧
        final.Forest ∧
        final.size = sets.size ∧
        (∀ other target,
          final.RootOf other target ↔
            sets.RootOf other target) ∧
        ∀ first second,
          first < final.size → second < final.size →
          final.parent first = first →
          final.parent second = second →
          first ≠ second →
            final.Unites (final.link first second)
              first second := by
  have hClimbs := hForest.climbs_find hNode
  have hFinal := hClimbs.forest hForest
  rcases hClimbs.top_eq hForest with ⟨hRoot, hTops⟩
  refine ⟨(sets.find node).1, (sets.find node).2, rfl, ?_,
    hForest.rootOf_iff.mpr hRoot.symm, ?_, hFinal,
    hClimbs.size_eq, ?_, ?_⟩
  · intro other target
    rw [hForest.climbs_iff hNode, Prod.ext_iff]
    exact and_congr eq_comm eq_comm
  · rw [hRoot]
    exact hForest.top_lt hNode
  · intro other target
    rw [hFinal.rootOf_iff, hForest.rootOf_iff, hTops]
  · intro first second hFirst hSecond hFirstRoot hSecondRoot
      hNe
    exact hFinal.unites hFirst hSecond hFirstRoot
      hSecondRoot hNe

/- A path of five nodes, and two more nodes in a tree. -/
def pathAndPair : DisjointSets :=
  ⟨#[0, 0, 1, 2, 3, 5, 5]⟩

/- Parents come before their children. -/
theorem forest_pathAndPair : pathAndPair.Forest := by
  have hBefore : ∀ node < 7,
      pathAndPair.parent node ≠ node →
        pathAndPair.parent node < node := by
    decide
  have hDescends : pathAndPair.Descends id := by
    intro node hMoves
    by_cases hNode : node < 7
    · exact hBefore node hNode hMoves
    · exact absurd
        (parent_of_size_le (Nat.le_of_not_lt hNode)) hMoves
  exact hDescends.forest (by decide)

/- The search halves the path, and the two trees are linked. -/
theorem search_then_link_pathAndPair :
    pathAndPair.Forest ∧ 4 < pathAndPair.size ∧
      pathAndPair.find 4 =
        (⟨#[0, 0, 0, 2, 2, 5, 5]⟩, 0) ∧
      pathAndPair.RootOf 4 0 ∧
      (∀ other target,
        (⟨#[0, 0, 0, 2, 2, 5, 5]⟩ : DisjointSets).RootOf
            other target ↔
          pathAndPair.RootOf other target) ∧
      (⟨#[0, 0, 0, 2, 2, 5, 5]⟩ : DisjointSets).Unites
        ⟨#[5, 0, 0, 2, 2, 5, 5]⟩ 0 5 := by
  have hInside : 4 < pathAndPair.size := by decide
  have hFind :
      pathAndPair.find 4 =
        (⟨#[0, 0, 0, 2, 2, 5, 5]⟩, 0) := by
    decide
  rcases forest_pathAndPair.search_then_link hInside with
    ⟨final, root, hFound, _, hRoot, _, _, _, hSame, hLink⟩
  rw [hFind] at hFound
  cases hFound
  exact ⟨forest_pathAndPair, hInside, hFind, hRoot, hSame,
    hLink 0 5 (by decide) (by decide) (by decide) (by decide)
      (by decide)⟩

end DisjointSets

end JointMax
