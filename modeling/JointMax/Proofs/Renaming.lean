import Mathlib
import JointMax.Proofs.Exchange

/-
  Renaming variables and factors. A renamed scope is sorted
  again, so the values of a renamed table stand in another
  order; as a function of choices it is the same table. A
  graph with renamed factors has the renamed incidence.

  Main declarations:
    * `Renaming`, injective on both kinds of ids
    * `Scope.rename` and `Table.rename`
    * `Table.eval_rename`
    * `Graph.Renamed` and `Graph.Renamed.touches_iff`
-/

------------------------------------------------------------
-- Renamings
------------------------------------------------------------

namespace JointMax

/- New names of variables and of factors, all distinct. -/
structure Renaming where
  var : VarId → VarId
  factor : FactorId → FactorId
  var_injective : Function.Injective var
  factor_injective : Function.Injective factor

namespace Renaming

def edge (naming : Renaming) (edge : Edge) : Edge :=
  ⟨naming.factor edge.factor, naming.var edge.var⟩

variable (naming : Renaming)

/- There are as many names as ids, so all names are used. -/
theorem var_surjective :
    Function.Surjective naming.var :=
  Finite.injective_iff_surjective.mp naming.var_injective

theorem factor_surjective :
    Function.Surjective naming.factor :=
  Finite.injective_iff_surjective.mp naming.factor_injective

end Renaming

end JointMax

------------------------------------------------------------
-- Scopes and Tables
------------------------------------------------------------

namespace JointMax

namespace Axis

def rename (naming : Renaming) (axis : Axis) : Axis :=
  { axis with var := naming.var axis.var }

def NotAfter (left right : Axis) : Prop :=
  left.var ≤ right.var

instance : DecidableRel NotAfter := fun left right =>
  inferInstanceAs (Decidable (left.var ≤ right.var))

instance : Std.Total NotAfter where
  total left right := UInt32.le_total left.var right.var

instance : IsTrans Axis NotAfter where
  trans _ _ _ := UInt32.le_trans

theorem sorted_insertionSort
    {axes : List Axis}
    (hNodup : (axes.map var).Nodup) :
    Sorted (axes.insertionSort NotAfter) := by
  have hOrdered := axes.pairwise_insertionSort NotAfter
  have hPerm := (axes.perm_insertionSort NotAfter).symm
  have hDistinct :
      (axes.insertionSort NotAfter).Pairwise
        fun left right => left.var ≠ right.var :=
    hPerm.pairwise (List.pairwise_map.mp hNodup)
      fun hNe => hNe.symm
  apply hOrdered.imp₂ _ hDistinct
  intro left right hNotAfter hNe
  exact UInt32.lt_of_le_of_ne hNotAfter hNe

end Axis

namespace Scope

/- Every axis with its new name, in their new order. -/
def rename (naming : Renaming) (scope : Scope) : Scope where
  axes :=
    (scope.axes.map (Axis.rename naming)).insertionSort
      Axis.NotAfter
  sorted := by
    apply Axis.sorted_insertionSort
    have hNodup :=
      scope.nodup_vars.map naming.var_injective
    rw [vars, List.map_map] at hNodup
    rw [List.map_map]
    exact hNodup

variable {naming : Renaming} {scope : Scope}

theorem perm_rename :
    (scope.rename naming).axes.Perm
      (scope.axes.map (Axis.rename naming)) :=
  List.perm_insertionSort _ _

theorem perm_vars_rename :
    (scope.rename naming).vars.Perm
      (scope.vars.map naming.var) := by
  have hVars :
      (scope.rename naming).vars.Perm
        ((scope.axes.map (Axis.rename naming)).map
          Axis.var) :=
    perm_rename.map Axis.var
  rw [List.map_map] at hVars
  rw [vars, vars, List.map_map]
  exact hVars

theorem mem_axes_rename
    {axis : Axis}
    (hAxis : axis ∈ scope.axes) :
    axis.rename naming ∈ (scope.rename naming).axes :=
  perm_rename.mem_iff.mpr (List.mem_map_of_mem hAxis)

theorem mem_vars_rename {var : VarId} :
    naming.var var ∈ (scope.rename naming).vars ↔
      var ∈ scope.vars := by
  rw [perm_vars_rename.mem_iff,
    List.mem_map_of_injective naming.var_injective]

theorem rename_ofAxis (axis : Axis) :
    (ofAxis axis).rename naming =
      ofAxis (axis.rename naming) := by
  rfl

/- A choice for the new names is one for the old names. -/
theorem admits_rename {choice : VarId → Nat} :
    (scope.rename naming).Admits choice ↔
      scope.Admits (choice ∘ naming.var) := by
  unfold Admits
  simp only [perm_rename.mem_iff, List.forall_mem_map]
  rfl

end Scope

namespace Table

variable {α : Type} [Scalar α]

/- The same function of the variables under new names. -/
def rename
    (naming : Renaming)
    (table : Table α) : Table α :=
  let scope := table.scope.rename naming
  tabulate scope fun digits =>
    table.eval fun var =>
      (aligned scope.vars digits (naming.var var)).getD 0

variable {naming : Renaming} {table : Table α}

theorem eval_rename
    {choice : VarId → Nat}
    (hAdmits : (table.scope.rename naming).Admits choice) :
    (table.rename naming).eval choice =
      table.eval (choice ∘ naming.var) := by
  unfold rename
  rw [eval_tabulate hAdmits]
  apply eval_congr
  intro var hVar
  have hName :
      naming.var var ∈ (table.scope.rename naming).vars :=
    Scope.mem_vars_rename.mpr hVar
  exact congrArg (Option.getD · 0)
    (Scope.aligned_vars choice hName)

/- A renamed table over one variable, told by its cells. -/
theorem eq_rename
    {axis : Axis}
    {renamed : Table α}
    (hScope : table.scope = Scope.ofAxis axis)
    (hOther :
      renamed.scope = Scope.ofAxis (axis.rename naming))
    (hCell : ∀ value < axis.size,
      renamed.cell value = table.cell value) :
    renamed = table.rename naming := by
  have hSame :
      renamed.scope = table.scope.rename naming := by
    rw [hOther, hScope, Scope.rename_ofAxis]
  apply ext_eval hSame
  intro choice hAdmits
  rw [eval_rename (hSame ▸ hAdmits), eval_ofAxis hOther,
    eval_ofAxis hScope]
  apply hCell
  rw [hOther, Scope.admits_ofAxis] at hAdmits
  exact hAdmits

/- A table over one variable keeps its values in place. -/
theorem rename_ofAxis
    {axis : Axis}
    (hScope : table.scope = Scope.ofAxis axis) :
    (table.rename naming).scope =
        Scope.ofAxis (axis.rename naming) ∧
      (table.rename naming).values = table.values := by
  let moved : Table α :=
    { scope := Scope.ofAxis (axis.rename naming)
      values := table.values
      size_eq := by
        rw [table.size_eq, hScope, Scope.count_ofAxis,
          Scope.count_ofAxis]
        rfl }
  have hMoved : moved = table.rename naming :=
    eq_rename hScope rfl fun _ _ => rfl
  rw [← hMoved]
  exact ⟨rfl, rfl⟩

end Table

end JointMax

------------------------------------------------------------
-- Graphs
------------------------------------------------------------

namespace JointMax

namespace Graph

variable {α : Type} [Scalar α]

/- The second graph has the renamed factors of the first. -/
def Renamed
    (naming : Renaming)
    (first second : Graph α) : Prop :=
  second.factors.Perm
    (first.factors.map fun entry =>
      (naming.factor entry.1, entry.2.rename naming))

namespace Renamed

variable {naming : Renaming} {first second : Graph α}

theorem factor?_eq
    (hRenamed : Renamed naming first second)
    (hFirst : first.Coherent)
    (hSecond : second.Coherent)
    (factor : FactorId) :
    second.factor? (naming.factor factor) =
      (first.factor? factor).map (Table.rename naming) := by
  apply Option.ext
  intro table
  rw [hSecond.factor?_eq_some_iff, hRenamed.mem_iff,
    List.mem_map, Option.map_eq_some_iff]
  constructor
  · rintro ⟨⟨id, old⟩, hEntry, hSame⟩
    rcases Prod.mk.inj hSame with ⟨hId, rfl⟩
    rw [← naming.factor_injective hId]
    exact ⟨old, hFirst.factor?_eq_some_iff.mpr hEntry, rfl⟩
  · rintro ⟨old, hOld, rfl⟩
    exact ⟨(factor, old),
      hFirst.factor?_eq_some_iff.mp hOld, rfl⟩

variable (hRenamed : Renamed naming first second)
variable (hFirst : first.Coherent)
variable (hSecond : second.Coherent)

include hRenamed hFirst hSecond

theorem touches_iff
    {factor : FactorId}
    {var : VarId} :
    second.Touches (naming.factor factor) (naming.var var) ↔
      first.Touches factor var := by
  unfold Touches
  rw [hRenamed.factor?_eq hFirst hSecond]
  constructor
  · rintro ⟨table, hTable, hVar⟩
    rcases Option.map_eq_some_iff.mp hTable with
      ⟨old, hOld, rfl⟩
    exact ⟨old, hOld, Scope.mem_vars_rename.mp hVar⟩
  · rintro ⟨old, hOld, hVar⟩
    rw [hOld]
    exact ⟨_, rfl, Scope.mem_vars_rename.mpr hVar⟩

theorem mem_edges_iff {edge : Edge} :
    naming.edge edge ∈ second.edges ↔
      edge ∈ first.edges := by
  rw [hFirst.mem_edges, hSecond.mem_edges]
  exact hRenamed.touches_iff hFirst hSecond

theorem perm_vars :
    second.vars.Perm (first.vars.map naming.var) := by
  have hFirstNodup : first.vars.Nodup :=
    first.increasing_vars.imp UInt32.ne_of_lt
  have hSecondNodup : second.vars.Nodup :=
    second.increasing_vars.imp UInt32.ne_of_lt
  rw [List.perm_ext_iff_of_nodup hSecondNodup
    (hFirstNodup.map naming.var_injective)]
  intro name
  rcases naming.var_surjective name with ⟨var, rfl⟩
  rw [List.mem_map_of_injective naming.var_injective,
    hFirst.mem_vars, hSecond.mem_vars]
  constructor
  · rintro ⟨name, hTouches⟩
    rcases naming.factor_surjective name with ⟨factor, rfl⟩
    exact ⟨factor,
      (hRenamed.touches_iff hFirst hSecond).mp hTouches⟩
  · rintro ⟨factor, hTouches⟩
    exact ⟨naming.factor factor,
      (hRenamed.touches_iff hFirst hSecond).mpr hTouches⟩

/- A variable has its renamed factors under its new name. -/
theorem factorsOf_eq (var : VarId) :
    (second.factorsOf (naming.var var)).toFinset =
      (first.factorsOf var).toFinset.image naming.factor := by
  ext name
  rcases naming.factor_surjective name with ⟨factor, rfl⟩
  rw [naming.factor_injective.mem_finset_image,
    List.mem_toFinset, List.mem_toFinset,
    hFirst.mem_factorsOf, hSecond.mem_factorsOf,
    hRenamed.touches_iff hFirst hSecond]

theorem scopeSet_eq (factor : FactorId) :
    second.scopeSet (naming.factor factor) =
      (first.scopeSet factor).image naming.var := by
  ext name
  rcases naming.var_surjective name with ⟨var, rfl⟩
  rw [naming.var_injective.mem_finset_image, mem_scopeSet,
    mem_scopeSet, hRenamed.touches_iff hFirst hSecond]

omit hFirst hSecond in
theorem isEmpty_eq : second.isEmpty = first.isEmpty := by
  unfold isEmpty
  rw [List.Perm.isEmpty_eq hRenamed, List.isEmpty_map]

end Renamed

end Graph

end JointMax
