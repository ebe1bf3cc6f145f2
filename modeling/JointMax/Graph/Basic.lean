import JointMax.Graph.Edge
import JointMax.Table.Basic
import Std.Data.ExtTreeSet

/-
  Factor graphs: tables under factor ids, in the order of
  their first insertion, and for each variable the factors
  that depend on it. The second part is kept up to date as
  factors come and go.

  Key definitions include:
    * `Graph`
    * `Graph.setFactor` and `Graph.removeFactor`
    * `Graph.factorsOf`, `Graph.scopeOf?`, `Graph.axis?`,
      `Graph.edges`
-/

------------------------------------------------------------
-- Incidence
------------------------------------------------------------

namespace JointMax

/- The factors that depend on each variable. -/
abbrev Incidence :=
  Std.ExtTreeMap VarId (Std.ExtTreeSet FactorId)

namespace Incidence

/- Note that a factor depends on a variable. -/
def attach
    (incidence : Incidence)
    (factor : FactorId)
    (var : VarId) : Incidence :=
  incidence.insert var
    ((incidence.getD var ∅).insert factor)

/-
  Note that a factor no longer depends on a variable. The
  variable goes with its last factor.
-/
def detach
    (incidence : Incidence)
    (factor : FactorId)
    (var : VarId) : Incidence :=
  match incidence[var]? with
  | some factors =>
      let others := factors.erase factor
      if others.isEmpty then incidence.erase var
      else incidence.insert var others
  | none => incidence

end Incidence

end JointMax

------------------------------------------------------------
-- Graphs
------------------------------------------------------------

namespace JointMax

/- Factors by id, beside the incidence derived from them. -/
structure Graph (α : Type) where
  factors : List (FactorId × Table α)
  incidence : Incidence

namespace Graph

variable {α : Type}

def empty : Graph α := ⟨[], ∅⟩

/- Replace what is under an id, or append a new entry. -/
def putFactor
    {β : Type}
    (factor : FactorId)
    (item : β) : List (FactorId × β) → List (FactorId × β)
  | [] => [(factor, item)]
  | entry :: entries =>
      if entry.1 = factor then
        (factor, item) :: entries
      else
        entry :: putFactor factor item entries

/- The table under an id. -/
def factor? (graph : Graph α) (factor : FactorId) :
    Option (Table α) :=
  graph.factors.lookup factor

/-
  Insert or replace a factor. A replaced factor keeps its
  place and leaves the variables that it has lost.
-/
def setFactor
    (graph : Graph α)
    (factor : FactorId)
    (table : Table α) : Graph α :=
  let attached :=
    table.vars.foldl (Incidence.attach · factor)
      graph.incidence
  let lost :=
    match graph.factor? factor with
    | some old => old.vars.filter (!table.dependsOn ·)
    | none => []
  { factors := putFactor factor table graph.factors
    incidence :=
      lost.foldl (Incidence.detach · factor) attached }

/- Remove a factor; the others keep their order. -/
def removeFactor
    (graph : Graph α)
    (factor : FactorId) : Graph α :=
  match graph.factor? factor with
  | some old =>
      { factors :=
          graph.factors.filter fun entry =>
            entry.1 != factor
        incidence :=
          old.vars.foldl (Incidence.detach · factor)
            graph.incidence }
  | none => graph

/- Factors inserted one after another. -/
def ofFactors (factors : List (FactorId × Table α)) :
    Graph α :=
  factors.foldl (fun graph entry =>
    graph.setFactor entry.1 entry.2) empty

end Graph

end JointMax

------------------------------------------------------------
-- Queries
------------------------------------------------------------

namespace JointMax

namespace Graph

variable {α : Type}

def factorCount (graph : Graph α) : Nat :=
  graph.factors.length

def varCount (graph : Graph α) : Nat :=
  graph.incidence.size

def isEmpty (graph : Graph α) : Bool :=
  graph.factors.isEmpty

/- Variables of the graph, in increasing order. -/
def vars (graph : Graph α) : List VarId :=
  graph.incidence.keys

def containsVar (graph : Graph α) (var : VarId) : Bool :=
  graph.incidence.contains var

/- Factors that depend on a variable, in increasing order. -/
def factorsOf (graph : Graph α) (var : VarId) :
    List FactorId :=
  (graph.incidence.getD var ∅).toList

/- Variables that a factor depends on. -/
def scopeOf? (graph : Graph α) (factor : FactorId) :
    Option (List VarId) :=
  (graph.factor? factor).map Table.vars

/-
  A variable with its size, as the least factor that depends
  on it sees it.
-/
def axis? (graph : Graph α) (var : VarId) : Option Axis :=
  match graph.factorsOf var with
  | factor :: _ =>
      match graph.factor? factor with
      | some table => table.scope.axis? var
      | none => none
  | [] => none

def varSize? (graph : Graph α) (var : VarId) : Option Nat :=
  (graph.axis? var).map Axis.size

/- Edges, factor by factor. -/
def edges (graph : Graph α) : List Edge :=
  graph.factors.flatMap fun entry =>
    entry.2.vars.map fun var => ⟨entry.1, var⟩

/- Edges in their own order. -/
def sortedEdges (graph : Graph α) : List Edge :=
  graph.edges.mergeSort fun left right =>
    (Edge.order left right).isLE

end Graph

end JointMax
