import JointMax.Wire.Bytes
import JointMax.Graph.Basic
import JointMax.Solver.Config

/-
  Bytes of scopes, tables, registries, graphs and the data of
  runs. Reading checks each value as soon as its own bytes
  have been read, so nothing invalid comes in.

  Key definitions include, for each of these types, a pair
  `toBytes` and `read`.
-/

------------------------------------------------------------
-- Scopes and Tables
------------------------------------------------------------

namespace JointMax

namespace Scope

/- The variables, and then their sizes. -/
def toBytes (scope : Scope) : Bytes :=
  Wire.listBytes Wire.varBytes scope.vars ++
    Wire.listBytes Wire.sizeBytes scope.sizes

def read : Reader Scope := do
  let vars ← Wire.readList Wire.readVar
  let sizes ← Wire.readList Wire.readSize
  Wire.accept (ofParts? vars sizes)

end Scope

namespace Table

variable {α : Type} [Binary64 α]

/-
  The scope, and then the values as a one-dimensional array:
  the version of the array format, which is one, the
  dimension, and the list of values.
-/
def toBytes (table : Table α) : Bytes :=
  table.scope.toBytes ++ [1] ++
    Wire.sizeBytes table.values.size ++
    Wire.listBytes Wire.numberBytes table.values.toList

/- The values of a one-dimensional array. -/
def readArray : Reader (Array α) := do
  let version ← Wire.readByte
  if version = 1 then
    let dimension ← Wire.readSize
    let values ← Wire.readList Wire.readNumber
    if values.length = dimension then
      return values.toArray
    else
      throw .badDimension
  else
    throw (.badVersion version.toNat)

def read : Reader (Table α) := do
  let scope ← Scope.read
  let values ← readArray
  Wire.accept (ofValues? scope values)

end Table

end JointMax

------------------------------------------------------------
-- Registries and Graphs
------------------------------------------------------------

namespace JointMax

namespace Registry

/- Variables with their sizes, in increasing order. -/
def toBytes (registry : Registry) : Bytes :=
  Wire.listBytes
    (fun pair =>
      Wire.varBytes pair.1 ++ Wire.sizeBytes pair.2)
    registry.toList

def readPair : Reader (VarId × Nat) := do
  let var ← Wire.readVar
  let size ← Wire.readSize
  return (var, size)

/-
  The last size of a repeated variable counts. The sizes are
  checked by increasing variable, after all were read.
-/
def read : Reader Registry := do
  let pairs ← Wire.readList readPair
  let sizes : Std.ExtTreeMap VarId Nat :=
    Std.ExtTreeMap.ofList pairs
  Wire.accept (ofPairs? sizes.toList)

end Registry

namespace Graph

variable {α : Type} [Binary64 α]

/- Factors in their order. The incidence is not written. -/
def toBytes (graph : Graph α) : Bytes :=
  Wire.listBytes
    (fun entry =>
      Wire.varBytes entry.1 ++ entry.2.toBytes)
    graph.factors

def readFactor : Reader (FactorId × Table α) := do
  let factor ← Wire.readVar
  let table ← Table.read
  return (factor, table)

/-
  Factors are inserted as they come, so that a repeated id
  keeps its first place and its last table.
-/
def read : Reader (Graph α) := do
  let factors ← Wire.readList readFactor
  return ofFactors factors

end Graph

end JointMax

------------------------------------------------------------
-- Data of Runs
------------------------------------------------------------

namespace JointMax

namespace Config

variable {α : Type} [Binary64 α]

def toBytes (config : Config α) : Bytes :=
  Wire.sizeBytes config.maxIterations ++
    Wire.numberBytes config.tolerance ++
    Wire.boolBytes config.parallel

def read : Reader (Config α) := do
  let maxIterations ← Wire.readSize
  let tolerance ← Wire.readNumber
  let parallel ← Wire.readBool
  return ⟨maxIterations, tolerance, parallel⟩

end Config

namespace RunStats

variable {α : Type} [Binary64 α]

def toBytes (stats : RunStats α) : Bytes :=
  Wire.sizeBytes stats.iterations ++
    Wire.boolBytes stats.converged ++
    Wire.numberBytes stats.maxDelta

def read : Reader (RunStats α) := do
  let iterations ← Wire.readSize
  let converged ← Wire.readBool
  let maxDelta ← Wire.readNumber
  return ⟨iterations, converged, maxDelta⟩

end RunStats

end JointMax
