import Mathlib
import JointMax.Proofs.Invalidation
import JointMax.Proofs.Readers
import JointMax.Proofs.Registration
import JointMax.Proofs.Workbench

/-
  The bytes of scopes, tables, registries and graphs. Each is
  written by way of its parts, lists that nothing has checked
  yet. Valid parts are what the checks demand of them, stated
  without the checks. The readers let in what valid parts
  make and refuse all other bytes, and what has been written
  is read back.

  Main declarations:
    * `Scope.Parts`, `Table.Parts` and `Registry.last?`
    * `Scope.accepts_read`, `Table.accepts_read`,
      `Registry.accepts_read` and `Graph.accepts_read`
    * `LawfulBinary64` and `Wire.ReadsBack`
    * `Wire.readsBack_toBytes`
    * `Wire.Guarded` and `Wire.guarded_read`
-/

------------------------------------------------------------
-- Lists of Identifiers
------------------------------------------------------------

namespace JointMax

/- There are fewer identifiers than lengths. -/
theorem length_lt_wordLimit
    {ids : List UInt32}
    (hNodup : ids.Nodup) :
    ids.length < wordLimit := by
  have hMap : (ids.map UInt32.toFin).Nodup :=
    hNodup.map fun _ _ hSame => UInt32.toFin_inj.mp hSame
  have hCard := hMap.length_le_card
  rw [List.length_map, Fintype.card_fin] at hCard
  exact Nat.lt_of_le_of_lt hCard (by decide)

end JointMax

------------------------------------------------------------
-- Scopes
------------------------------------------------------------

namespace JointMax

namespace Axis

theorem map_size_ofParts?
    {vars : List VarId}
    {sizes : List Nat}
    {axes : List Axis}
    (hLength : vars.length = sizes.length)
    (hAxes : ofParts? vars sizes = .ok axes) :
    axes.map size = sizes := by
  induction vars generalizing sizes axes with
  | nil =>
      cases hAxes
      exact (List.eq_nil_of_length_eq_zero hLength.symm).symm
  | cons var vars ih =>
      cases sizes with
      | nil => simp at hLength
      | cons size sizes =>
          simp only [ofParts?] at hAxes
          split at hAxes
          · rcases exists_of_bind_eq_ok hAxes with
              ⟨rest, hRest, hOk⟩
            cases hOk
            simp [ih (by simpa using hLength) hRest]
          · cases hAxes

/- Positive sizes are not refused. -/
theorem exists_ofParts?
    (vars : List VarId)
    {sizes : List Nat}
    (hSizes : ∀ size ∈ sizes, 1 ≤ size) :
    ∃ axes, ofParts? vars sizes = .ok axes := by
  induction vars generalizing sizes with
  | nil => exact ⟨[], rfl⟩
  | cons var vars ih =>
      cases sizes with
      | nil => exact ⟨[], rfl⟩
      | cons size sizes =>
          rcases List.forall_mem_cons.mp hSizes with
            ⟨hSize, hRest⟩
          rcases ih hRest with ⟨axes, hAxes⟩
          refine ⟨⟨var, size, hSize⟩ :: axes, ?_⟩
          rw [ofParts?, dif_pos (Nat.lt_of_succ_le hSize),
            hAxes]
          rfl

end Axis

namespace Scope

/- A scope passes the checks just if it has these lists. -/
theorem ofParts?_eq_ok_iff
    {vars : List VarId}
    {sizes : List Nat}
    {scope : Scope} :
    ofParts? vars sizes = .ok scope ↔
      scope.vars = vars ∧ scope.sizes = sizes := by
  constructor
  · intro hScope
    unfold ofParts? at hScope
    split at hScope
    · rename_i hLength
      split at hScope
      · split at hScope
        · rename_i axes hAxes
          cases hScope
          exact ⟨Axis.map_var_ofParts? hLength hAxes,
            Axis.map_size_ofParts? hLength hAxes⟩
        · cases hScope
      · cases hScope
    · cases hScope
  · rintro ⟨rfl, rfl⟩
    exact scope.ofParts?_vars

/- The lists of a scope, before any check. -/
structure Parts where
  vars : List VarId
  sizes : List Nat

/-
  Increasing variables, as many sizes, and all of them at
  least one.
-/
def format : Wire.Format Parts Scope where
  valid := fun parts =>
    Increasing parts.vars ∧
      parts.sizes.length = parts.vars.length ∧
      ∀ size ∈ parts.sizes, 1 ≤ size ∧ size < wordLimit
  makes := fun parts scope =>
    scope.vars = parts.vars ∧ scope.sizes = parts.sizes
  write := fun parts =>
    Wire.listBytes Wire.varBytes parts.vars ++
      Wire.listBytes Wire.sizeBytes parts.sizes

def parts (scope : Scope) : Parts :=
  ⟨scope.vars, scope.sizes⟩

theorem parts_of_makes
    {parts : Parts}
    {scope : Scope}
    (hMakes : format.makes parts scope) :
    scope.parts = parts := by
  rcases parts with ⟨vars, sizes⟩
  rcases hMakes with ⟨rfl, rfl⟩
  rfl

theorem valid_parts
    {scope : Scope}
    (hSizes : ∀ size ∈ scope.sizes, size < wordLimit) :
    format.valid scope.parts :=
  ⟨scope.increasing_vars, scope.wellFormed.aligned,
    fun size hSize =>
      ⟨scope.wellFormed.positive size hSize,
        hSizes size hSize⟩⟩

theorem total_format : format.Total := by
  rintro ⟨vars, sizes⟩ ⟨hVars, hLength, hSizes⟩
  rcases Axis.exists_ofParts? vars
      fun size hSize => (hSizes size hSize).1 with
    ⟨axes, hAxes⟩
  have hMapVars := Axis.map_var_ofParts? hLength.symm hAxes
  exact ⟨⟨axes, Axis.sorted_iff.mpr (hMapVars ▸ hVars)⟩,
    hMapVars, Axis.map_size_ofParts? hLength.symm hAxes⟩

theorem accepts_read : Wire.Accepts read format.form := by
  refine (Wire.accepts_readVar.readList.bind fun vars =>
    Wire.accepts_readSize.readList.bind fun sizes =>
      Wire.accepts_accept (ofParts? vars sizes)).congr ?_
  intro scope taken
  simp only [Wire.varFormat, Wire.sizeFormat,
    Wire.Format.form_list_plain, ofParts?_eq_ok_iff]
  constructor
  · rintro
      ⟨_, _, _, ⟨_, rfl⟩,
        ⟨_, _, _, ⟨⟨_, hSizes⟩, rfl⟩, ⟨⟨rfl, rfl⟩, rfl⟩,
          rfl⟩, rfl⟩
    refine ⟨scope.parts, valid_parts hSizes, ⟨rfl, rfl⟩, ?_⟩
    rw [List.append_nil]
    rfl
  · rintro ⟨parts, hValid, hMakes, rfl⟩
    rcases hValid with ⟨hVars, hLength, hSizes⟩
    have hWord : parts.vars.length < wordLimit :=
      length_lt_wordLimit (nodup_of_increasing hVars)
    exact ⟨parts.vars, _, _, ⟨⟨hWord, by simp⟩, rfl⟩,
      ⟨parts.sizes, _, [],
        ⟨⟨hLength ▸ hWord,
          fun size hSize => (hSizes size hSize).2⟩, rfl⟩,
        ⟨hMakes, rfl⟩, (List.append_nil _).symm⟩, rfl⟩

end Scope

end JointMax

------------------------------------------------------------
-- Bits of Numbers
------------------------------------------------------------

namespace JointMax

/- Numbers that their bits determine. -/
class LawfulBinary64 (α : Type) [Binary64 α] : Prop where
  ofBits_toBits : ∀ x : α,
    Binary64.ofBits (Binary64.toBits x) = x

instance : LawfulBinary64 Float where
  ofBits_toBits := Float.ofBits_toBits

instance : LawfulBinary64 DoubleBits where
  ofBits_toBits := fun _ => rfl

/-
  There is but one `Float` that is not a number. All others
  have the bits that they are made of.
-/
theorem toBits_ofBits_float
    {word : UInt64}
    (hNumber : (Float.ofBits word).isNaN = false) :
    (Float.ofBits word).toBits = word := by
  have hValid :
      Float.Model.Format.binary64.Valid word.toBitVec := by
    refine ⟨fun hExponent hMantissa => ?_⟩
    have hUnpack :
        Float.Model.UnpackedFloat.unpack
            Float.Model.Format.binary64 word.toBitVec =
          .notANumber := by
      simp [Float.Model.UnpackedFloat.unpack, hExponent,
        hMantissa]
    have hNaN : (Float.ofBits word).isNaN = true := by
      change (Float.ofModel (.pack
        (Float.Model.UnpackedFloat.unpack
          Float.Model.Format.binary64
            word.toBitVec))).isNaN = true
      rw [hUnpack]
      decide +kernel
    rw [hNumber] at hNaN
    cases hNaN
  exact congrArg Float.toBits
    (Float.ofBits_toBits (Float.ofModel ⟨word, hValid⟩))

end JointMax

------------------------------------------------------------
-- Tables
------------------------------------------------------------

namespace JointMax

namespace Table

variable {α : Type} [Binary64 α]

/- The lists of a table, with the bits of its values. -/
structure Parts where
  scope : Scope.Parts
  words : List UInt64

/-
  A valid scope, and one value for each joint value of its
  variables. The array says its version, and its length
  twice.
-/
def format : Wire.Format Parts (Table α) where
  valid := fun parts =>
    Scope.format.valid parts.scope ∧
      parts.words.length = parts.scope.sizes.prod ∧
      parts.words.length < wordLimit
  makes := fun parts table =>
    Scope.format.makes parts.scope table.scope ∧
      table.values.toList = parts.words.map Binary64.ofBits
  write := fun parts =>
    Scope.format.write parts.scope ++ [1] ++
      Wire.sizeBytes parts.words.length ++
      Wire.listBytes
        (fun word => Wire.littleEndian 8 word.toNat)
        parts.words

def parts (table : Table α) : Parts :=
  ⟨table.scope.parts,
    table.values.toList.map Binary64.toBits⟩

theorem toBytes_eq (table : Table α) :
    table.toBytes = (format (α := α)).write table.parts := by
  simp only [toBytes, format, parts, Wire.listBytes,
    List.length_map, Array.length_toList,
    List.flatMap_map]
  rfl

theorem valid_parts
    {table : Table α}
    (hWords : table.scope.count < wordLimit) :
    (format (α := α)).valid table.parts := by
  have hLength :
      table.parts.words.length = table.scope.sizes.prod := by
    rw [parts, List.length_map, Array.length_toList,
      table.wellFormed.counted]
    rfl
  have hCount :
      table.parts.words.length = table.scope.count := by
    rw [hLength, Scope.count, MixedRadix.count_eq_prod]
  refine ⟨Scope.valid_parts ?_, hLength, hCount ▸ hWords⟩
  intro size hSize
  apply Nat.lt_of_le_of_lt _ hWords
  rw [Scope.count, MixedRadix.count_eq_prod]
  exact Nat.le_of_dvd (by
    rw [← MixedRadix.count_eq_prod]
    exact table.scope.count_pos) (List.dvd_prod hSize)

theorem makes_parts [LawfulBinary64 α] (table : Table α) :
    format.makes table.parts table := by
  refine ⟨⟨rfl, rfl⟩, ?_⟩
  rw [parts, List.map_map]
  symm
  exact List.map_id'' LawfulBinary64.ofBits_toBits _

theorem total_format : (format (α := α)).Total := by
  rintro ⟨scopeParts, words⟩ ⟨hScope, hLength, _⟩
  rcases Scope.total_format scopeParts hScope with
    ⟨scope, hMakes⟩
  refine ⟨⟨scope, (words.map Binary64.ofBits).toArray, ?_⟩,
    hMakes, rfl⟩
  rw [List.size_toArray, List.length_map, hLength,
    ← hMakes.2, Scope.count, MixedRadix.count_eq_prod]

theorem makes_list_number
    {words : List UInt64}
    {values : List α} :
    Wire.numberFormat.list.makes words values ↔
      values = words.map Binary64.ofBits := by
  constructor
  · intro hMakes
    induction hMakes with
    | nil => rfl
    | cons hFirst _ ih => rw [List.map_cons, hFirst, ih]
  · rintro rfl
    exact List.forall₂_map_right_iff.mpr
      (List.forall₂_same.mpr fun _ _ => rfl)

/- The version and the dimension are checked on the way. -/
theorem accepts_readArray :
    Wire.Accepts (readArray (α := α)) fun values taken =>
      ∃ words : List UInt64,
        words.length < wordLimit ∧
          values.toList = words.map Binary64.ofBits ∧
          taken =
            [1] ++ (Wire.sizeBytes words.length ++
              Wire.listBytes
                (fun word => Wire.littleEndian 8 word.toNat)
                words) := by
  refine (Wire.accepts_readByte.bind fun version =>
    (Wire.accepts_readSize.bind fun dimension =>
      Wire.accepts_readNumber.readList.bind fun values =>
        (Wire.accepts_pure values.toArray).guard
          (values.length = dimension)
          .badDimension).guard (version = 1)
            (.badVersion version.toNat)).congr ?_
  intro array taken
  simp only [Wire.sizeFormat, Wire.Format.form_plain]
  simp only [Wire.Format.form, makes_list_number]
  constructor
  · rintro
      ⟨_, _, _, rfl, ⟨rfl, _, _, _, ⟨_, rfl⟩,
        ⟨_, _, _, ⟨words, ⟨hWord, _⟩, rfl, rfl⟩,
          ⟨rfl, rfl, rfl⟩, rfl⟩, rfl⟩, rfl⟩
    refine ⟨words, hWord, rfl, ?_⟩
    rw [List.length_map, List.append_nil]
    rfl
  · rintro ⟨words, hWord, hValues, rfl⟩
    refine ⟨1, _, _, rfl, ⟨rfl, words.length, _, _,
      ⟨hWord, rfl⟩, ⟨array.toList, _, [],
        ⟨words, ⟨hWord, by simp [Wire.numberFormat]⟩,
          hValues, rfl⟩, ⟨?_, by simp, rfl⟩,
        (List.append_nil _).symm⟩, rfl⟩, rfl⟩
    rw [hValues, List.length_map]

theorem accepts_read :
    Wire.Accepts (read (α := α)) format.form := by
  refine (Scope.accepts_read.bind fun scope =>
    accepts_readArray.bind fun values =>
      Wire.accepts_accept (ofValues? scope values)).congr ?_
  intro table taken
  constructor
  · rintro
      ⟨scope, _, _, ⟨scopeParts, hScope, hMakes, rfl⟩,
        ⟨values, _, _, ⟨words, hWord, hValues, rfl⟩,
          ⟨hTable, rfl⟩, rfl⟩, rfl⟩
    unfold ofValues? at hTable
    split at hTable
    · rename_i hSize
      cases hTable
      refine ⟨⟨scopeParts, words⟩, ⟨hScope, ?_, hWord⟩,
        ⟨hMakes, hValues⟩, ?_⟩
      · have hLength := congrArg List.length hValues
        rw [List.length_map, Array.length_toList, hSize,
          Scope.count, MixedRadix.count_eq_prod,
          hMakes.2] at hLength
        exact hLength.symm
      · simp [format]
    · cases hTable
  · rintro
      ⟨parts, ⟨hScope, _, hWord⟩, ⟨hMakes, hValues⟩, rfl⟩
    refine ⟨table.scope, _, _,
      ⟨parts.scope, hScope, hMakes, rfl⟩,
      ⟨table.values, _, [],
        ⟨parts.words, hWord, hValues, rfl⟩,
        ⟨?_, rfl⟩, (List.append_nil _).symm⟩, ?_⟩
    · rw [ofValues?, dif_pos table.size_eq]
    · simp [format]

end Table

end JointMax

------------------------------------------------------------
-- Registries
------------------------------------------------------------

namespace JointMax

namespace Registry

variable {registry : Registry}

/- The size that counts if a variable is listed repeatedly. -/
def last? (pairs : List (VarId × Nat)) (var : VarId) :
    Option Nat :=
  pairs.reverse.lookup var

theorem getElem?_ofList
    (pairs : List (VarId × Nat))
    (var : VarId) :
    (Std.ExtTreeMap.ofList pairs compare)[var]? =
      last? pairs var := by
  rw [Std.ExtTreeMap.ofList_eq_insertMany_empty]
  induction pairs using List.reverseRecOn with
  | nil => simp [last?]
  | append_singleton pairs pair ih =>
      rcases pair with ⟨other, size⟩
      rw [Std.ExtTreeMap.insertMany_append,
        Std.ExtTreeMap.insertMany_list_singleton,
        Std.ExtTreeMap.getElem?_insert, ih, last?, last?,
        List.reverse_append]
      simp only [List.reverse_singleton, List.singleton_append,
        List.lookup_cons, Std.compare_eq_iff_eq]
      by_cases hVar : other = var
      · simp [hVar]
      · simp [hVar, beq_false_of_ne (Ne.symm hVar)]

theorem not_knows_empty (axis : Axis) :
    ¬empty.Knows axis := by
  intro hKnows
  cases hKnows

/- What is made of pairs has seen them all. -/
theorem registered_of_ofPairs?
    {pairs : List (VarId × Nat)}
    (hPairs : ofPairs? pairs = .ok registry) :
    (∀ pair ∈ pairs, 0 < pair.2) ∧
      ∀ axis,
        registry.Knows axis ↔
          (axis.var, axis.size) ∈ pairs := by
  rcases empty.registered_all pairs with
    ⟨kept, refused, hSplit, hRegistered⟩
  unfold ofPairs? at hPairs
  split at hPairs
  · rename_i next hAll
    cases hPairs
    rw [hAll] at hRegistered
    rw [hRegistered.done rfl, List.append_nil] at hSplit
    subst hSplit
    exact ⟨hRegistered.positive, fun axis =>
      (hRegistered.knows axis).trans
        (or_iff_right (not_knows_empty axis))⟩
  · cases hPairs

/- Distinct variables with positive sizes are not refused. -/
theorem exists_ofPairs?
    {pairs : List (VarId × Nat)}
    (hNodup : (pairs.map Prod.fst).Nodup)
    (hPositive : ∀ pair ∈ pairs, 0 < pair.2) :
    ∃ registry, ofPairs? pairs = .ok registry := by
  rcases empty.registered_all pairs with
    ⟨kept, refused, hSplit, hRegistered⟩
  unfold ofPairs?
  split
  · rename_i next hAll
    exact ⟨next, rfl⟩
  · rename_i next fault hAll
    rw [hAll] at hRegistered
    rcases hRegistered.stopped fault rfl with
      ⟨var, size, later, rfl, hFault⟩
    -- The refused variable is listed once, so it is new.
    have hFresh : ∀ known,
        next.Knows known → known.var ≠ var := by
      intro known hKnown
      have hKept :=
        ((hRegistered.knows known).mp hKnown).resolve_left
          (not_knows_empty known)
      rw [hSplit, List.map_append] at hNodup
      exact (List.nodup_append.mp hNodup).2.2 known.var
        (List.mem_map_of_mem hKept) var (by simp)
    rcases exists_register_iff.mpr
        ⟨hPositive (var, size) (by simp [hSplit]),
          fun known hKnown hVar =>
            absurd hVar (hFresh known hKnown)⟩ with
      ⟨found, hFound⟩
    rw [hFault] at hFound
    cases hFound

/-
  Pairs of variables and sizes in any order, where the last
  size of a variable is what counts, and is at least one.
-/
def format : Wire.Format (List (VarId × Nat)) Registry where
  valid := fun pairs =>
    (Wire.varFormat.pair Wire.sizeFormat).list.valid pairs ∧
      ∀ var size, last? pairs var = some size → 1 ≤ size
  makes := fun pairs registry =>
    ∀ axis,
      registry.Knows axis ↔
        last? pairs axis.var = some axis.size
  write := (Wire.varFormat.pair Wire.sizeFormat).list.write

theorem mem_toList_ofList_iff
    {pairs : List (VarId × Nat)}
    {var : VarId}
    {size : Nat} :
    (var, size) ∈
        (Std.ExtTreeMap.ofList pairs compare).toList ↔
      last? pairs var = some size := by
  rw [Std.ExtTreeMap.mem_toList_iff_getElem?_eq_some,
    getElem?_ofList]

theorem exists_ofPairs?_ofList
    {pairs : List (VarId × Nat)}
    (hSizes : ∀ var size,
      last? pairs var = some size → 1 ≤ size) :
    ∃ registry,
      ofPairs?
          (Std.ExtTreeMap.ofList pairs compare).toList =
        .ok registry ∧ format.makes pairs registry := by
  have hNodup :
      ((Std.ExtTreeMap.ofList pairs compare).toList.map
        Prod.fst).Nodup := by
    rw [Std.ExtTreeMap.map_fst_toList_eq_keys]
    exact Std.ExtTreeMap.nodup_keys
  rcases exists_ofPairs? hNodup
      fun pair hPair => hSizes pair.1 pair.2
        (mem_toList_ofList_iff.mp hPair) with
    ⟨registry, hRegistry⟩
  exact ⟨registry, hRegistry, fun axis =>
    ((registered_of_ofPairs? hRegistry).2 axis).trans
      mem_toList_ofList_iff⟩

/- The checks look at the last size of each variable. -/
theorem ofPairs?_ofList_eq_ok_iff
    {pairs : List (VarId × Nat)} :
    ofPairs? (Std.ExtTreeMap.ofList pairs compare).toList =
        .ok registry ↔
      (∀ var size, last? pairs var = some size → 1 ≤ size) ∧
        format.makes pairs registry := by
  constructor
  · intro hRegistry
    rcases registered_of_ofPairs? hRegistry with
      ⟨hPositive, hKnows⟩
    exact ⟨fun var size hLast => hPositive (var, size)
        (mem_toList_ofList_iff.mpr hLast),
      fun axis => (hKnows axis).trans mem_toList_ofList_iff⟩
  · rintro ⟨hSizes, hMakes⟩
    rcases exists_ofPairs?_ofList hSizes with
      ⟨found, hFound, hOther⟩
    rw [hFound]
    exact congrArg Except.ok (eq_of_knows_iff fun axis =>
      (hOther axis).trans (hMakes axis).symm)

theorem total_format : format.Total := by
  rintro pairs ⟨_, hSizes⟩
  rcases exists_ofPairs?_ofList hSizes with
    ⟨registry, _, hMakes⟩
  exact ⟨registry, hMakes⟩

theorem makes_list_pair
    {parts pairs : List (VarId × Nat)} :
    (Wire.varFormat.pair Wire.sizeFormat).list.makes
        parts pairs ↔ parts = pairs := by
  have hEq :
      (Wire.varFormat.pair Wire.sizeFormat).makes = Eq := by
    funext part pair
    simp [Wire.Format.pair, Wire.varFormat, Wire.sizeFormat,
      Wire.Format.plain, Prod.ext_iff]
  rw [Wire.Format.list, hEq, List.forall₂_eq_eq_eq]

theorem accepts_read :
    Wire.Accepts read format.form := by
  refine ((Wire.accepts_readVar.pair
    Wire.accepts_readSize).readList.bind fun pairs =>
      Wire.accepts_accept (ofPairs?
        (Std.ExtTreeMap.ofList pairs compare).toList)).congr ?_
  intro registry taken
  simp only [Wire.Format.form, makes_list_pair,
    ofPairs?_ofList_eq_ok_iff]
  constructor
  · rintro
      ⟨pairs, _, _, ⟨_, hValid, rfl, rfl⟩,
        ⟨⟨hSizes, hMakes⟩, rfl⟩, rfl⟩
    exact ⟨_, ⟨hValid, hSizes⟩, hMakes, List.append_nil _⟩
  · rintro ⟨pairs, ⟨hValid, hSizes⟩, hMakes, rfl⟩
    exact ⟨pairs, _, [], ⟨pairs, hValid, rfl, rfl⟩,
      ⟨⟨hSizes, hMakes⟩, rfl⟩, (List.append_nil _).symm⟩

theorem last?_of_nodup
    {pairs : List (VarId × Nat)}
    (hNodup : (pairs.map Prod.fst).Nodup)
    {var : VarId}
    {size : Nat} :
    last? pairs var = some size ↔ (var, size) ∈ pairs := by
  rw [← getElem?_ofList]
  exact getElem?_ofList_iff hNodup

theorem nodup_toList (registry : Registry) :
    (registry.toList.map Prod.fst).Nodup := by
  have hKeys :
      registry.toList.map Prod.fst = registry.sizes.keys := by
    rw [toList, List.map_map,
      ← Std.ExtTreeMap.map_fst_toList_eq_keys]
    rfl
  rw [hKeys]
  exact Std.ExtTreeMap.nodup_keys

theorem mem_toList_iff {var : VarId} {size : Nat} :
    (var, size) ∈ registry.toList ↔
      ∃ axis,
        registry.Knows axis ∧ axis.var = var ∧
          axis.size = size := by
  unfold toList
  simp only [List.mem_map, Prod.exists, Prod.mk.injEq,
    Std.ExtTreeMap.mem_toList_iff_getElem?_eq_some]
  constructor
  · rintro ⟨_, found, hFound, rfl, rfl⟩
    exact ⟨⟨_, found.val, found.property⟩,
      knows_iff.mpr hFound, rfl, rfl⟩
  · rintro ⟨axis, hKnows, rfl, rfl⟩
    exact ⟨_, _, knows_iff.mp hKnows, rfl, rfl⟩

theorem makes_toList (registry : Registry) :
    format.makes registry.toList registry := by
  intro axis
  rw [last?_of_nodup registry.nodup_toList, mem_toList_iff]
  constructor
  · intro hKnows
    exact ⟨axis, hKnows, rfl, rfl⟩
  · rintro ⟨⟨var, size, hPos⟩, hKnows, hVar, hSize⟩
    cases hVar
    cases hSize
    exact hKnows

theorem valid_toList
    (hSizes : ∀ axis,
      registry.Knows axis → axis.size < wordLimit) :
    format.valid registry.toList := by
  refine ⟨⟨?_, ?_⟩, ?_⟩
  · have hLength := length_lt_wordLimit registry.nodup_toList
    rwa [List.length_map] at hLength
  · rintro ⟨var, size⟩ hPair
    rcases mem_toList_iff.mp hPair with
      ⟨axis, hKnows, _, rfl⟩
    exact ⟨trivial, hSizes axis hKnows⟩
  · intro var size hLast
    rcases mem_toList_iff.mp
        ((last?_of_nodup registry.nodup_toList).mp hLast) with
      ⟨axis, _, _, rfl⟩
    exact axis.size_pos

end Registry

end JointMax

------------------------------------------------------------
-- Graphs
------------------------------------------------------------

namespace JointMax

namespace Graph

variable {α : Type}

/- Factors with different ids are inserted as they are. -/
theorem factors_setFactors
    {graph : Graph α}
    {factors : List (FactorId × Table α)}
    (hNodup :
      ((graph.factors ++ factors).map Prod.fst).Nodup) :
    (factors.foldl (fun graph entry =>
      graph.setFactor entry.1 entry.2) graph).factors =
        graph.factors ++ factors := by
  induction factors generalizing graph with
  | nil => exact (List.append_nil _).symm
  | cons entry entries ih =>
      rcases entry with ⟨factor, table⟩
      have hFresh : graph.factors.lookup factor = none := by
        rw [List.map_append] at hNodup
        apply List.lookup_eq_none_iff.mpr
        intro other hOther
        apply bne_iff_ne.mpr
        exact Ne.symm ((List.nodup_append.mp hNodup).2.2
          other.1 (List.mem_map_of_mem hOther) factor
          (by simp))
      have hPut :
          (graph.setFactor factor table).factors =
            graph.factors ++ [(factor, table)] :=
        putFactor_of_lookup_eq_none hFresh
      rw [List.foldl_cons, ih (by
        rwa [hPut, List.append_assoc]), hPut,
        List.append_assoc]
      rfl

/- The incidence comes back with the factors. -/
theorem Coherent.ofFactors_factors
    {graph : Graph α}
    (hGraph : graph.Coherent) :
    ofFactors graph.factors = graph :=
  (coherent_ofFactors graph.factors).eq_of_factors_eq hGraph
    (factors_setFactors hGraph.nodup)

variable [Binary64 α]

/- Tables in the order in which they are inserted. -/
def format :
    Wire.Format (List (FactorId × Table.Parts)) (Graph α) :=
  (Wire.varFormat.pair Table.format).list.map ofFactors

theorem accepts_read :
    Wire.Accepts (read (α := α)) format.form :=
  (Wire.accepts_readVar.pair
    Table.accepts_read).readList.format_map ofFactors

theorem total_format : (format (α := α)).Total :=
  (((Wire.Format.total_plain _ _).pair
    Table.total_format).list).map ofFactors

def parts (graph : Graph α) :
    List (FactorId × Table.Parts) :=
  graph.factors.map fun entry => (entry.1, entry.2.parts)

theorem toBytes_eq (graph : Graph α) :
    graph.toBytes = (format (α := α)).write graph.parts := by
  simp only [toBytes, Table.toBytes_eq, format, parts,
    Wire.Format.map, Wire.Format.list, Wire.Format.pair,
    Wire.listBytes, List.length_map, List.flatMap_map]
  rfl

theorem Coherent.valid_parts
    {graph : Graph α}
    (hGraph : graph.Coherent)
    (hWords : ∀ entry ∈ graph.factors,
      entry.2.scope.count < wordLimit) :
    (format (α := α)).valid graph.parts := by
  refine ⟨?_, ?_⟩
  · have hLength := length_lt_wordLimit hGraph.nodup
    rw [List.length_map] at hLength
    rwa [parts, List.length_map]
  · intro part hPart
    rcases List.mem_map.mp hPart with ⟨entry, hEntry, rfl⟩
    exact ⟨trivial, Table.valid_parts (hWords entry hEntry)⟩

theorem Coherent.makes_parts
    [LawfulBinary64 α]
    {graph : Graph α}
    (hGraph : graph.Coherent) :
    format.makes graph.parts graph := by
  refine ⟨graph.factors, ?_, hGraph.ofFactors_factors⟩
  apply List.forall₂_map_left_iff.mpr
  exact List.forall₂_same.mpr fun entry _ =>
    ⟨rfl, entry.2.makes_parts⟩

end Graph

end JointMax

------------------------------------------------------------
-- Configurations
------------------------------------------------------------

namespace JointMax

namespace Config

variable {α : Type} [Binary64 α]

/- The number of sweeps, the tolerance, and the last byte. -/
theorem accepts_read :
    Wire.Accepts (read (α := α)) fun config taken =>
      config.maxIterations < wordLimit ∧
        ∃ word : UInt64,
          config.tolerance = Binary64.ofBits word ∧
            taken =
              Wire.sizeBytes config.maxIterations ++
                (Wire.littleEndian 8 word.toNat ++
                  Wire.boolBytes config.parallel) := by
  refine (Wire.accepts_readSize.bind fun maxIterations =>
    Wire.accepts_readNumber.bind fun tolerance =>
      Wire.accepts_readBool.map fun parallel =>
        (⟨maxIterations, tolerance, parallel⟩ :
          Config α)).congr ?_
  intro config taken
  simp only [Wire.sizeFormat, Wire.boolFormat,
    Wire.Format.form_plain]
  constructor
  · rintro
      ⟨_, _, _, ⟨hWord, rfl⟩,
        ⟨_, _, _, ⟨word, _, rfl, rfl⟩,
          ⟨_, rfl, _, rfl⟩, rfl⟩, rfl⟩
    exact ⟨hWord, word, rfl, rfl⟩
  · rintro ⟨hWord, word, hTolerance, rfl⟩
    exact ⟨_, _, _, ⟨hWord, rfl⟩,
      ⟨_, _, _, ⟨word, trivial, hTolerance, rfl⟩,
        ⟨_, rfl, trivial, rfl⟩, rfl⟩, rfl⟩

end Config

end JointMax

------------------------------------------------------------
-- Reading What Was Written
------------------------------------------------------------

namespace JointMax

namespace Wire

variable {α : Type} [Binary64 α]

/-
  What is written is read back as it was, and what follows
  it is left. All that is needed is that sizes are words. For
  a graph, which comes out of any history, the incidence is
  the same too, though only the factors are written.
-/
structure ReadsBack
    (α : Type)
    [Binary64 α]
    (rest : Bytes) : Prop where
  scope : ∀ scope : Scope,
    (∀ size ∈ scope.sizes, size < wordLimit) →
      Scope.read.run (scope.toBytes ++ rest) =
        .ok (scope, rest)
  table : ∀ table : Table α,
    table.scope.count < wordLimit →
      (Table.read (α := α)).run (table.toBytes ++ rest) =
        .ok (table, rest)
  registry : ∀ registry : Registry,
    (∀ var size,
      registry.size? var = .ok size → size.val < wordLimit) →
      Registry.read.run (registry.toBytes ++ rest) =
        .ok (registry, rest)
  config : ∀ config : Config α,
    config.maxIterations < wordLimit →
      (Config.read (α := α)).run (config.toBytes ++ rest) =
        .ok (config, rest)
  graph : ∀ changes (graph : Graph α),
    graph = Graph.empty.afterAll changes →
      (∀ entry ∈ graph.factors,
        entry.2.scope.count < wordLimit) →
      (Graph.read (α := α)).run (graph.toBytes ++ rest) =
        .ok (graph, rest)

theorem readsBack_toBytes
    [LawfulBinary64 α]
    (rest : Bytes) :
    ReadsBack α rest where
  scope := by
    intro scope hSizes
    exact Scope.accepts_read.run_write
      (Scope.valid_parts hSizes) ⟨rfl, rfl⟩ rest
  table := by
    intro table hWords
    rw [Table.toBytes_eq]
    exact Table.accepts_read.run_write
      (Table.valid_parts hWords) table.makes_parts rest
  registry := by
    intro registry hSizes
    exact Registry.accepts_read.run_write
      (Registry.valid_toList fun axis hKnows =>
        hSizes axis.var _ hKnows)
      registry.makes_toList rest
  config := by
    intro config hWord
    apply (Config.accepts_read _ config rest).mpr
    refine ⟨_, ⟨hWord, Binary64.toBits config.tolerance,
      (LawfulBinary64.ofBits_toBits _).symm, rfl⟩, ?_⟩
    rw [Config.toBytes, List.append_assoc]
    rfl
  graph := by
    rintro changes graph rfl hWords
    have hGraph :
        ((Graph.empty : Graph α).afterAll changes).Coherent :=
      Graph.coherent_empty.afterAll changes
    rw [Graph.toBytes_eq]
    exact Graph.accepts_read.run_write
      (hGraph.valid_parts hWords) hGraph.makes_parts rest

/- The replaced factor is written in its first place. -/
theorem readsBack_replaced :
    let first : Table DoubleBits :=
      Table.filled (Scope.ofAxis ⟨3, 2, by decide⟩) ⟨5⟩
    let second : Table DoubleBits :=
      Table.filled (Scope.ofAxis ⟨4, 1, by decide⟩) ⟨6⟩
    let graph : Graph DoubleBits :=
      Graph.empty.afterAll
        [.setFactor 7 first, .setFactor 2 first,
          .setFactor 7 second]
    graph.factors = [(7, second), (2, first)] ∧
      Graph.read.run (graph.toBytes ++ [9]) =
        .ok (graph, [9]) := by
  intro first second graph
  have hFactors :
      graph.factors = [(7, second), (2, first)] := by
    decide +kernel
  refine ⟨hFactors,
    (readsBack_toBytes [9]).graph _ graph rfl ?_⟩
  rw [hFactors]
  decide

end Wire

end JointMax

------------------------------------------------------------
-- Letting Nothing Else In
------------------------------------------------------------

namespace JointMax

namespace Wire

/- What is read had been written, byte for byte. -/
def Canonical
    {β : Type}
    (reader : Reader β)
    (write : β → Bytes) : Prop :=
  ∀ bytes value rest,
    reader.run bytes = .ok (value, rest) →
      bytes = write value ++ rest

/- No two encodings are read as one value. -/
theorem Canonical.unique
    {β : Type}
    {reader : Reader β}
    {write : β → Bytes}
    (hReader : Canonical reader write)
    {first second rest : Bytes}
    {value : β}
    (hFirst : reader.run first = .ok (value, rest))
    (hSecond : reader.run second = .ok (value, rest)) :
    first = second :=
  (hReader first value rest hFirst).trans
    (hReader second value rest hSecond).symm

end Wire

theorem Scope.canonical_read :
    Wire.Canonical read toBytes := by
  intro bytes scope rest hRead
  rcases (accepts_read bytes scope rest).mp hRead with
    ⟨_, ⟨parts, _, hMakes, rfl⟩, rfl⟩
  rw [← parts_of_makes hMakes]
  rfl

/-
  The bytes of a table are written again, unless one of its
  values stands for other bits than its own.
-/
theorem Table.eq_toBytes_of_read
    {α : Type}
    [Binary64 α]
    {bytes rest : Bytes}
    {table : Table α}
    (hRead :
      (read : Reader (Table α)).run bytes =
        .ok (table, rest))
    (hBits : ∀ word : UInt64,
      (Binary64.ofBits word : α) ∈ table.values.toList →
        Binary64.toBits (Binary64.ofBits word : α) = word) :
    bytes = table.toBytes ++ rest := by
  rcases (accepts_read bytes table rest).mp hRead with
    ⟨_, ⟨parts, _, ⟨hScope, hValues⟩, rfl⟩, rfl⟩
  have hParts : table.parts = parts := by
    rcases parts with ⟨scopeParts, words⟩
    have hWords :
        table.values.toList.map Binary64.toBits = words := by
      rw [hValues, List.map_map]
      rw [hValues] at hBits
      exact (List.map_congr_left fun word hWord =>
        hBits word (List.mem_map_of_mem hWord)).trans
          (List.map_id words)
    rw [Table.parts, Scope.parts_of_makes hScope, hWords]
  rw [toBytes_eq, hParts]

namespace Wire

/-
  No invalid value comes in. Reading succeeds just on what
  valid parts are written as; whatever it gives is valid, and
  a scope or a table has but one encoding. A table of floats
  has one if all its values are numbers, since only one float
  is not a number and many words stand for it.
-/
structure Guarded (α : Type) [Binary64 α] : Prop where
  scope : Guards Scope.read Scope.format
  table : Guards (Table.read (α := α)) Table.format
  registry : Guards Registry.read Registry.format
  graph : Guards (Graph.read (α := α)) Graph.format
  scope_valid : ∀ bytes scope rest,
    Scope.read.run bytes = .ok (scope, rest) →
      scope.WellFormed
  table_valid : ∀ bytes table rest,
    (Table.read (α := α)).run bytes = .ok (table, rest) →
      table.WellFormed
  registry_valid : ∀ bytes registry rest,
    Registry.read.run bytes = .ok (registry, rest) →
      ∀ var size, registry.size? var = .ok size →
        1 ≤ size.val
  graph_valid : ∀ bytes graph rest,
    (Graph.read (α := α)).run bytes = .ok (graph, rest) →
      graph.Consistent ∧
        ∀ entry ∈ graph.factors, entry.2.WellFormed
  scope_canonical : Canonical Scope.read Scope.toBytes
  scope_unique : ∀ first second scope rest,
    Scope.read.run first = .ok (scope, rest) →
      Scope.read.run second = .ok (scope, rest) →
        first = second
  table_canonical :
    Canonical (Table.read (α := DoubleBits)) Table.toBytes
  table_unique : ∀ first second table rest,
    (Table.read (α := DoubleBits)).run first =
        .ok (table, rest) →
      (Table.read (α := DoubleBits)).run second =
          .ok (table, rest) →
        first = second
  floats_canonical : ∀ bytes table rest,
    (Table.read (α := Float)).run bytes =
        .ok (table, rest) →
      (∀ x ∈ table.values.toList, x.isNaN = false) →
        bytes = table.toBytes ++ rest

theorem canonical_read_doubleBits :
    Canonical (Table.read (α := DoubleBits))
      Table.toBytes :=
  fun _ _ _ hRead =>
    Table.eq_toBytes_of_read hRead fun _ _ => rfl

theorem guarded_read
    {α : Type}
    [Binary64 α] :
    Guarded α where
  scope := Scope.accepts_read.guards Scope.total_format
  table := Table.accepts_read.guards Table.total_format
  registry :=
    Registry.accepts_read.guards Registry.total_format
  graph := Graph.accepts_read.guards Graph.total_format
  scope_valid := fun _ scope _ _ => scope.wellFormed
  table_valid := fun _ table _ _ => table.wellFormed
  registry_valid := fun _ _ _ _ _ size _ => size.property
  graph_valid := by
    intro bytes graph rest hRead
    rcases Graph.exists_ofFactors_of_read hRead with
      ⟨factors, rfl⟩
    exact ⟨(Graph.coherent_ofFactors factors).consistent,
      fun entry _ => entry.2.wellFormed⟩
  scope_canonical := Scope.canonical_read
  scope_unique := fun _ _ _ _ hFirst hSecond =>
    Scope.canonical_read.unique hFirst hSecond
  table_canonical := canonical_read_doubleBits
  table_unique := fun _ _ _ _ hFirst hSecond =>
    canonical_read_doubleBits.unique hFirst hSecond
  floats_canonical := by
    intro bytes table rest hRead hNumbers
    exact Table.eq_toBytes_of_read hRead fun word hWord =>
      toBits_ofBits_float (hNumbers _ hWord)

/- The variables are out of order in these bytes. -/
example :
    Scope.read.run
        (listBytes varBytes [4, 3] ++
          listBytes sizeBytes [2, 2]) =
      .error (.invalid
        (.badScope (.notIncreasing [4, 3]))) := by
  decide +kernel

end Wire

end JointMax
