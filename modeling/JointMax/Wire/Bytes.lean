import JointMax.Fault

/-
  Bytes and their readers. Numbers are written in a fixed
  number of bytes, the least significant first; lists are
  written as their length in eight bytes and then their
  items. A reader takes a value from the front of the bytes
  and leaves the rest.

  Key definitions include:
    * `WireFault` and `Reader`
    * `Wire.littleEndian` and `Wire.readNat`
    * `Wire.listBytes` and `Wire.readList`
    * `Binary64`, and `DoubleBits` as its exact form
    * `Wire.numberBytes` and `Wire.readNumber`
-/

------------------------------------------------------------
-- Readers
------------------------------------------------------------

namespace JointMax

abbrev Bytes := List UInt8

/- Why bytes are refused. -/
inductive WireFault where
  | outOfBytes
  | badBool
  | badVersion (version : Nat)
  | badDimension
  | invalid (fault : Fault)
deriving DecidableEq, Repr

/-
  The text of a refused value. Bytes that run out and bytes
  that are no truth value have no text of their own.
-/
def WireFault.message? : WireFault → Option String
  | outOfBytes => none
  | badBool => none
  | badVersion version =>
      some s!"unknown array version: {version}"
  | badDimension =>
      some "data and dimension must match in size"
  | invalid fault => some fault.message

/- Takes a value from the front of the bytes. -/
abbrev Reader := StateT Bytes (Except WireFault)

namespace Wire

def readByte : Reader UInt8 := fun bytes =>
  match bytes with
  | byte :: rest => .ok (byte, rest)
  | [] => .error .outOfBytes

/- Accept a value that passed its checks. -/
def accept {β : Type} (checked : Except Fault β) :
    Reader β :=
  match checked with
  | .ok value => pure value
  | .error fault => throw (.invalid fault)

end Wire

end JointMax

------------------------------------------------------------
-- Numbers of 64 Bits
------------------------------------------------------------

namespace JointMax

/- Numbers that are exchanged as the 64 bits of a double. -/
class Binary64 (α : Type) where
  toBits : α → UInt64
  ofBits : UInt64 → α

/-
  A double as its bits. Many bit patterns are not a number;
  they are told apart here, but are one and the same `Float`.
-/
structure DoubleBits where
  bits : UInt64
deriving DecidableEq, Repr

namespace DoubleBits

def ofFloat (x : Float) : DoubleBits := ⟨x.toBits⟩

def toFloat (x : DoubleBits) : Float := Float.ofBits x.bits

end DoubleBits

instance : Binary64 Float where
  toBits := Float.toBits
  ofBits := Float.ofBits

instance : Binary64 DoubleBits where
  toBits := DoubleBits.bits
  ofBits := DoubleBits.mk

end JointMax

------------------------------------------------------------
-- Numbers
------------------------------------------------------------

namespace JointMax

namespace Wire

/- The low bytes of a number, least significant first. -/
def littleEndian : Nat → Nat → Bytes
  | 0, _ => []
  | width + 1, n =>
      UInt8.ofNat (n % 256) :: littleEndian width (n / 256)

def readNat : Nat → Reader Nat
  | 0 => pure 0
  | width + 1 => do
      let low ← readByte
      let high ← readNat width
      return low.toNat + 256 * high

/- Identifiers take four bytes. -/
def varBytes (var : VarId) : Bytes :=
  littleEndian 4 var.toNat

def readVar : Reader VarId := do
  let n ← readNat 4
  return UInt32.ofNat n

/- Sizes, indices and lengths take eight bytes. -/
def sizeBytes (n : Nat) : Bytes :=
  littleEndian 8 n

def readSize : Reader Nat := readNat 8

/- Doubles are written as their bits. -/
def numberBytes {α : Type} [Binary64 α] (x : α) : Bytes :=
  littleEndian 8 (Binary64.toBits x).toNat

def readNumber {α : Type} [Binary64 α] : Reader α := do
  let n ← readNat 8
  return Binary64.ofBits (UInt64.ofNat n)

/- Truth values take one byte, zero or one. -/
def boolBytes (b : Bool) : Bytes :=
  [if b then 1 else 0]

def readBool : Reader Bool := do
  let byte ← readByte
  if byte = 0 then return false
  else if byte = 1 then return true
  else throw .badBool

end Wire

end JointMax

------------------------------------------------------------
-- Lists
------------------------------------------------------------

namespace JointMax

namespace Wire

variable {β : Type}

/- The length of a list, and then its items. -/
def listBytes (item : β → Bytes) (items : List β) : Bytes :=
  sizeBytes items.length ++ items.flatMap item

/- So many items. -/
def readMany (item : Reader β) : Nat → Reader (List β)
  | 0 => pure []
  | n + 1 => do
      let first ← item
      let rest ← readMany item n
      return first :: rest

def readList (item : Reader β) : Reader (List β) := do
  let length ← readSize
  readMany item length

end Wire

end JointMax
