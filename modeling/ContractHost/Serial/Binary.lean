import ContractHost.Text.Utf8

/-!
# Binary forms

Integers have their full width, least significant byte first. Lists and strings are preceded by
their length in eight bytes, a value of one of several kinds by the number of its kind in four.
Fixed byte strings stand as they are, and records are their fields in order.
-/

namespace ContractHost

/-- Takes a value off the front of a byte string. -/
abbrev BinaryReader (α : Type) := StateT Bytes Option α

/-- Types with a binary form. -/
class BinaryForm (α : Type) where
  write : α → Bytes
  read : BinaryReader α

namespace BinaryForm

variable {α : Type}

def take (n : Nat) : BinaryReader Bytes := fun bytes =>
  let head := bytes.take n
  if head.length = n then some (head, bytes.drop n) else none

def readNat (width : Nat) : BinaryReader Nat := return ofLittleEndian (← take width)

def orFail (found : Option α) : BinaryReader α := fun bytes => found.map (·, bytes)

def readMany (reader : BinaryReader α) : Nat → BinaryReader (List α)
  | 0 => return []
  | n + 1 => do
    let first ← reader
    let others ← readMany reader n
    return first :: others

instance : BinaryForm Bool where
  write b := [if b then 1 else 0]
  read := do
    let n ← readNat 1
    if n = 0 then return false else if n = 1 then return true else failure

instance : BinaryForm UInt8 where
  write n := [n]
  read := return UInt8.ofNat (← readNat 1)

instance : BinaryForm UInt32 where
  write n := littleEndian 4 n.toNat
  read := return UInt32.ofNat (← readNat 4)

instance : BinaryForm UInt64 where
  write n := littleEndian 8 n.toNat
  read := return UInt64.ofNat (← readNat 8)

instance : BinaryForm String where
  write text := littleEndian 8 (Text.utf8 text).length ++ Text.utf8 text
  read := do
    let length ← readNat 8
    orFail (Text.ofUtf8? (← take length))

instance [BinaryForm α] : BinaryForm (List α) where
  write xs := littleEndian 8 xs.length ++ xs.flatMap write
  read := do
    let count ← readNat 8
    readMany read count

instance (n : Nat) : BinaryForm (FixedBytes n) where
  write f := f.bytes
  read := do orFail (FixedBytes.ofBytes? n (← take n))

/-- The value at the front of a byte string; what follows it is ignored. -/
def decode? [BinaryForm α] (bytes : Bytes) : Option α := (read.run bytes).map Prod.fst

end BinaryForm

end ContractHost
