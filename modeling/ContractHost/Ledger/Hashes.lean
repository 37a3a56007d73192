import ContractHost.Hash.Blake2b
import ContractHost.Hash.Ripemd160
import ContractHost.Hash.Sha256
import ContractHost.Wire.Basic

/-!
# Hashes that name ledger objects

A script hash names a contract or an account. A digest names a block or a transaction; the two
kinds are kept apart by their types.
-/

namespace ContractHost

/-- A byte string has the wrong length for a hash. -/
inductive HashLengthError
  | wrongLength
deriving DecidableEq

def HashLengthError.message : HashLengthError → String
  | wrongLength => "could not convert slice to array"

/-- Names a contract or an account. -/
structure ScriptHash where
  raw : FixedBytes 20
deriving DecidableEq, Inhabited

namespace ScriptHash

def bytes (hash : ScriptHash) : Bytes := hash.raw.bytes

/-- The RIPEMD-160 hash of the SHA-256 hash of a script. -/
def ofScript (script : Bytes) : ScriptHash :=
  ⟨Hash.Ripemd160.hash (Hash.Sha256.hash script).bytes⟩

def ofBytes (bytes : Bytes) : Except HashLengthError ScriptHash :=
  match FixedBytes.ofBytes? 20 bytes with
  | some raw => .ok ⟨raw⟩
  | none => .error .wrongLength

def display (hash : ScriptHash) : String := hash.raw.hex

def tagged (hash : ScriptHash) : String := s!"ScriptHash({hash.display})"

/-- Script hashes are ordered byte by byte. -/
instance : Ord ScriptHash := ⟨fun a b => compare a.bytes b.bytes⟩

instance : Std.TransOrd ScriptHash where
  eq_swap := Std.OrientedOrd.eq_swap (α := Bytes)
  isLE_trans := Std.TransOrd.isLE_trans (α := Bytes)

instance : Std.LawfulEqOrd ScriptHash where
  eq_of_compare {a b} h := by
    have h : a.bytes = b.bytes := Std.LawfulEqOrd.eq_of_compare h
    obtain ⟨a⟩ := a
    obtain ⟨b⟩ := b
    exact congrArg mk (FixedBytes.ext h)

end ScriptHash

/-- A 32-byte BLAKE2b hash. -/
structure Digest where
  raw : FixedBytes 32
deriving DecidableEq, Inhabited

namespace Digest

def bytes (digest : Digest) : Bytes := digest.raw.bytes

def hash (data : Bytes) : Digest := ⟨Hash.Blake2b.hash data⟩

def ofBytes (bytes : Bytes) : Except HashLengthError Digest :=
  match FixedBytes.ofBytes? 32 bytes with
  | some raw => .ok ⟨raw⟩
  | none => .error .wrongLength

def isZero (digest : Digest) : Bool := digest.raw.isZero

def display (digest : Digest) : String := digest.raw.hex

end Digest

/-- Names a block: the digest of its header. -/
structure BlockHash where
  digest : Digest
deriving DecidableEq, Inhabited

namespace BlockHash

def bytes (hash : BlockHash) : Bytes := hash.digest.bytes

def display (hash : BlockHash) : String := s!"block-hash({hash.digest.display})"

end BlockHash

/-- Names a transaction. -/
structure TransactionHash where
  digest : Digest
deriving DecidableEq, Inhabited

namespace TransactionHash

def bytes (hash : TransactionHash) : Bytes := hash.digest.bytes

def display (hash : TransactionHash) : String := s!"transaction-hash({hash.digest.display})"

end TransactionHash

instance : WireWrite ScriptHash where
  size hash := WireWrite.size hash.raw
  encode hash := WireWrite.encode hash.raw
  toBytes hash := WireWrite.toBytes hash.raw

instance : WireRead ScriptHash where
  read := return ⟨← WireRead.read⟩

instance : WireWrite Digest where
  size digest := WireWrite.size digest.raw
  encode digest := WireWrite.encode digest.raw
  toBytes digest := WireWrite.toBytes digest.raw

instance : WireRead Digest where
  read := return ⟨← WireRead.read⟩

instance : WireWrite BlockHash where
  size hash := WireWrite.size hash.digest
  encode hash := WireWrite.encode hash.digest
  toBytes hash := WireWrite.toBytes hash.digest

instance : WireRead BlockHash where
  read := return ⟨← WireRead.read⟩

instance : WireWrite TransactionHash where
  size hash := WireWrite.size hash.digest
  encode hash := WireWrite.encode hash.digest
  toBytes hash := WireWrite.toBytes hash.digest

instance : WireRead TransactionHash where
  read := return ⟨← WireRead.read⟩

end ContractHost
