import ContractHost.Ledger.Hashes

/-!
# Contracts and their storage

A contract is named by the hash of its script. Its storage entries are addressed by its name and a
key of its choice; a storage context is the permission to reach them.
-/

namespace ContractHost

structure ContractState where
  script : Bytes
  hasStorage : Bool
  hasDynamicInvoke : Bool
  payable : Bool
  name : String
deriving DecidableEq, Inhabited

def ContractState.scriptHash (c : ContractState) : ScriptHash := ScriptHash.ofScript c.script

/-- Addresses a storage entry: its owner and a key the owner chose. -/
structure StorageKey where
  scriptHash : ScriptHash
  key : Bytes
deriving DecidableEq, Inhabited

namespace StorageKey

def size (k : StorageKey) : Nat := WireWrite.size k.scriptHash + k.key.length

/-- The key is not framed, so all entries of a contract begin with its script hash. -/
def encode (k : StorageKey) : Bytes := WireWrite.encode k.scriptHash ++ k.key

instance : WireWrite StorageKey where
  size := size
  encode := encode
  toBytes := Wire.intoBuffer size encode

/-- The key takes all the bytes there are. -/
instance : WireRead StorageKey where
  read := do
    let scriptHash ← WireRead.read
    let key ← get
    set ([] : Bytes)
    return ⟨scriptHash, key⟩

def display (k : StorageKey) : String :=
  s!"StorageKey({k.scriptHash.display}, {toHex k.key})"

end StorageKey

structure StorageItem where
  value : Bytes
deriving DecidableEq, Inhabited

/-- Permission to reach the entries of one contract, for reading only or for writing too. -/
structure StorageContext where
  scriptHash : ScriptHash
  readOnly : Bool
deriving DecidableEq, Inhabited

namespace StorageContext

def asReadOnly (c : StorageContext) : StorageContext := { c with readOnly := true }

def storageKey (c : StorageContext) (key : Bytes) : StorageKey := ⟨c.scriptHash, key⟩

end StorageContext

end ContractHost
