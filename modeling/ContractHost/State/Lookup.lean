import ContractHost.State.Snapshot

/-!
# Ledger lookups

What an execution asks of the state, in terms of the ledger. A value of the wrong kind under a key
is an error; a missing one is not.
-/

namespace ContractHost.Snapshot

variable {σ : Type} [StateReader σ]

def getAs {α : Type} (convert : StoredValue → Except TypeMismatch α) (key : StateKey) :
    SnapshotM σ (Option α) := do
  match ← get key with
  | none => return none
  | some value =>
    match convert value with
    | .ok a => return some a
    | .error mismatch => throw (.typeMismatch key mismatch)

def readContract (hash : ScriptHash) : SnapshotM σ (Option ContractState) :=
  getAs StoredValue.toContract (.contract hash)

def readStorageItem (key : StorageKey) : SnapshotM σ (Option StorageItem) :=
  getAs StoredValue.toStorageItem (.storage key)

def storageKeys (hash : ScriptHash) : SnapshotM σ (List StorageKey) := do
  return (← keysUnder (StateKey.storageStem hash)).filterMap StateKey.storageKey?

/-- Removes all storage entries of a contract, in the order of their keys. -/
def pruneStorage (hash : ScriptHash) : SnapshotM σ Unit := do
  (← storageKeys hash).forM fun key => prune (.storage key)

def readChainTip : SnapshotM σ (Option ChainTip) :=
  getAs StoredValue.toChainTip .chainTip

def readBlockHashAtHeight (height : UInt32) : SnapshotM σ (Option BlockHash) :=
  getAs StoredValue.toBlockHash (.blockHashAtHeight height)

/-- A header, stored alone or in its block. -/
def readHeader (hash : BlockHash) : SnapshotM σ (Option Header) :=
  getAs StoredValue.toHeader (.block hash)

/-- A block; one of which only the header is stored counts as missing. -/
def readBlock (hash : BlockHash) : SnapshotM σ (Option Block) := do
  match ← get (.block hash) with
  | some (.block block) => return some block
  | some (.header _) | none => return none
  | some other => throw (.typeMismatch (.block hash) ⟨.block, other.kind⟩)

def readTipHeader : SnapshotM σ (Option Header) := do
  match ← readChainTip with
  | some tip => readHeader tip.hash
  | none => return none

def readTransaction (hash : TransactionHash) : SnapshotM σ (Option TransactionState) :=
  getAs StoredValue.toTransaction (.transaction hash)

end ContractHost.Snapshot
