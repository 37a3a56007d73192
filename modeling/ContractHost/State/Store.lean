import Std.Data.TreeMap
import Std.Data.TreeSet
import ContractHost.Ledger.StateKey
import ContractHost.Ledger.StoredValue

/-!
# Stores of the global state

A store is read by key and by the beginning of keys, and changed by committing a log of
transforms. Any of this may fail, and even reading may change a store's own bookkeeping, so each
operation hands back the store. The plain store in memory keeps its keys in order and never fails
to commit.
-/

namespace ContractHost

inductive StoreError
  | wire (error : WireError)
  | poisoned
deriving DecidableEq

def StoreError.code : StoreError → String
  | wire error => s!"BytesRepr/{error.code}"
  | poisoned => "Poison"

def StoreError.message : StoreError → String
  | wire error => error.message
  | poisoned => "Another thread panicked while holding a lock"

instance : Failure StoreError := ⟨StoreError.code, StoreError.message⟩

/-- What a transform does to the value of its key. -/
inductive Change
  | identity
  | write (value : StoredValue)
  | prune
deriving DecidableEq

structure Transform where
  key : StateKey
  change : Change
deriving DecidableEq

/-- The transforms of an execution, in the order in which they were made. -/
abbrev Effects := List Transform

class StateReader (σ : Type) where
  read : StateKey → σ → Except StoreError (Option StoredValue) × σ
  /-- The keys whose wire form begins with the bytes. -/
  keysUnder : Bytes → σ → Except StoreError (List StateKey) × σ

class StateCommitter (σ : Type) where
  commit : Effects → σ → Except StoreError Unit × σ

/-- Of some keys those whose wire form begins with `stem`. A key too large for a wire form makes
the selection fail. -/
def StateKey.selectUnder (stem : Bytes) : List StateKey → Except WireError (List StateKey)
  | [] => .ok []
  | key :: rest => do
    let bytes ← Wire.serialize key
    let selected ← selectUnder stem rest
    return if stem.isPrefixOf bytes then key :: selected else selected

def StateKey.sorted (keys : List StateKey) : List StateKey :=
  (Std.TreeSet.ofList keys compare).toList

structure MemoryStore where
  entries : Std.TreeMap StateKey StoredValue

namespace MemoryStore

def empty : MemoryStore := ⟨∅⟩

instance : Inhabited MemoryStore := ⟨empty⟩

/-- Of equal keys the last one counts. -/
def ofPairs (pairs : List (StateKey × StoredValue)) : MemoryStore :=
  ⟨pairs.foldl (fun m (key, value) => m.insert key value) ∅⟩

def size (store : MemoryStore) : Nat := store.entries.size

def isEmpty (store : MemoryStore) : Bool := store.entries.isEmpty

def get? (store : MemoryStore) (key : StateKey) : Option StoredValue := store.entries[key]?

def keysUnder (store : MemoryStore) (stem : Bytes) : Except StoreError (List StateKey) :=
  (StateKey.selectUnder stem store.entries.keys).mapError .wire

def apply (store : MemoryStore) (transform : Transform) : MemoryStore :=
  match transform.change with
  | .identity => store
  | .write value => ⟨store.entries.insert transform.key value⟩
  | .prune => ⟨store.entries.erase transform.key⟩

def applyAll (store : MemoryStore) (effects : Effects) : MemoryStore := effects.foldl apply store

instance : StateReader MemoryStore where
  read key store := (.ok (store.get? key), store)
  keysUnder stem store := (store.keysUnder stem, store)

instance : StateCommitter MemoryStore where
  commit effects store := (.ok (), store.applyAll effects)

end MemoryStore

end ContractHost
