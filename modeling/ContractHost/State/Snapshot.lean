import ContractHost.State.Cache
import ContractHost.State.Store
import ContractHost.State.Weight

/-!
# Snapshots

An execution reads the state through a snapshot, which holds its writes and prunes back and logs
them. Only a commit hands the log to the store. A snapshot does not own its store, so several
snapshots can take turns on one.
-/

namespace ContractHost

inductive SnapshotError
  | storage (error : StoreError)
  | wire (error : WireError)
  | typeMismatch (key : StateKey) (mismatch : TypeMismatch)
deriving DecidableEq

def SnapshotError.code : SnapshotError → String
  | storage error => s!"Storage/{error.code}"
  | wire error => s!"BytesRepr/{error.code}"
  | typeMismatch _ _ => "TypeMismatch"

def SnapshotError.message : SnapshotError → String
  | storage error => s!"Storage error: {error.message}"
  | wire error => s!"Serialization error: {error.message}"
  | typeMismatch key mismatch => s!"{mismatch.message} under {key.display}"

instance : Failure SnapshotError := ⟨SnapshotError.code, SnapshotError.message⟩

structure Snapshot where
  cache : Cache
  effects : Effects
  /-- The block being persisted, if the execution is part of persisting one. -/
  persisting : Option Block

/-- A snapshot with the store behind it. -/
structure Workspace (σ : Type) where
  snapshot : Snapshot
  store : σ

/-- A step on a snapshot. What it did before it failed stays done. -/
abbrev SnapshotM (σ : Type) := ExceptT SnapshotError (StateM (Workspace σ))

namespace Snapshot

def cacheLimit : UInt64 := 16 * 1024

def newCache : Cache := .new cacheLimit Weight.ofEntry

def new : Snapshot := ⟨newCache, [], none⟩

def whilePersisting (block : Block) : Snapshot := { new with persisting := some block }

variable {σ : Type}

def modifySnapshot (f : Snapshot → Snapshot) : SnapshotM σ Unit :=
  modify fun w => { w with snapshot := f w.snapshot }

def modifyCache (f : Cache → Cache) : SnapshotM σ Unit :=
  modifySnapshot fun s => { s with cache := f s.cache }

def lookUp (key : StateKey) : SnapshotM σ (Option StoredValue) :=
  modifyGet fun w =>
    let (found, cache) := w.snapshot.cache.get key
    (found, { w with snapshot := { w.snapshot with cache := cache } })

def onStore {α : Type} (operation : σ → Except StoreError α × σ) : SnapshotM σ α := do
  let result ← modifyGet fun w =>
    let (result, store) := operation w.store
    (result, { w with store := store })
  match result with
  | .ok a => return a
  | .error e => throw (.storage e)

def log (key : StateKey) (change : Change) : SnapshotM σ Unit :=
  modifySnapshot fun s => { s with effects := s.effects ++ [⟨key, change⟩] }

/-- The value of a key, without a trace in the log. A value that the store has is kept. -/
def get [StateReader σ] (key : StateKey) : SnapshotM σ (Option StoredValue) := do
  match ← lookUp key with
  | some value => return some value
  | none =>
    if (← MonadState.get).snapshot.cache.isPruned key then return none
    match ← onStore (StateReader.read key) with
    | none => return none
    | some value =>
      modifyCache (·.insertRead key value)
      return some value

/-- The value of a key, with an entry in the log if there is one. -/
def read [StateReader σ] (key : StateKey) : SnapshotM σ (Option StoredValue) := do
  match ← get key with
  | none => return none
  | some value =>
    log key .identity
    return some value

def write (key : StateKey) (value : StoredValue) : SnapshotM σ Unit := do
  modifyCache (·.insertWrite key value)
  log key (.write value)

def prune (key : StateKey) : SnapshotM σ Unit := do
  modifyCache (·.insertPrune key)
  log key .prune

/-- The keys that have a value and whose wire form begins with the bytes, in order. -/
def keysUnder [StateReader σ] (stem : Bytes) : SnapshotM σ (List StateKey) := do
  let stored ← onStore (StateReader.keysUnder stem)
  let cache := (← MonadState.get).snapshot.cache
  match StateKey.selectUnder stem (cache.writes.map Prod.fst) with
  | .error e => throw (.wire e)
  | .ok written => return StateKey.sorted ((stored.filter fun k => !cache.isPruned k) ++ written)

/-- Hands the log to the store and starts afresh. A commit that fails leaves the snapshot as it
is. -/
def commit [StateCommitter σ] : SnapshotM σ Unit := do
  let effects := (← MonadState.get).snapshot.effects
  onStore (StateCommitter.commit effects)
  modifySnapshot fun s => { s with effects := [], cache := s.cache.cleared }

end Snapshot

end ContractHost
