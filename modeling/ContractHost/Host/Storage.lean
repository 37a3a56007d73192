import ContractHost.Host.Operand

/-!
# Contract storage

Entries are reached through a storage context, which names the contract they belong to. Writing
takes a trigger that permits it, a context that is not read-only, and a contract that exists and
has storage.
-/

namespace ContractHost.Call

variable {σ : Type}

/-- Whether the contract that a context names exists and has storage. -/
def isValidContext [StateReader σ] (context : StorageContext) : Call σ Bool := do
  match ← onSnapshot (Snapshot.readContract context.scriptHash) with
  | some contract => return contract.hasStorage
  | none => return false

def requireValidContext [StateReader σ] (context : StorageContext) : Call σ Unit := do
  if ← isValidContext context then return ()
  else throw (.invalidStorageContext context.scriptHash)

def requireMutatingTrigger : Call σ Unit := do
  let trigger := (← get).service.trigger
  if trigger.isMutating then return () else throw (.triggerNotPermitted trigger)

/-- A context for writing to a contract that the caller created in this execution. -/
def contextForCreator (contract : ContractState) (caller : ScriptHash) :
    Call σ StorageContext := do
  let hash := contract.scriptHash
  if (← get).service.created[hash]? = some caller then return ⟨hash, false⟩
  else throw (.notContractCreator hash caller)

/-- Removes a contract and, if it has storage, all its entries. A missing contract is no error. -/
def destroy [StateReader σ] (hash : ScriptHash) : Call σ Unit := do
  let trigger := (← get).service.trigger
  if trigger ≠ .application then throw (.triggerNotPermitted trigger)
  else match ← onSnapshot (Snapshot.readContract hash) with
    | none => return ()
    | some contract =>
      onSnapshot (Snapshot.prune (.contract hash))
      if contract.hasStorage then
        onSnapshot (Snapshot.pruneStorage hash)

def popWritableContext [StateReader σ] : Call σ StorageContext := do
  requireMutatingTrigger
  let context ← popStorageContext
  if context.readOnly then throw .readOnlyContext
  else
    requireValidContext context
    return context

def newContext (readOnly : Bool) : Call σ Unit := do
  pushObject (.storageContext ⟨← currentScriptHash, readOnly⟩)

def getContext : Call σ Unit := newContext false

def getReadOnlyContext : Call σ Unit := newContext true

/-- Pops a context and pushes a read-only one, which is the same handle if it was read-only. -/
def contextAsReadOnly : Call σ Unit := do
  let handle ← popHandle
  let context ← expectObject .storageContext HostObject.storageContext? handle
  if context.readOnly then push (.handle handle)
  else pushObject (.storageContext context.asReadOnly)

def storageGet [StateReader σ] : Call σ Unit := do
  let context ← popStorageContext
  requireValidContext context
  let key ← popBytes
  match ← onSnapshot (Snapshot.readStorageItem (context.storageKey key)) with
  | some item => push (.byteString item.value)
  | none => push (.byteString [])

def storagePut [StateReader σ] : Call σ Unit := do
  let context ← popWritableContext
  let key ← popBytes
  let max := (← config).maxStorageKeySize.toNat
  if max < key.length then throw (.keyTooLarge key.length max)
  else
    let value ← popBytes
    onSnapshot (Snapshot.write (.storage (context.storageKey key)) (.storageItem ⟨value⟩))

def storageDelete [StateReader σ] : Call σ Unit := do
  let context ← popWritableContext
  let key := context.storageKey (← popBytes)
  match ← onSnapshot (Snapshot.readStorageItem key) with
  | some _ => onSnapshot (Snapshot.prune (.storage key))
  | none => return ()

/-- Pops a contract and pushes a context for writing to it, if the caller created it. -/
def contractContext : Call σ Unit := do
  let contract ← popContract
  pushObject (.storageContext (← contextForCreator contract (← currentScriptHash)))

def contractDestroy [StateReader σ] : Call σ Unit := do
  destroy (← currentScriptHash)

end ContractHost.Call
