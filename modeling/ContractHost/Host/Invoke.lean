import ContractHost.Host.Chain
import ContractHost.Host.Environment
import ContractHost.Host.Function
import ContractHost.Host.Storage
import ContractHost.Host.Witness

/-!
# Calling host functions

A call is made by function, by name or by method hash. The virtual machine learns only whether it
succeeded.
-/

namespace ContractHost.Call

variable {σ : Type} [StateReader σ]

def perform : HostFunction → Call σ Unit
  | .runtimePlatform => platform
  | .runtimeGetTrigger => trigger
  | .runtimeCheckWitness => checkWitness
  | .runtimeNotify => notify
  | .runtimeLog => log
  | .runtimeGetTime => getTime
  | .runtimeSerialize => serialize
  | .runtimeDeserialize => deserialize
  | .blockchainGetHeight => getHeight
  | .blockchainGetHeader => getHeader
  | .blockchainGetBlock => getBlock
  | .blockchainGetTransaction => getTransaction
  | .blockchainGetTransactionHeight => getTransactionHeight
  | .blockchainGetContract => getContract
  | .headerGetIndex => headerIndex
  | .headerGetHash => headerHash
  | .headerGetPrevHash => headerPrevHash
  | .headerGetTimestamp => headerTimestamp
  | .blockGetTransactionCount => transactionCount
  | .blockGetTransactions => blockTransactions
  | .blockGetTransaction => blockTransaction
  | .transactionGetHash => transactionHash
  | .contractDestroy => contractDestroy
  | .contractGetStorageContext => contractContext
  | .storageGetContext => getContext
  | .storageGetReadOnlyContext => getReadOnlyContext
  | .storageGet => storageGet
  | .storagePut => storagePut
  | .storageDelete => storageDelete
  | .storageContextAsReadOnly => contextAsReadOnly

def performByName (name : String) : Call σ Unit :=
  match HostFunction.ofName? name with
  | some f => perform f
  | none => throw (.unknownFunction name)

def performByMethodHash (hash : UInt32) : Call σ Unit :=
  match HostFunction.ofMethodHash? hash with
  | some f => perform f
  | none => throw (.unknownMethodHash hash)

end ContractHost.Call

namespace ContractHost.Session

variable {σ : Type} [StateReader σ]

def outcome (call : Call σ Unit) (s : Session σ) : Bool × Session σ :=
  let (result, s) := call.run s
  (result.isOk, s)

def invoke (f : HostFunction) : Session σ → Bool × Session σ := outcome (Call.perform f)

def invokeByName (name : String) : Session σ → Bool × Session σ :=
  outcome (Call.performByName name)

def invokeByMethodHash (hash : UInt32) : Session σ → Bool × Session σ :=
  outcome (Call.performByMethodHash hash)

end ContractHost.Session
