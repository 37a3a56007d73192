import ContractHost.Hash.Sha256
import ContractHost.Text.Utf8

/-!
# The functions of the host

Contract code calls a host function by its name or by the method hash of its name.
-/

namespace ContractHost

inductive HostFunction
  | runtimePlatform
  | runtimeGetTrigger
  | runtimeCheckWitness
  | runtimeNotify
  | runtimeLog
  | runtimeGetTime
  | runtimeSerialize
  | runtimeDeserialize
  | blockchainGetHeight
  | blockchainGetHeader
  | blockchainGetBlock
  | blockchainGetTransaction
  | blockchainGetTransactionHeight
  | blockchainGetContract
  | headerGetIndex
  | headerGetHash
  | headerGetPrevHash
  | headerGetTimestamp
  | blockGetTransactionCount
  | blockGetTransactions
  | blockGetTransaction
  | transactionGetHash
  | contractDestroy
  | contractGetStorageContext
  | storageGetContext
  | storageGetReadOnlyContext
  | storageGet
  | storagePut
  | storageDelete
  | storageContextAsReadOnly
deriving DecidableEq

/-- A number that no host function has. -/
inductive FunctionIndexError
  | outOfRange
deriving DecidableEq

def FunctionIndexError.message : FunctionIndexError → String
  | outOfRange => "Invalid function index"

namespace HostFunction

def all : List HostFunction := [
  runtimePlatform, runtimeGetTrigger, runtimeCheckWitness, runtimeNotify, runtimeLog,
  runtimeGetTime, runtimeSerialize, runtimeDeserialize, blockchainGetHeight, blockchainGetHeader,
  blockchainGetBlock, blockchainGetTransaction, blockchainGetTransactionHeight,
  blockchainGetContract, headerGetIndex, headerGetHash, headerGetPrevHash, headerGetTimestamp,
  blockGetTransactionCount, blockGetTransactions, blockGetTransaction, transactionGetHash,
  contractDestroy, contractGetStorageContext, storageGetContext, storageGetReadOnlyContext,
  storageGet, storagePut, storageDelete, storageContextAsReadOnly]

def name : HostFunction → String
  | runtimePlatform => "System.Runtime.Platform"
  | runtimeGetTrigger => "System.Runtime.GetTrigger"
  | runtimeCheckWitness => "System.Runtime.CheckWitness"
  | runtimeNotify => "System.Runtime.Notify"
  | runtimeLog => "System.Runtime.Log"
  | runtimeGetTime => "System.Runtime.GetTime"
  | runtimeSerialize => "System.Runtime.Serialize"
  | runtimeDeserialize => "System.Runtime.Deserialize"
  | blockchainGetHeight => "System.Blockchain.GetHeight"
  | blockchainGetHeader => "System.Blockchain.GetHeader"
  | blockchainGetBlock => "System.Blockchain.GetBlock"
  | blockchainGetTransaction => "System.Blockchain.GetTransaction"
  | blockchainGetTransactionHeight => "System.Blockchain.GetTransactionHeight"
  | blockchainGetContract => "System.Blockchain.GetContract"
  | headerGetIndex => "System.Header.GetIndex"
  | headerGetHash => "System.Header.GetHash"
  | headerGetPrevHash => "System.Header.GetPrevHash"
  | headerGetTimestamp => "System.Header.GetTimestamp"
  | blockGetTransactionCount => "System.Block.GetTransactionCount"
  | blockGetTransactions => "System.Block.GetTransactions"
  | blockGetTransaction => "System.Block.GetTransaction"
  | transactionGetHash => "System.Transaction.GetHash"
  | contractDestroy => "System.Contract.Destroy"
  | contractGetStorageContext => "System.Contract.GetStorageContext"
  | storageGetContext => "System.Storage.GetContext"
  | storageGetReadOnlyContext => "System.Storage.GetReadOnlyContext"
  | storageGet => "System.Storage.Get"
  | storagePut => "System.Storage.Put"
  | storageDelete => "System.Storage.Delete"
  | storageContextAsReadOnly => "System.StorageContext.AsReadOnly"

def index (f : HostFunction) : Nat := all.idxOf f

def ofIndex (n : Nat) : Except FunctionIndexError HostFunction :=
  match all[n]? with
  | some f => .ok f
  | none => .error .outOfRange

def ofName? (name : String) : Option HostFunction := all.find? fun f => f.name == name

/-- The first four bytes of the SHA-256 hash of a name, least significant first. -/
def hashOfName (name : String) : UInt32 :=
  UInt32.ofNat (ofLittleEndian ((Hash.Sha256.hash (Text.utf8 name)).bytes.take 4))

def methodHash (f : HostFunction) : UInt32 := hashOfName f.name

def ofMethodHash? (hash : UInt32) : Option HostFunction := all.find? fun f => f.methodHash == hash

end HostFunction

end ContractHost
