import ContractHost.Ledger.Chain
import ContractHost.Ledger.Contract

/-!
# Values of the global state

A stored value is one of seven kinds. Taking it for another kind is a mismatch, with one
exception: a block also stands for its header.
-/

namespace ContractHost

inductive StoredKind
  | contract
  | storageItem
  | block
  | header
  | transaction
  | blockHash
  | chainTip
deriving DecidableEq

def StoredKind.name : StoredKind → String
  | contract => "Contract"
  | storageItem => "StorageItem"
  | block => "Block"
  | header => "Header"
  | transaction => "Transaction"
  | blockHash => "BlockHash"
  | chainTip => "ChainTip"

structure TypeMismatch where
  expected : StoredKind
  found : StoredKind
deriving DecidableEq

def TypeMismatch.message (m : TypeMismatch) : String :=
  s!"Type mismatch. Expected {m.expected.name} but found {m.found.name}."

inductive StoredValue
  | contract (contract : ContractState)
  | storageItem (item : StorageItem)
  | block (block : Block)
  | header (header : Header)
  | transaction (state : TransactionState)
  | blockHash (hash : BlockHash)
  | chainTip (tip : ChainTip)
deriving DecidableEq, Inhabited

namespace StoredValue

def kind : StoredValue → StoredKind
  | contract _ => .contract
  | storageItem _ => .storageItem
  | block _ => .block
  | header _ => .header
  | transaction _ => .transaction
  | blockHash _ => .blockHash
  | chainTip _ => .chainTip

def contract? : StoredValue → Option ContractState
  | contract c => some c
  | _ => none

def storageItem? : StoredValue → Option StorageItem
  | storageItem item => some item
  | _ => none

/-- The header, also that of a block. -/
def header? : StoredValue → Option Header
  | block b => some b.header
  | header h => some h
  | _ => none

def block? : StoredValue → Option Block
  | block b => some b
  | _ => none

def transaction? : StoredValue → Option TransactionState
  | transaction t => some t
  | _ => none

def blockHash? : StoredValue → Option BlockHash
  | blockHash hash => some hash
  | _ => none

def chainTip? : StoredValue → Option ChainTip
  | chainTip tip => some tip
  | _ => none

/-- Takes a value for one kind, or tells which kind it is instead. -/
def expect {α : Type} (kind : StoredKind) (accessor : StoredValue → Option α)
    (value : StoredValue) : Except TypeMismatch α :=
  match accessor value with
  | some a => .ok a
  | none => .error ⟨kind, value.kind⟩

def toContract : StoredValue → Except TypeMismatch ContractState := expect .contract contract?

def toStorageItem : StoredValue → Except TypeMismatch StorageItem :=
  expect .storageItem storageItem?

def toBlock : StoredValue → Except TypeMismatch Block := expect .block block?

def toHeader : StoredValue → Except TypeMismatch Header := expect .header header?

def toTransaction : StoredValue → Except TypeMismatch TransactionState :=
  expect .transaction transaction?

def toBlockHash : StoredValue → Except TypeMismatch BlockHash := expect .blockHash blockHash?

def toChainTip : StoredValue → Except TypeMismatch ChainTip := expect .chainTip chainTip?

end StoredValue

end ContractHost
