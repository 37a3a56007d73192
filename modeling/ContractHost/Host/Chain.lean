import ContractHost.Host.Operand

/-!
# The chain as scripts see it

A block is asked for by height or by hash. What the state does not have is an empty byte string on
the stack; only an operand that makes no sense fails a call.
-/

namespace ContractHost.Call

variable {σ : Type}

/-- Operands of up to this many bytes are heights. -/
def maxHeightLength : Nat := 5

/-- The block that an operand names, if there is one at that height. -/
def blockHashOf [StateReader σ] (operand : Bytes) : Call σ (Option BlockHash) := do
  if operand.length ≤ maxHeightLength then
    let height := TwosComplement.read operand
    if 0 ≤ height ∧ height < UInt32.size then
      onSnapshot (Snapshot.readBlockHashAtHeight (UInt32.ofNat height.toNat))
    else throw .invalidHeight
  else
    return some ⟨⟨← fixedOperand 32 .heightOrHash operand⟩⟩

def getHeight [StateReader σ] : Call σ Unit := do
  match ← onSnapshot Snapshot.readChainTip with
  | some tip => push (.integer tip.height.toNat)
  | none => throw .chainTipNotFound

def getByBlockHash [StateReader σ]
    (lookUp : BlockHash → SnapshotM σ (Option HostObject)) : Call σ Unit := do
  match ← blockHashOf (← popBytes) with
  | none => pushFound none
  | some hash => pushFound (← onSnapshot (lookUp hash))

def getHeader [StateReader σ] : Call σ Unit :=
  getByBlockHash fun hash => return (← Snapshot.readHeader hash).map .header

def getBlock [StateReader σ] : Call σ Unit :=
  getByBlockHash fun hash => return (← Snapshot.readBlock hash).map .block

def findTransaction [StateReader σ] : Call σ (Option TransactionState) := do
  let hash ← fixedOperand 32 .transactionHash (← popBytes)
  onSnapshot (Snapshot.readTransaction ⟨⟨hash⟩⟩)

def getTransaction [StateReader σ] : Call σ Unit := do
  pushFound ((← findTransaction).map fun state => .transaction state.transaction)

/-- Pushes the height of the block that includes a transaction, or -1. -/
def getTransactionHeight [StateReader σ] : Call σ Unit := do
  match ← findTransaction with
  | some state => push (.integer state.blockIndex.toNat)
  | none => push (.integer (-1))

def getContract [StateReader σ] : Call σ Unit := do
  let hash ← fixedOperand 20 .scriptHash (← popBytes)
  pushFound ((← onSnapshot (Snapshot.readContract ⟨hash⟩)).map .contract)

def headerIndex : Call σ Unit := do
  push (.integer (← popHeader).index.toNat)

def headerHash : Call σ Unit := do
  push (.byteString (← popHeader).hash.bytes)

def headerPrevHash : Call σ Unit := do
  push (.byteString (← popHeader).prevHash.bytes)

def headerTimestamp : Call σ Unit := do
  push (.integer (← popHeader).timestamp.toNat)

def transactionCount : Call σ Unit := do
  push (.integer (← popBlock).transactions.length)

def newHandles (objects : List HostObject) : Call σ (List StackValue) :=
  objects.mapM fun object => onHeap fun heap => heap.newHandle object

def blockTransactions : Call σ Unit := do
  let block ← popBlock
  let count := block.transactions.length
  let max := (← config).maxArraySize.toNat
  if max < count then throw (.tooManyElements count max)
  else
    let handles ← newHandles (block.transactions.map .transaction)
    push (← onHeap fun heap => heap.newArray handles)

def blockTransaction : Call σ Unit := do
  let handle ← popHandle
  let index ← popInteger
  let block ← expectObject .block HostObject.block? handle
  match (if index < 0 then none else block.transactions[index.toNat]?) with
  | some transaction => pushObject (.transaction transaction)
  | none => throw (.indexOutOfRange block.transactions.length)

def transactionHash : Call σ Unit := do
  push (.byteString (← popTransaction).hash.bytes)

end ContractHost.Call
