import ContractHost.Ledger.StateKey
import ContractHost.Ledger.StoredValue

/-!
# Weights of cached entries

An entry of the read cache weighs about as many bytes as it holds in memory: a fixed part for the
key and for the value, the wire size of the key, and the variable parts of the value.
-/

namespace ContractHost

namespace Weight

def keyRecord : Nat := 48

def valueRecord : Nat := 128

def transactionRecord : Nat := 64

def scriptHashRecord : Nat := 20

def ofTransaction (t : Transaction) : Nat :=
  t.script.length + scriptHashRecord * t.signers.length

def ofHeader (h : Header) : Nat := WireWrite.size h

def ofBlock (b : Block) : Nat :=
  let transactions := b.transactions.map fun t => transactionRecord + ofTransaction t
  ofHeader b.header + transactions.foldr (· + ·) 0

def ofKey (key : StateKey) : Nat := keyRecord + WireWrite.size key

def ofValue (value : StoredValue) : Nat :=
  valueRecord +
    match value with
    | .contract c => c.script.length + c.name.utf8ByteSize
    | .storageItem item => item.value.length
    | .block b => ofBlock b
    | .header h => ofHeader h
    | .transaction state => ofTransaction state.transaction
    | .blockHash _ | .chainTip _ => 0

/-- The weight of an entry, counted in 64 bits. -/
def ofEntry (key : StateKey) (value : StoredValue) : UInt64 := .ofNat (ofKey key + ofValue value)

end Weight

end ContractHost
