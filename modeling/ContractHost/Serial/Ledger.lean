import ContractHost.Ledger.StateKey
import ContractHost.Ledger.StoredValue
import ContractHost.Ledger.Trigger
import ContractHost.Serial.Binary
import ContractHost.Serial.Json

/-!
# JSON and binary forms of the ledger

Each type of the ledger has both forms. Hashes are hexadecimal text in JSON and bare bytes in
binary.
-/

namespace ContractHost

open JsonForm BinaryForm

instance : JsonForm ScriptHash where
  toJson hash := toJson hash.raw
  ofJson? j := (ofJson? j).map ScriptHash.mk

instance : BinaryForm ScriptHash where
  write hash := write hash.raw
  read := return ⟨← read⟩

instance : JsonForm Digest where
  toJson digest := toJson digest.raw
  ofJson? j := (ofJson? j).map Digest.mk

instance : BinaryForm Digest where
  write digest := write digest.raw
  read := return ⟨← read⟩

instance : JsonForm BlockHash where
  toJson hash := toJson hash.digest
  ofJson? j := (ofJson? j).map BlockHash.mk

instance : BinaryForm BlockHash where
  write hash := write hash.digest
  read := return ⟨← read⟩

instance : JsonForm TransactionHash where
  toJson hash := toJson hash.digest
  ofJson? j := (ofJson? j).map TransactionHash.mk

instance : BinaryForm TransactionHash where
  write hash := write hash.digest
  read := return ⟨← read⟩

instance : JsonForm Transaction where
  toJson t := .object [("version", toJson t.version), ("nonce", toJson t.nonce),
    ("script", toJson t.script), ("signers", toJson t.signers)]
  ofJson? j := do
    match ← j.fields? ["version", "nonce", "script", "signers"] with
    | [version, nonce, script, signers] =>
      return ⟨← ofJson? version, ← ofJson? nonce, ← ofJson? script, ← ofJson? signers⟩
    | _ => none

instance : BinaryForm Transaction where
  write t := write t.version ++ write t.nonce ++ write t.script ++ write t.signers
  read := return ⟨← read, ← read, ← read, ← read⟩

instance : JsonForm TransactionState where
  toJson t := .object [("block_index", toJson t.blockIndex), ("transaction", toJson t.transaction)]
  ofJson? j := do
    match ← j.fields? ["block_index", "transaction"] with
    | [blockIndex, transaction] => return ⟨← ofJson? blockIndex, ← ofJson? transaction⟩
    | _ => none

instance : BinaryForm TransactionState where
  write t := write t.blockIndex ++ write t.transaction
  read := return ⟨← read, ← read⟩

instance : JsonForm Header where
  toJson h := .object [("version", toJson h.version), ("prev_hash", toJson h.prevHash),
    ("merkle_root", toJson h.merkleRoot), ("timestamp", toJson h.timestamp),
    ("index", toJson h.index), ("next_consensus", toJson h.nextConsensus)]
  ofJson? j := do
    match ← j.fields?
        ["version", "prev_hash", "merkle_root", "timestamp", "index", "next_consensus"] with
    | [version, prevHash, merkleRoot, timestamp, index, nextConsensus] =>
      return ⟨← ofJson? version, ← ofJson? prevHash, ← ofJson? merkleRoot, ← ofJson? timestamp,
        ← ofJson? index, ← ofJson? nextConsensus⟩
    | _ => none

instance : BinaryForm Header where
  write h := write h.version ++ write h.prevHash ++ write h.merkleRoot ++ write h.timestamp ++
    write h.index ++ write h.nextConsensus
  read := return ⟨← read, ← read, ← read, ← read, ← read, ← read⟩

instance : JsonForm Block where
  toJson b := .object [("header", toJson b.header), ("transactions", toJson b.transactions)]
  ofJson? j := do
    match ← j.fields? ["header", "transactions"] with
    | [header, transactions] => return ⟨← ofJson? header, ← ofJson? transactions⟩
    | _ => none

instance : BinaryForm Block where
  write b := write b.header ++ write b.transactions
  read := return ⟨← read, ← read⟩

instance : JsonForm ChainTip where
  toJson tip := .object [("height", toJson tip.height), ("hash", toJson tip.hash)]
  ofJson? j := do
    match ← j.fields? ["height", "hash"] with
    | [height, hash] => return ⟨← ofJson? height, ← ofJson? hash⟩
    | _ => none

instance : BinaryForm ChainTip where
  write tip := write tip.height ++ write tip.hash
  read := return ⟨← read, ← read⟩

instance : JsonForm ContractState where
  toJson c := .object [("script", toJson c.script), ("has_storage", toJson c.hasStorage),
    ("has_dynamic_invoke", toJson c.hasDynamicInvoke), ("payable", toJson c.payable),
    ("name", toJson c.name)]
  ofJson? j := do
    match ← j.fields? ["script", "has_storage", "has_dynamic_invoke", "payable", "name"] with
    | [script, hasStorage, hasDynamicInvoke, payable, name] =>
      return ⟨← ofJson? script, ← ofJson? hasStorage, ← ofJson? hasDynamicInvoke,
        ← ofJson? payable, ← ofJson? name⟩
    | _ => none

instance : BinaryForm ContractState where
  write c := write c.script ++ write c.hasStorage ++ write c.hasDynamicInvoke ++
    write c.payable ++ write c.name
  read := return ⟨← read, ← read, ← read, ← read, ← read⟩

instance : JsonForm StorageKey where
  toJson k := .object [("script_hash", toJson k.scriptHash), ("key", toJson k.key)]
  ofJson? j := do
    match ← j.fields? ["script_hash", "key"] with
    | [scriptHash, key] => return ⟨← ofJson? scriptHash, ← ofJson? key⟩
    | _ => none

instance : BinaryForm StorageKey where
  write k := write k.scriptHash ++ write k.key
  read := return ⟨← read, ← read⟩

instance : JsonForm StorageItem where
  toJson item := .object [("value", toJson item.value)]
  ofJson? j := do
    match ← j.fields? ["value"] with
    | [value] => return ⟨← ofJson? value⟩
    | _ => none

instance : BinaryForm StorageItem where
  write item := write item.value
  read := return ⟨← read⟩

/-- Whether a tagged value has what a kind without contents has: nothing, or `null`. -/
def isBare : Option Json → Bool
  | none | some .null => true
  | _ => false

instance : JsonForm Trigger where
  toJson t := .string t.name
  ofJson? j := do
    let (name, contents) ← j.tagged?
    if isBare contents then Trigger.all.find? fun t => t.name == name else none

/-- The number of a kind is its place in the list of kinds. -/
instance : BinaryForm Trigger where
  write t := littleEndian 4 (Trigger.all.idxOf t)
  read := do orFail Trigger.all[← readNat 4]?

instance : JsonForm StateKey where
  toJson
    | .contract hash => .object [("Contract", toJson hash)]
    | .storage key => .object [("Storage", toJson key)]
    | .block hash => .object [("Block", toJson hash)]
    | .transaction hash => .object [("Transaction", toJson hash)]
    | .blockHashAtHeight height => .object [("BlockHashAtHeight", toJson height)]
    | .chainTip => .string "ChainTip"
  ofJson? j := do
    match ← j.tagged? with
    | ("Contract", some v) => (ofJson? v).map .contract
    | ("Storage", some v) => (ofJson? v).map .storage
    | ("Block", some v) => (ofJson? v).map .block
    | ("Transaction", some v) => (ofJson? v).map .transaction
    | ("BlockHashAtHeight", some v) => (ofJson? v).map .blockHashAtHeight
    | ("ChainTip", contents) => if isBare contents then some .chainTip else none
    | _ => none

instance : BinaryForm StateKey where
  write
    | .contract hash => littleEndian 4 0 ++ write hash
    | .storage key => littleEndian 4 1 ++ write key
    | .block hash => littleEndian 4 2 ++ write hash
    | .transaction hash => littleEndian 4 3 ++ write hash
    | .blockHashAtHeight height => littleEndian 4 4 ++ write height
    | .chainTip => littleEndian 4 5
  read := do
    match ← readNat 4 with
    | 0 => return .contract (← read)
    | 1 => return .storage (← read)
    | 2 => return .block (← read)
    | 3 => return .transaction (← read)
    | 4 => return .blockHashAtHeight (← read)
    | 5 => return .chainTip
    | _ => failure

instance : JsonForm StoredValue where
  toJson
    | .contract c => .object [("Contract", toJson c)]
    | .storageItem item => .object [("StorageItem", toJson item)]
    | .block b => .object [("Block", toJson b)]
    | .header h => .object [("Header", toJson h)]
    | .transaction t => .object [("Transaction", toJson t)]
    | .blockHash hash => .object [("BlockHash", toJson hash)]
    | .chainTip tip => .object [("ChainTip", toJson tip)]
  ofJson? j := do
    match ← j.tagged? with
    | ("Contract", some v) => (ofJson? v).map .contract
    | ("StorageItem", some v) => (ofJson? v).map .storageItem
    | ("Block", some v) => (ofJson? v).map .block
    | ("Header", some v) => (ofJson? v).map .header
    | ("Transaction", some v) => (ofJson? v).map .transaction
    | ("BlockHash", some v) => (ofJson? v).map .blockHash
    | ("ChainTip", some v) => (ofJson? v).map .chainTip
    | _ => none

instance : BinaryForm StoredValue where
  write
    | .contract c => littleEndian 4 0 ++ write c
    | .storageItem item => littleEndian 4 1 ++ write item
    | .block b => littleEndian 4 2 ++ write b
    | .header h => littleEndian 4 3 ++ write h
    | .transaction t => littleEndian 4 4 ++ write t
    | .blockHash hash => littleEndian 4 5 ++ write hash
    | .chainTip tip => littleEndian 4 6 ++ write tip
  read := do
    match ← readNat 4 with
    | 0 => return .contract (← read)
    | 1 => return .storageItem (← read)
    | 2 => return .block (← read)
    | 3 => return .header (← read)
    | 4 => return .transaction (← read)
    | 5 => return .blockHash (← read)
    | 6 => return .chainTip (← read)
    | _ => failure

end ContractHost
