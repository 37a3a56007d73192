import ContractHost.Ledger.Chain
import ContractHost.Ledger.Contract

/-!
# Keys of the global state

Every value of the global state has a key, which begins with a tag byte on the wire. The keys of
one contract's storage are those whose wire form begins with `storageStem`.
-/

namespace ContractHost

inductive StateKey
  | contract (hash : ScriptHash)
  | storage (key : StorageKey)
  | block (hash : BlockHash)
  | transaction (hash : TransactionHash)
  | blockHashAtHeight (height : UInt32)
  | chainTip
deriving DecidableEq, Inhabited

namespace StateKey

def tag : StateKey → UInt8
  | contract _ => 0
  | storage _ => 1
  | block _ => 2
  | transaction _ => 3
  | blockHashAtHeight _ => 4
  | chainTip => 5

def typeName : StateKey → String
  | contract _ => "Key::Contract"
  | storage _ => "Key::Storage"
  | block _ => "Key::Block"
  | transaction _ => "Key::Transaction"
  | blockHashAtHeight _ => "Key::BlockHashAtHeight"
  | chainTip => "Key::ChainTip"

def display : StateKey → String
  | contract hash => s!"Key::Contract({hash.display})"
  | storage key => s!"Key::{key.display}"
  | block hash => s!"Key::Block({hash.display})"
  | transaction hash => s!"Key::Transaction({hash.display})"
  | blockHashAtHeight height => s!"Key::BlockHashAtHeight({height.toNat})"
  | chainTip => "Key::ChainTip"

def storageKey? : StateKey → Option StorageKey
  | storage key => some key
  | _ => none

def payloadSize : StateKey → Nat
  | contract hash => WireWrite.size hash
  | storage key => WireWrite.size key
  | block hash => WireWrite.size hash
  | transaction hash => WireWrite.size hash
  | blockHashAtHeight height => WireWrite.size height
  | chainTip => 0

def payload : StateKey → Bytes
  | contract hash => WireWrite.encode hash
  | storage key => WireWrite.encode key
  | block hash => WireWrite.encode hash
  | transaction hash => WireWrite.encode hash
  | blockHashAtHeight height => WireWrite.encode height
  | chainTip => []

def size (k : StateKey) : Nat := 1 + k.payloadSize

def encode (k : StateKey) : Bytes := k.tag :: k.payload

instance : WireWrite StateKey where
  size := size
  encode := encode
  toBytes := Wire.intoBuffer size encode

instance : WireRead StateKey where
  read := do
    let tag ← Wire.readByte
    if tag = 0 then return contract (← WireRead.read)
    else if tag = 1 then return storage (← WireRead.read)
    else if tag = 2 then return block (← WireRead.read)
    else if tag = 3 then return transaction (← WireRead.read)
    else if tag = 4 then return blockHashAtHeight (← WireRead.read)
    else if tag = 5 then return chainTip
    else throw .formatting

/-- How the wire forms of all storage keys of a contract begin. -/
def storageStem (hash : ScriptHash) : Bytes := 1 :: hash.bytes

/-- Sorting by these bytes sorts keys: by tag, then by payload, heights by their value. -/
def sortBytes : StateKey → Bytes
  | blockHashAtHeight height => 4 :: (littleEndian 4 height.toNat).reverse
  | k => k.encode

private theorem littleEndian_four_injective {x y : UInt32}
    (h : littleEndian 4 x.toNat = littleEndian 4 y.toNat) : x = y := by
  have h := congrArg ofLittleEndian h
  simp only [ofLittleEndian_littleEndian, show byteSpan 4 = 2 ^ 32 from rfl] at h
  have hx := x.toNat_lt
  have hy := y.toNat_lt
  exact UInt32.toNat_inj.mp (by omega)

theorem sortBytes_injective {a b : StateKey} (h : a.sortBytes = b.sortBytes) : a = b := by
  cases a <;> cases b <;>
    simp [sortBytes, encode, tag, payload, WireWrite.encode, StorageKey.encode] at h ⊢
  case contract.contract a b =>
    cases a; cases b
    simp_all [FixedBytes.ext_iff]
  case storage.storage a b =>
    obtain ⟨⟨a⟩, k⟩ := a
    obtain ⟨⟨b⟩, l⟩ := b
    obtain ⟨h₁, h₂⟩ := List.append_inj h (by simp [FixedBytes.length_eq])
    simp_all [FixedBytes.ext_iff]
  case block.block a b =>
    obtain ⟨⟨a⟩⟩ := a
    obtain ⟨⟨b⟩⟩ := b
    simp_all [FixedBytes.ext_iff]
  case transaction.transaction a b =>
    obtain ⟨⟨a⟩⟩ := a
    obtain ⟨⟨b⟩⟩ := b
    simp_all [FixedBytes.ext_iff]
  case blockHashAtHeight.blockHashAtHeight a b => exact littleEndian_four_injective h

instance : Ord StateKey := ⟨fun a b => compare a.sortBytes b.sortBytes⟩

instance : Std.TransOrd StateKey where
  eq_swap := Std.OrientedOrd.eq_swap (α := Bytes)
  isLE_trans := Std.TransOrd.isLE_trans (α := Bytes)

instance : Std.LawfulEqOrd StateKey where
  eq_of_compare h := sortBytes_injective (Std.LawfulEqOrd.eq_of_compare h)

end StateKey

end ContractHost
