import ContractHost.Ledger.StateKey
import ContractHost.Proofs.Wire.Framing

/-!
# Writing

A value is written to bytes of its own or behind what a buffer holds. The bytes are the same, and
there are as many of them as its size announces.
-/

namespace ContractHost

theorem Wire.intoBuffer_eq {α : Type} (size : α → Nat) (encode : α → Bytes) (value : α) :
    intoBuffer size encode value =
      if size value ≤ maxBufferSize then .ok (encode value) else .error .outOfMemory := by
  rw [intoBuffer, allocate]
  by_cases h : size value ≤ maxBufferSize
  · rw [if_neg (Nat.not_lt.mpr h), if_pos h]
    rfl
  · rw [if_pos (Nat.not_le.mp h), if_neg h]
    rfl

/-- The announced size is that of the wire form, which is written whenever a buffer can hold it. -/
class LawfulWrite (α : Type) [WireWrite α] : Prop where
  length_encode : ∀ value : α, (WireWrite.encode value).length = WireWrite.size value
  toBytes_eq : ∀ value : α, WireWrite.size value ≤ Wire.maxBufferSize →
    WireWrite.toBytes value = .ok (WireWrite.encode value)

namespace LawfulWrite

attribute [simp] length_encode

theorem of_intoBuffer {α : Type} [WireWrite α]
    (hlength : ∀ value : α, (WireWrite.encode value).length = WireWrite.size value)
    (hbytes : ∀ value : α, WireWrite.toBytes value =
      Wire.intoBuffer WireWrite.size WireWrite.encode value) : LawfulWrite α :=
  ⟨hlength, fun value h => by rw [hbytes, Wire.intoBuffer_eq, if_pos h]⟩

instance : LawfulWrite UInt8 := ⟨fun _ => rfl, fun _ _ => rfl⟩

instance : LawfulWrite UInt16 := ⟨fun n => littleEndian_length 2 n.toNat, fun _ _ => rfl⟩

instance : LawfulWrite UInt32 := ⟨fun n => littleEndian_length 4 n.toNat, fun _ _ => rfl⟩

instance : LawfulWrite UInt64 := ⟨fun n => littleEndian_length 8 n.toNat, fun _ _ => rfl⟩

instance : LawfulWrite Bool := ⟨fun _ => rfl, fun _ _ => rfl⟩

instance (n : Nat) : LawfulWrite (FixedBytes n) := ⟨fun f => f.length_eq, fun _ _ => rfl⟩

instance : LawfulWrite String :=
  ⟨fun text => VarBytes.length_write (Text.utf8 text), fun _ _ => rfl⟩

instance : LawfulWrite ScriptHash := ⟨fun hash => hash.raw.length_eq, fun _ _ => rfl⟩

instance : LawfulWrite Digest := ⟨fun digest => digest.raw.length_eq, fun _ _ => rfl⟩

instance : LawfulWrite BlockHash := ⟨fun hash => hash.digest.raw.length_eq, fun _ _ => rfl⟩

instance : LawfulWrite TransactionHash := ⟨fun hash => hash.digest.raw.length_eq, fun _ _ => rfl⟩

instance : LawfulWrite StorageKey := by
  refine of_intoBuffer (fun key => ?_) fun _ => rfl
  change (WireWrite.encode key.scriptHash ++ key.key).length =
    WireWrite.size key.scriptHash + key.key.length
  rw [List.length_append, length_encode]

theorem length_payload (key : StateKey) : key.payload.length = key.payloadSize := by
  cases key with
  | contract hash => exact length_encode hash
  | storage key => exact length_encode key
  | block hash => exact length_encode hash
  | transaction hash => exact length_encode hash
  | blockHashAtHeight height => exact length_encode height
  | chainTip => rfl

instance : LawfulWrite StateKey := by
  refine of_intoBuffer (fun key => ?_) fun _ => rfl
  change (key.tag :: key.payload).length = 1 + key.payloadSize
  rw [List.length_cons, length_payload, Nat.add_comm]

instance : LawfulWrite Header := by
  refine of_intoBuffer (fun header => ?_) fun _ => rfl
  change header.encode.length = header.size
  simp only [Header.encode, Header.size, List.length_append, length_encode]
  rfl

theorem length_flatMap_encode {α : Type} [WireWrite α] [LawfulWrite α] (values : List α) :
    (values.flatMap WireWrite.encode).length = (values.map WireWrite.size).foldr (· + ·) 0 := by
  induction values with
  | nil => rfl
  | cons value values ih => simp [ih]

instance : LawfulWrite Transaction := by
  refine of_intoBuffer (fun transaction => ?_) fun _ => rfl
  change transaction.encode.length = transaction.size
  simp only [Transaction.encode, Transaction.size, List.length_append, length_encode,
    VarBytes.length_write, VarInt.length_write, length_flatMap_encode]
  rfl

end LawfulWrite

namespace Wire

/-- The ways to write a value come to the same bytes, as many as its size announces, and what a
buffer holds stays in front of them. -/
structure WrittenAlike {α : Type} [WireWrite α] (value : α) (bytes : Bytes) : Prop where
  toBytes_eq : WireWrite.toBytes value = .ok bytes
  length_eq : bytes.length = WireWrite.size value
  serialize_eq : serialize value = .ok bytes
  append_eq : ∀ buffer, append buffer value = buffer ++ bytes

def WritersAgree (α : Type) [WireWrite α] : Prop :=
  ∀ value : α, WireWrite.size value ≤ maxBufferSize → ∃ bytes, WrittenAlike value bytes

theorem writersAgree (α : Type) [WireWrite α] [LawfulWrite α] : WritersAgree α :=
  fun value h => ⟨WireWrite.encode value, LawfulWrite.toBytes_eq value h,
    LawfulWrite.length_encode value, LawfulWrite.toBytes_eq value h, fun _ => rfl⟩

end Wire

end ContractHost
