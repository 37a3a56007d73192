import ContractHost.Proofs.Wire.Delimiting
import ContractHost.Proofs.Wire.Writing

/-!
# Which formats delimit themselves

Scalars, fixed byte strings, hashes and all keys but those of storage are read back from what is
written of them, whatever follows, and have no other form. A text may be framed by any form of its
length.
-/

namespace ContractHost

/-- A key that is not one of storage, so that its tag tells the length of the rest. -/
def StateKey.FixedLength (key : StateKey) : Prop := key.storageKey? = none

/-- What the tag of a key says about reading the rest of it. -/
def StateKey.readAfter (tag : UInt8) : WireReader StateKey := do
  if tag = 0 then return contract (← WireRead.read)
  else if tag = 1 then return storage (← WireRead.read)
  else if tag = 2 then return block (← WireRead.read)
  else if tag = 3 then return transaction (← WireRead.read)
  else if tag = 4 then return blockHashAtHeight (← WireRead.read)
  else if tag = 5 then return chainTip
  else throw .formatting

theorem StateKey.read_eq :
    (WireRead.read : WireReader StateKey) = Wire.readByte >>= StateKey.readAfter := rfl

theorem Text.ofUtf8?_utf8 (text : String) : ofUtf8? (utf8 text) = some text := by
  have hbytes : (utf8 text).toByteArray = text.toUTF8 := by
    apply ByteArray.ext
    simp [utf8]
  rw [ofUtf8?, hbytes, String.fromUTF8?]
  exact dif_pos text.isValidUTF8

theorem Text.utf8_of_ofUtf8? {bytes : Bytes} {text : String} (h : ofUtf8? bytes = some text) :
    utf8 text = bytes := by
  rw [ofUtf8?, String.fromUTF8?] at h
  split at h
  next hvalid =>
    cases h
    simp [utf8, String.fromUTF8, String.toUTF8]
  next => cases h

namespace Wire

open StateKey (FixedLength)

variable {α β : Type}

def Encoded [WireWrite α] (value : α) (bytes : Bytes) : Prop := bytes = WireWrite.encode value

/-- A text behind its length, in any form of the length. -/
def Framed (text : String) (bytes : Bytes) : Prop :=
  (Text.utf8 text).length ≤ VarBytes.maxLength ∧
    ∃ length, VarInt.Form (Text.utf8 text).length length ∧ bytes = length ++ Text.utf8 text

namespace Delimits

theorem wrap [WireWrite α] [WireRead α] [WireWrite β] {wrap : α → β} {raw : β → α}
    (h : Delimits (WireRead.read : WireReader α) Any Encoded)
    (hencode : ∀ y : β, WireWrite.encode y = WireWrite.encode (raw y))
    (hraw : ∀ x, raw (wrap x) = x) (hwrap : ∀ y, wrap (raw y) = y) :
    Delimits (do return wrap (← WireRead.read)) Any (Encoded (α := β)) := by
  refine (h.map wrap).congr fun y bytes _ => ?_
  constructor
  · intro hbytes
    exact ⟨raw y, hbytes.trans (hencode y), (hwrap y).symm⟩
  · rintro ⟨x, hbytes, rfl⟩
    rw [Encoded, hencode, hraw]
    exact hbytes

theorem uint8 : Delimits (WireRead.read : WireReader UInt8) Any Encoded := byte

theorem uint16 : Delimits (WireRead.read : WireReader UInt16) Any Encoded :=
  word UInt16.toNat_lt (fun _ => UInt16.ofNat_toNat) fun _ h => UInt16.toNat_ofNat_of_lt' h

theorem uint32 : Delimits (WireRead.read : WireReader UInt32) Any Encoded :=
  word UInt32.toNat_lt (fun _ => UInt32.ofNat_toNat) fun _ h => UInt32.toNat_ofNat_of_lt' h

theorem uint64 : Delimits (WireRead.read : WireReader UInt64) Any Encoded :=
  word UInt64.toNat_lt (fun _ => UInt64.ofNat_toNat) fun _ h => UInt64.toNat_ofNat_of_lt' h

theorem bool : Delimits (WireRead.read : WireReader Bool) Any Encoded := by
  have hread : Delimits (WireRead.read : WireReader Bool) Any fun x bytes =>
      ∃ b, bytes = [b] ∧ b = (if x then 1 else 0) := by
    refine byte.finish fun b => ?_
    split
    next hfalse => exact (pure false).congr fun x _ _ => by cases x <;> simp [hfalse]
    next hfalse =>
      split
      next htrue => exact (pure true).congr fun x _ _ => by cases x <;> simp [htrue]
      next htrue => exact (throw _).congr fun x _ _ => by cases x <;> simp [hfalse, htrue]
  refine hread.congr fun x bytes _ => ?_
  constructor
  · rintro rfl
    exact ⟨_, rfl, rfl⟩
  · rintro ⟨_, rfl, rfl⟩
    rfl

theorem fixedBytes (n : Nat) :
    Delimits (WireRead.read : WireReader (FixedBytes n)) Any Encoded := by
  have hread : Delimits (WireRead.read : WireReader (FixedBytes n)) Any fun f bytes =>
      ∃ head, (bytes = head ∧ head.length = n) ∧ FixedBytes.ofBytes? n head = some f := by
    refine (split n).check (e := .formatting) (fun head f h => ?_) fun head h => ?_
    · rw [h]
    · rw [h]
  refine hread.congr fun f bytes _ => ?_
  constructor
  · rintro rfl
    exact ⟨f.bytes, ⟨rfl, f.length_eq⟩, FixedBytes.ofBytes?_bytes f⟩
  · rintro ⟨_, ⟨rfl, -⟩, hf⟩
    exact FixedBytes.ofBytes?_eq_some_iff.mp hf

theorem scriptHash : Delimits (WireRead.read : WireReader ScriptHash) Any Encoded :=
  (fixedBytes 20).wrap (fun _ => rfl) (fun _ => rfl) fun _ => rfl

theorem digest : Delimits (WireRead.read : WireReader Digest) Any Encoded :=
  (fixedBytes 32).wrap (fun _ => rfl) (fun _ => rfl) fun _ => rfl

theorem blockHash : Delimits (WireRead.read : WireReader BlockHash) Any Encoded :=
  digest.wrap (fun _ => rfl) (fun _ => rfl) fun _ => rfl

theorem transactionHash : Delimits (WireRead.read : WireReader TransactionHash) Any Encoded :=
  digest.wrap (fun _ => rfl) (fun _ => rfl) fun _ => rfl

/-! ## Texts -/

theorem string : Delimits (WireRead.read : WireReader String) Any Framed := by
  have hread : Delimits (WireRead.read : WireReader String) Any fun text bytes =>
      ∃ payload : Bytes, (payload.length ≤ VarBytes.maxLength ∧
        ∃ length, VarInt.Form payload.length length ∧ bytes = length ++ payload) ∧
        Text.ofUtf8? payload = some text := by
    refine (varBytes _).check (e := .formatting) (fun payload text h => ?_) fun payload h => ?_
    · rw [h]
    · rw [h]
  refine hread.congr fun text bytes _ => ?_
  constructor
  · intro hframed
    exact ⟨_, hframed, Text.ofUtf8?_utf8 text⟩
  · rintro ⟨payload, hframed, htext⟩
    obtain rfl := Text.utf8_of_ofUtf8? htext
    exact hframed

/-! ## Keys -/

theorem keyOfKind [WireWrite α] [WireRead α] {kind : α → StateKey} {tag : UInt8}
    (h : Delimits (WireRead.read : WireReader α) Any Encoded)
    (hkind : ∀ key, FixedLength key → (key.tag = tag ↔ ∃ x, key = kind x))
    (hpayload : ∀ x, (kind x).payload = WireWrite.encode x) :
    Delimits (do return kind (← WireRead.read)) FixedLength
      fun key bytes => key.tag = tag ∧ bytes = key.payload := by
  refine (h.map kind).congr fun key bytes hkey => ?_
  rw [hkind key hkey]
  constructor
  · rintro ⟨⟨x, rfl⟩, rfl⟩
    exact ⟨x, hpayload x, rfl⟩
  · rintro ⟨x, rfl, rfl⟩
    exact ⟨⟨x, rfl⟩, (hpayload x).symm⟩

theorem storage :
    Delimits (do return StateKey.storage (← WireRead.read)) FixedLength fun _ _ => False := by
  refine ⟨fun _ h => h.elim, fun _ h => h.elim, fun {key} {bytes} {rest} hkey hread => ?_⟩
  obtain ⟨storageKey, -, rfl⟩ := exists_of_run_map hread
  cases hkey

theorem readAfter (tag : UInt8) :
    Delimits (StateKey.readAfter tag) FixedLength
      fun key bytes => key.tag = tag ∧ bytes = key.payload := by
  by_cases h0 : tag = 0
  · subst h0
    refine keyOfKind scriptHash (fun key hkey => ?_) fun _ => rfl
    cases key <;> simp [StateKey.tag]
  by_cases h1 : tag = 1
  · subst h1
    refine storage.congr fun key bytes hkey => ?_
    cases key <;> simp_all [StateKey.tag, FixedLength, StateKey.storageKey?]
  by_cases h2 : tag = 2
  · subst h2
    refine keyOfKind blockHash (fun key hkey => ?_) fun _ => rfl
    cases key <;> simp [StateKey.tag]
  by_cases h3 : tag = 3
  · subst h3
    refine keyOfKind transactionHash (fun key hkey => ?_) fun _ => rfl
    cases key <;> simp [StateKey.tag]
  by_cases h4 : tag = 4
  · subst h4
    refine keyOfKind uint32 (fun key hkey => ?_) fun _ => rfl
    cases key <;> simp [StateKey.tag]
  by_cases h5 : tag = 5
  · subst h5
    refine (pure StateKey.chainTip).congr fun key bytes _ => ?_
    cases key <;> simp [StateKey.tag, StateKey.payload]
  · have hread : StateKey.readAfter tag = MonadExcept.throw .formatting := by
      simp [StateKey.readAfter, h0, h1, h2, h3, h4, h5]
    rw [hread]
    refine (throw _).congr fun key bytes _ => ?_
    cases key <;> simp [StateKey.tag, h0, h1, h2, h3, h4, h5, eq_comm]

theorem stateKey : Delimits (WireRead.read : WireReader StateKey) FixedLength Encoded := by
  rw [StateKey.read_eq]
  refine (byte.bind readAfter).congr fun key bytes _ => ?_
  constructor
  · rintro rfl
    exact ⟨key.tag, _, _, rfl, ⟨rfl, rfl⟩, rfl⟩
  · rintro ⟨_, _, _, rfl, ⟨rfl, rfl⟩, rfl⟩
    rfl

end Delimits

/-! ## What is written -/

def Written [WireWrite α] (value : α) (bytes : Bytes) : Prop := WireWrite.toBytes value = .ok bytes

/-- The values in `s` can be written, and reading takes what is written of one, and nothing else,
off the front. -/
structure SelfDelimiting (α : Type) [WireWrite α] [WireRead α] (s : α → Prop) : Prop where
  written : ∀ value : α, s value → ∃ bytes, Written value bytes
  delimits : Delimits (WireRead.read : WireReader α) s Written

theorem SelfDelimiting.of_encoded [WireWrite α] [WireRead α] {s : α → Prop}
    (h : Delimits (WireRead.read : WireReader α) s Encoded)
    (hwrite : ∀ value : α, s value → WireWrite.toBytes value = .ok (WireWrite.encode value)) :
    SelfDelimiting α s := by
  refine ⟨fun value hvalue => ⟨_, hwrite value hvalue⟩, h.congr fun value bytes hvalue => ?_⟩
  rw [Written, Encoded, hwrite value hvalue, Except.ok.injEq, eq_comm]

theorem fixedLength_size_le {key : StateKey} (h : key.FixedLength) :
    WireWrite.size key ≤ maxBufferSize := by
  have hsize : WireWrite.size key ≤ 33 := by
    cases key with
    | storage => cases h
    | contract | block | transaction => exact Nat.le_of_ble_eq_true rfl
    | blockHashAtHeight | chainTip => exact Nat.le_of_ble_eq_true rfl
  exact Nat.le_trans hsize (by decide)

theorem framed_write {text : String} (h : (Text.utf8 text).length ≤ VarBytes.maxLength) :
    ∃ bytes, Written text bytes ∧ Framed text bytes ∧
      ∀ other, Framed text other → other = bytes ∨ bytes.length < other.length := by
  have hlength : (Text.utf8 text).length < UInt64.size := Nat.lt_of_le_of_lt h (by decide)
  refine ⟨_, rfl, ⟨h, _, VarInt.form_write hlength, rfl⟩, ?_⟩
  rintro other ⟨-, length, hform, rfl⟩
  rcases Nat.eq_or_lt_of_le hform.size_le.1 with heq | hlt
  · left
    rw [hform.size_le.2 heq.symm]
    rfl
  · right
    rw [VarBytes.length_write, VarBytes.size, List.length_append]
    exact Nat.add_lt_add_right hlt _

/-- Scalars, fixed byte strings, hashes and the keys that are not of storage delimit themselves, and
so do texts, which alone may be framed in ways that are longer than what is written. Whatever a
buffer can hold is written to the same bytes in every way there is. -/
theorem formats_delimit_and_writers_agree :
    (SelfDelimiting UInt8 Any ∧ SelfDelimiting UInt16 Any ∧ SelfDelimiting UInt32 Any ∧
      SelfDelimiting UInt64 Any ∧ SelfDelimiting Bool Any ∧
      (∀ n, SelfDelimiting (FixedBytes n) Any) ∧ SelfDelimiting ScriptHash Any ∧
      SelfDelimiting Digest Any ∧ SelfDelimiting BlockHash Any ∧
      SelfDelimiting TransactionHash Any ∧ SelfDelimiting StateKey FixedLength) ∧
    (Delimits (WireRead.read : WireReader String) Any Framed ∧
      ∀ text, (Text.utf8 text).length ≤ VarBytes.maxLength →
        ∃ bytes, Written text bytes ∧ Framed text bytes ∧
          ∀ other, Framed text other → other = bytes ∨ bytes.length < other.length) ∧
    (WritersAgree UInt8 ∧ WritersAgree UInt16 ∧ WritersAgree UInt32 ∧ WritersAgree UInt64 ∧
      WritersAgree Bool ∧ (∀ n, WritersAgree (FixedBytes n)) ∧ WritersAgree String ∧
      WritersAgree ScriptHash ∧ WritersAgree Digest ∧ WritersAgree BlockHash ∧
      WritersAgree TransactionHash ∧ WritersAgree StorageKey ∧ WritersAgree StateKey ∧
      WritersAgree Header ∧ WritersAgree Transaction) := by
  refine ⟨⟨?_, ?_, ?_, ?_, ?_, fun n => ?_, ?_, ?_, ?_, ?_, ?_⟩,
    ⟨Delimits.string, fun _ => framed_write⟩, ?_⟩
  · exact .of_encoded Delimits.uint8 fun _ _ => rfl
  · exact .of_encoded Delimits.uint16 fun _ _ => rfl
  · exact .of_encoded Delimits.uint32 fun _ _ => rfl
  · exact .of_encoded Delimits.uint64 fun _ _ => rfl
  · exact .of_encoded Delimits.bool fun _ _ => rfl
  · exact .of_encoded (Delimits.fixedBytes n) fun _ _ => rfl
  · exact .of_encoded Delimits.scriptHash fun _ _ => rfl
  · exact .of_encoded Delimits.digest fun _ _ => rfl
  · exact .of_encoded Delimits.blockHash fun _ _ => rfl
  · exact .of_encoded Delimits.transactionHash fun _ _ => rfl
  · exact .of_encoded Delimits.stateKey fun key h =>
      LawfulWrite.toBytes_eq key (fixedLength_size_le h)
  · refine ⟨writersAgree _, writersAgree _, writersAgree _, writersAgree _, writersAgree _,
      fun n => writersAgree _, writersAgree _, writersAgree _, writersAgree _, writersAgree _,
      writersAgree _, writersAgree _, writersAgree _, writersAgree _, writersAgree _⟩

end Wire

end ContractHost
