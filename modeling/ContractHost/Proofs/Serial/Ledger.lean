import ContractHost.Proofs.Serial.Binary
import ContractHost.Proofs.Serial.Json
import ContractHost.Serial.Ledger

/-!
# The ledger comes back from both forms

Every type of the ledger is a record of fields or one of several kinds. So its spellings are those
of its parts put together, and its binary form is read one part after the other.
-/

namespace ContractHost

open BinaryForm JsonForm JsonSpelling

/-! ## Documents -/

section Documents

open LawfulJson

instance : JsonSpelling ScriptHash := ⟨fun hash => Spelled hash.raw⟩

instance : LawfulJson ScriptHash where
  spelled_toJson hash := spelled_toJson hash.raw
  ofJson?_of_spelled h := LawfulJson.map ScriptHash.mk h

instance : JsonSpelling Digest := ⟨fun digest => Spelled digest.raw⟩

instance : LawfulJson Digest where
  spelled_toJson digest := spelled_toJson digest.raw
  ofJson?_of_spelled h := LawfulJson.map Digest.mk h

instance : JsonSpelling BlockHash := ⟨fun hash => Spelled hash.digest⟩

instance : LawfulJson BlockHash where
  spelled_toJson hash := spelled_toJson hash.digest
  ofJson?_of_spelled h := LawfulJson.map BlockHash.mk h

instance : JsonSpelling TransactionHash := ⟨fun hash => Spelled hash.digest⟩

instance : LawfulJson TransactionHash where
  spelled_toJson hash := spelled_toJson hash.digest
  ofJson?_of_spelled h := LawfulJson.map TransactionHash.mk h

instance : JsonSpelling Transaction where
  Spelled t := Json.Record ["version", "nonce", "script", "signers"]
    [Spelled t.version, Spelled t.nonce, Spelled t.script, Spelled t.signers]

instance : LawfulJson Transaction where
  spelled_toJson t := .ofValues [toJson t.version, toJson t.nonce, toJson t.script,
    toJson t.signers] (by simp [spelled_toJson])
  ofJson?_of_spelled h := match h.fields? (by decide) rfl with
    | ⟨_, hfields, .cons hversion (.cons hnonce (.cons hscript (.cons hsigners .nil)))⟩ =>
      fields hfields (bind hversion (bind hnonce (bind hscript (bind hsigners rfl))))

instance : JsonSpelling TransactionState where
  Spelled t := Json.Record ["block_index", "transaction"]
    [Spelled t.blockIndex, Spelled t.transaction]

instance : LawfulJson TransactionState where
  spelled_toJson t := .ofValues [toJson t.blockIndex, toJson t.transaction]
    (by simp [spelled_toJson])
  ofJson?_of_spelled h := match h.fields? (by decide) rfl with
    | ⟨_, hfields, .cons hindex (.cons htransaction .nil)⟩ =>
      fields hfields (bind hindex (bind htransaction rfl))

instance : JsonSpelling Header where
  Spelled h := Json.Record
    ["version", "prev_hash", "merkle_root", "timestamp", "index", "next_consensus"]
    [Spelled h.version, Spelled h.prevHash, Spelled h.merkleRoot, Spelled h.timestamp,
      Spelled h.index, Spelled h.nextConsensus]

instance : LawfulJson Header where
  spelled_toJson h := .ofValues [toJson h.version, toJson h.prevHash, toJson h.merkleRoot,
    toJson h.timestamp, toJson h.index, toJson h.nextConsensus] (by simp [spelled_toJson])
  ofJson?_of_spelled h := match h.fields? (by decide) rfl with
    | ⟨_, hfields, .cons hversion (.cons hprev (.cons hroot (.cons htime (.cons hindex
        (.cons hnext .nil)))))⟩ =>
      fields hfields (bind hversion (bind hprev (bind hroot (bind htime (bind hindex
        (bind hnext rfl))))))

instance : JsonSpelling Block where
  Spelled b := Json.Record ["header", "transactions"] [Spelled b.header, Spelled b.transactions]

instance : LawfulJson Block where
  spelled_toJson b := .ofValues [toJson b.header, toJson b.transactions] (by simp [spelled_toJson])
  ofJson?_of_spelled h := match h.fields? (by decide) rfl with
    | ⟨_, hfields, .cons hheader (.cons htransactions .nil)⟩ =>
      fields hfields (bind hheader (bind htransactions rfl))

instance : JsonSpelling ChainTip where
  Spelled tip := Json.Record ["height", "hash"] [Spelled tip.height, Spelled tip.hash]

instance : LawfulJson ChainTip where
  spelled_toJson tip := .ofValues [toJson tip.height, toJson tip.hash] (by simp [spelled_toJson])
  ofJson?_of_spelled h := match h.fields? (by decide) rfl with
    | ⟨_, hfields, .cons hheight (.cons hhash .nil)⟩ =>
      fields hfields (bind hheight (bind hhash rfl))

instance : JsonSpelling ContractState where
  Spelled c := Json.Record ["script", "has_storage", "has_dynamic_invoke", "payable", "name"]
    [Spelled c.script, Spelled c.hasStorage, Spelled c.hasDynamicInvoke, Spelled c.payable,
      Spelled c.name]

instance : LawfulJson ContractState where
  spelled_toJson c := .ofValues [toJson c.script, toJson c.hasStorage, toJson c.hasDynamicInvoke,
    toJson c.payable, toJson c.name] (by simp [spelled_toJson])
  ofJson?_of_spelled h := match h.fields? (by decide) rfl with
    | ⟨_, hfields, .cons hscript (.cons hstorage (.cons hdynamic (.cons hpayable
        (.cons hname .nil))))⟩ =>
      fields hfields (bind hscript (bind hstorage (bind hdynamic (bind hpayable
        (bind hname rfl)))))

instance : JsonSpelling StorageKey where
  Spelled k := Json.Record ["script_hash", "key"] [Spelled k.scriptHash, Spelled k.key]

instance : LawfulJson StorageKey where
  spelled_toJson k := .ofValues [toJson k.scriptHash, toJson k.key] (by simp [spelled_toJson])
  ofJson?_of_spelled h := match h.fields? (by decide) rfl with
    | ⟨_, hfields, .cons hhash (.cons hkey .nil)⟩ => fields hfields (bind hhash (bind hkey rfl))

instance : JsonSpelling StorageItem where
  Spelled item := Json.Record ["value"] [Spelled item.value]

instance : LawfulJson StorageItem where
  spelled_toJson item := .ofValues [toJson item.value] (by simp [spelled_toJson])
  ofJson?_of_spelled h := match h.fields? (by decide) rfl with
    | ⟨_, hfields, .cons hvalue .nil⟩ => fields hfields (bind hvalue rfl)

instance : JsonSpelling StateKey where
  Spelled
    | .contract hash => Json.Tagged "Contract" (Spelled hash)
    | .storage key => Json.Tagged "Storage" (Spelled key)
    | .block hash => Json.Tagged "Block" (Spelled hash)
    | .transaction hash => Json.Tagged "Transaction" (Spelled hash)
    | .blockHashAtHeight height => Json.Tagged "BlockHashAtHeight" (Spelled height)
    | .chainTip => Json.Bare "ChainTip"

instance : LawfulJson StateKey where
  spelled_toJson key := by
    cases key with
    | contract v | storage v | block v | transaction v | blockHashAtHeight v =>
      exact ⟨_, spelled_toJson v, rfl⟩
    | chainTip => exact .inl rfl
  ofJson?_of_spelled := by
    intro key j h
    cases key with
    | contract v | storage v | block v | transaction v | blockHashAtHeight v =>
      obtain ⟨contents, hcontents, rfl⟩ := h
      exact LawfulJson.map _ hcontents
    | chainTip => rcases h with rfl | rfl <;> rfl

instance : JsonSpelling StoredValue where
  Spelled
    | .contract c => Json.Tagged "Contract" (Spelled c)
    | .storageItem item => Json.Tagged "StorageItem" (Spelled item)
    | .block b => Json.Tagged "Block" (Spelled b)
    | .header h => Json.Tagged "Header" (Spelled h)
    | .transaction t => Json.Tagged "Transaction" (Spelled t)
    | .blockHash hash => Json.Tagged "BlockHash" (Spelled hash)
    | .chainTip tip => Json.Tagged "ChainTip" (Spelled tip)

instance : LawfulJson StoredValue where
  spelled_toJson value := by
    cases value with
    | contract v | storageItem v | block v | header v | transaction v | blockHash v | chainTip v =>
      exact ⟨_, spelled_toJson v, rfl⟩
  ofJson?_of_spelled := by
    intro value j h
    cases value with
    | contract v | storageItem v | block v | header v | transaction v | blockHash v | chainTip v =>
      obtain ⟨contents, hcontents, rfl⟩ := h
      exact LawfulJson.map _ hcontents

end Documents

/-! ## Binary forms -/

section Binary

open LawfulBinary

instance : LawfulBinary ScriptHash :=
  of_wrapped ScriptHash.raw ScriptHash.mk (fun _ => rfl) (fun _ => rfl) rfl

instance : LawfulBinary Digest :=
  of_wrapped Digest.raw Digest.mk (fun _ => rfl) (fun _ => rfl) rfl

instance : LawfulBinary BlockHash :=
  of_wrapped BlockHash.digest BlockHash.mk (fun _ => rfl) (fun _ => rfl) rfl

instance : LawfulBinary TransactionHash :=
  of_wrapped TransactionHash.digest TransactionHash.mk (fun _ => rfl) (fun _ => rfl) rfl

instance : LawfulBinary StorageItem :=
  of_wrapped StorageItem.value StorageItem.mk (fun _ => rfl) (fun _ => rfl) rfl

instance : LawfulBinary Transaction := by
  apply of_fields Transaction.version fun t => write t.nonce ++ (write t.script ++ write t.signers)
  · intro t
    simp only [← List.append_assoc]
    rfl
  · intro t h
    exact field h fun h => field h fun h => field h (lastField _)

instance : LawfulBinary TransactionState := by
  apply of_fields TransactionState.blockIndex fun t => write t.transaction
  · intro t
    rfl
  · intro t h
    exact field h (lastField _)

instance : LawfulBinary Header := by
  apply of_fields Header.version fun h => write h.prevHash ++ (write h.merkleRoot ++
    (write h.timestamp ++ (write h.index ++ write h.nextConsensus)))
  · intro h
    simp only [← List.append_assoc]
    rfl
  · intro header h
    exact field h fun h => field h fun h => field h fun h => field h fun h =>
      field h (lastField _)

instance : LawfulBinary Block := by
  apply of_fields Block.header fun b => write b.transactions
  · intro b
    rfl
  · intro b h
    exact field h (lastField _)

instance : LawfulBinary ChainTip := by
  apply of_fields ChainTip.height fun tip => write tip.hash
  · intro tip
    rfl
  · intro tip h
    exact field h (lastField _)

instance : LawfulBinary ContractState := by
  apply of_fields ContractState.script fun c => write c.hasStorage ++
    (write c.hasDynamicInvoke ++ (write c.payable ++ write c.name))
  · intro c
    simp only [← List.append_assoc]
    rfl
  · intro c h
    exact field h fun h => field h fun h => field h fun h => field h (lastField _)

instance : LawfulBinary StorageKey := by
  apply of_fields StorageKey.scriptHash fun k => write k.key
  · intro k
    rfl
  · intro k h
    exact field h (lastField _)

instance : LawfulBinary StateKey where
  length_pos key := by cases key <;> exact littleEndian_length_pos (Nat.succ_pos 3) _ _
  readsOff key h := by
    cases key with
    | contract | storage | block | transaction | blockHashAtHeight =>
      exact kind h (by decide) (lastField _)
    | chainTip =>
      rw [← List.append_nil (write StateKey.chainTip)] at h ⊢
      exact kind h (by decide) fun _ => .pure _

instance : LawfulBinary StoredValue where
  length_pos value := by cases value <;> exact littleEndian_length_pos (Nat.succ_pos 3) _ _
  readsOff value h := by
    cases value with
    | contract | storageItem | block | header | transaction | blockHash | chainTip =>
      exact kind h (by decide) (lastField _)

end Binary

/-! ## Both forms -/

/-- The values of a type come back from documents and from bytes. Forms of 2^64 bytes or more are
left out: a machine of 64 bits holds no such form, nor a value that has one. -/
structure RoundTrips (α : Type) [JsonForm α] [JsonSpelling α] [BinaryForm α] : Prop where
  toJson_spelled : ∀ x : α, Spelled x (toJson x)
  /-- A value is read from every spelling of it. -/
  ofJson_spelled : ∀ (x : α) (j : Json), Spelled x j → ofJson? j = some x
  /-- A value is decoded from its form, whatever follows it. -/
  decode_write : ∀ x : α, (write x).length < UInt64.size →
    ∀ rest, decode? (write x ++ rest) = some x
  /-- Nothing is decoded from a part of a form. -/
  decode_part : ∀ x : α, (write x).length < UInt64.size →
    ∀ part, part <+: write x → part ≠ write x → (decode? part : Option α) = none
  write_injective : ∀ x y : α, (write x).length < UInt64.size → write x = write y → x = y

theorem RoundTrips.of_lawful {α : Type} [JsonForm α] [JsonSpelling α] [LawfulJson α]
    [BinaryForm α] [LawfulBinary α] : RoundTrips α where
  toJson_spelled := LawfulJson.spelled_toJson
  ofJson_spelled _ _ := LawfulJson.ofJson?_of_spelled
  decode_write x hlength rest := by
    rw [decode?, (LawfulBinary.readsOff x hlength).read_back]
    rfl
  decode_part x hlength part hpart hne := by
    rw [decode?, (LawfulBinary.readsOff x hlength).cut_short part hpart hne]
    rfl
  write_injective x y hlength heq := by
    have hread := (LawfulBinary.readsOff x hlength).read_back []
    rw [heq] at hlength hread
    rw [(LawfulBinary.readsOff y hlength).read_back] at hread
    cases hread
    rfl

/-- Keys, stored values and all that is in them come back from both of their forms. -/
theorem ledger_round_trips :
    RoundTrips StateKey ∧ RoundTrips StoredValue ∧ RoundTrips ScriptHash ∧ RoundTrips Digest ∧
    RoundTrips BlockHash ∧ RoundTrips TransactionHash ∧ RoundTrips Header ∧ RoundTrips Block ∧
    RoundTrips Transaction ∧ RoundTrips TransactionState ∧ RoundTrips ContractState ∧
    RoundTrips StorageKey ∧ RoundTrips StorageItem ∧ RoundTrips ChainTip :=
  ⟨.of_lawful, .of_lawful, .of_lawful, .of_lawful, .of_lawful, .of_lawful, .of_lawful, .of_lawful,
    .of_lawful, .of_lawful, .of_lawful, .of_lawful, .of_lawful, .of_lawful⟩

/-- A height with a byte behind it and with its last byte missing, and a storage key with its fields
the other way round and an upper-case digit in its hash. -/
theorem ledger_round_trips_height :
    decode? [4, 0, 0, 0, 7, 0, 0, 0, 9] = some (StateKey.blockHashAtHeight 7) ∧
      (decode? [4, 0, 0, 0, 7, 0, 0] : Option StateKey) = none ∧
      ofJson? (.object [("key", .array [.integer 7]),
        ("script_hash", .string "00000000000000000000000000000000000000aA")]) =
          some (⟨⟨⟨List.replicate 19 0 ++ [0xAA], rfl⟩⟩, [7]⟩ : StorageKey) := by
  obtain ⟨hkeys, -, -, -, -, -, -, -, -, -, -, hstorage, -⟩ := ledger_round_trips
  refine ⟨hkeys.decode_write (.blockHashAtHeight 7) (by decide) [9],
    hkeys.decode_part (.blockHashAtHeight 7) (by decide) _ ⟨[0], rfl⟩ (by decide), ?_⟩
  apply hstorage.ofJson_spelled
  have hdigits : SameDigits "00000000000000000000000000000000000000aA".toList
      (toHex (List.replicate 19 0 ++ [0xAA])).toList := by
    unfold SameDigits
    decide
  have hhash : Spelled (⟨⟨List.replicate 19 0 ++ [0xAA], rfl⟩⟩ : ScriptHash)
      (.string "00000000000000000000000000000000000000aA") := ⟨_, hdigits, rfl⟩
  have hkey : Spelled [(7 : UInt8)] (.array [.integer 7]) := ⟨_, .cons rfl .nil, rfl⟩
  exact .object (.cons hhash (.cons hkey .nil)) (.swap _ _ _)

end ContractHost
