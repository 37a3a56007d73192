import ContractHost.Proofs.State.Within
import ContractHost.Proofs.Wire.Formats

/-!
# Keys and their wire forms

Keys and the byte strings they are written to name each other. The keys of a contract's storage
are told by how the bytes begin, whatever key the contract chose.
-/

namespace ContractHost

namespace Wire

theorem deserialize_eq_ok_iff {α : Type} [WireRead α] {bytes : Bytes} {value : α} :
    deserialize bytes = .ok value ↔ (WireRead.read : WireReader α).run bytes = .ok (value, []) := by
  rw [deserialize]
  constructor
  · intro h
    cases hread : (WireRead.read : WireReader α).run bytes with
    | error e =>
      rw [hread] at h
      cases h
    | ok found =>
      obtain ⟨value', rest⟩ := found
      rw [hread] at h
      cases rest <;> cases h
      rfl
  · intro h
    rw [h]
    rfl

theorem Delimits.deserialize_iff {α : Type} [WireRead α] {s : α → Prop} {Form : α → Bytes → Prop}
    (h : Delimits (WireRead.read : WireReader α) s Form) {value : α} (hs : s value)
    {bytes : Bytes} : deserialize bytes = .ok value ↔ Form value bytes := by
  rw [deserialize_eq_ok_iff]
  constructor
  · intro hread
    obtain ⟨form, hform, hbytes⟩ := h.only_form hs hread
    rw [List.append_nil] at hbytes
    exact hbytes ▸ hform
  · intro hform
    have hread := h.read_back hs hform []
    rwa [List.append_nil] at hread

end Wire

theorem StorageKey.run_read_iff {bytes rest : Bytes} {key : StorageKey} :
    (WireRead.read : WireReader StorageKey).run bytes = .ok (key, rest) ↔
      bytes = WireWrite.encode key ∧ rest = [] := by
  have hread : (WireRead.read : WireReader StorageKey) = WireRead.read >>= fun scriptHash =>
      fun bytes => .ok (⟨scriptHash, bytes⟩, []) := rfl
  rw [hread, StateT.run_bind]
  constructor
  · intro h
    cases hhash : (WireRead.read : WireReader ScriptHash).run bytes with
    | error e =>
      rw [hhash] at h
      cases h
    | ok found =>
      obtain ⟨form, hform, hbytes⟩ := Wire.Delimits.scriptHash.only_form trivial hhash
      rw [hhash] at h
      cases h
      rw [hbytes, hform]
      exact ⟨rfl, rfl⟩
  · rintro ⟨rfl, rfl⟩
    have hhash := Wire.Delimits.scriptHash.read_back (x := key.scriptHash) trivial rfl key.key
    change _ = Except.ok (key, [])
    rw [show WireWrite.encode key = WireWrite.encode key.scriptHash ++ key.key from rfl, hhash]
    rfl

namespace StateKey

theorem tag_of_readAfter {tag : UInt8} {bytes rest : Bytes} {key : StateKey}
    (h : (readAfter tag).run bytes = .ok (key, rest)) : key.tag = tag := by
  unfold readAfter at h
  repeat' split at h
  any_goals
    obtain ⟨_, -, rfl⟩ := Wire.exists_of_run_map h
    exact Eq.symm ‹_›
  next htag =>
    cases h
    exact htag.symm
  next => cases h

theorem deserialize_storage_iff {bytes : Bytes} {key : StorageKey} :
    Wire.deserialize bytes = .ok (storage key) ↔ bytes = WireWrite.encode (storage key) := by
  rw [Wire.deserialize_eq_ok_iff, read_eq]
  constructor
  · intro h
    cases bytes with
    | nil => cases h
    | cons tag tail =>
      change (readAfter tag).run tail = _ at h
      have htag : tag = 1 := (tag_of_readAfter h).symm
      subst htag
      obtain ⟨found, hread, heq⟩ := Wire.exists_of_run_map (f := storage) h
      cases heq
      obtain ⟨rfl, -⟩ := StorageKey.run_read_iff.mp hread
      rfl
  · rintro rfl
    have hread := StorageKey.run_read_iff.mpr ⟨(rfl : WireWrite.encode key = _), rfl⟩
    change (WireRead.read >>= fun key => pure (storage key) : WireReader StateKey).run
      (WireWrite.encode key) = _
    rw [StateT.run_bind, hread]
    rfl

/-- A key is read from its wire form and from nothing else. -/
theorem deserialize_iff {bytes : Bytes} {key : StateKey} :
    Wire.deserialize bytes = .ok key ↔ bytes = WireWrite.encode key := by
  cases key with
  | storage key => exact deserialize_storage_iff
  | contract | block | transaction | blockHashAtHeight | chainTip =>
    exact Wire.Delimits.stateKey.deserialize_iff (by rfl)

theorem encode_of_toBytes {key : StateKey} {bytes : Bytes} (h : WireWrite.toBytes key = .ok bytes) :
    WireWrite.encode key = bytes := by
  change Wire.serialize key = _ at h
  rw [toBytes_eq] at h
  split at h
  next => exact Except.ok.inj h
  next => cases h

theorem encode_injective {key other : StateKey}
    (h : WireWrite.encode other = WireWrite.encode key) : other = key := by
  have hread := deserialize_iff.mpr h
  rw [deserialize_iff.mpr (rfl : WireWrite.encode other = _)] at hread
  exact Except.ok.inj hread

theorem stem_prefix_iff {hash : ScriptHash} {key : StateKey} :
    storageStem hash <+: WireWrite.encode key ↔ ∃ chosen, key = storage ⟨hash, chosen⟩ := by
  constructor
  · intro h
    have htag : 1 = key.tag := (List.cons_prefix_cons.mp h).1
    cases key with
    | storage key =>
      have howner := storageStem_prefix_iff.mp h
      exact ⟨key.key, by rw [← howner]⟩
    | contract | block | transaction | blockHashAtHeight | chainTip => simp [tag] at htag
  · rintro ⟨chosen, rfl⟩
    exact storageStem_prefix_iff.mpr rfl

/-- Keys that a buffer can hold are read from what is written of them and from nothing else, no two
are written alike, and what is written begins with a contract's stem just if the key is one of the
contract's storage. -/
theorem keys_and_bytes_correspond (key : StateKey)
    (hsize : WireWrite.size key ≤ Wire.maxBufferSize) :
    (∀ bytes, Wire.deserialize bytes = .ok key ↔ WireWrite.toBytes key = .ok bytes) ∧
    (∀ other : StateKey, WireWrite.toBytes other = WireWrite.toBytes key → other = key) ∧
    ∃ bytes, WireWrite.toBytes key = .ok bytes ∧
      ∀ hash, storageStem hash <+: bytes ↔ ∃ chosen, key = storage ⟨hash, chosen⟩ := by
  have hwrite : WireWrite.toBytes key = .ok (WireWrite.encode key) :=
    LawfulWrite.toBytes_eq key hsize
  refine ⟨fun bytes => ?_, fun other hsame => ?_, _, hwrite, fun hash => stem_prefix_iff⟩
  · rw [hwrite, Except.ok.injEq, deserialize_iff, eq_comm]
  · rw [hwrite] at hsame
    exact encode_injective (encode_of_toBytes hsame)

theorem keys_and_bytes_correspond_storage :
    let key := storage ⟨⟨FixedBytes.zero 20⟩, [1, 2, 3]⟩
    WireWrite.size key ≤ Wire.maxBufferSize ∧
    (∀ bytes, Wire.deserialize bytes = .ok key ↔ WireWrite.toBytes key = .ok bytes) ∧
    (∀ other : StateKey, WireWrite.toBytes other = WireWrite.toBytes key → other = key) ∧
    ∃ bytes, WireWrite.toBytes key = .ok bytes ∧
      ∀ hash, storageStem hash <+: bytes ↔ ∃ chosen, key = storage ⟨hash, chosen⟩ := by
  have hsize : WireWrite.size (storage ⟨⟨FixedBytes.zero 20⟩, [1, 2, 3]⟩) ≤ Wire.maxBufferSize := by
    decide
  exact ⟨hsize, keys_and_bytes_correspond _ hsize⟩

end StateKey

end ContractHost
