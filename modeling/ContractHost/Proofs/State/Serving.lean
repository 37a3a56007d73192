import Mathlib.Data.List.Sort
import ContractHost.Proofs.Wire.Writing
import ContractHost.State.Store

/-!
# Stores that serve steady contents

What a store has may be read as long as it stays the same. Reading may fail and may change a
store's bookkeeping, but never finds anything else. The store in memory is such a store: it lists
exactly the keys it has, in order.
-/

namespace ContractHost

/-- What reading finds in a store of steady contents, if it does not fail. -/
structure Serves {σ : Type} [StateReader σ] (steady : σ → Prop)
    (contents : StateKey → Option StoredValue) : Prop where
  stays_read : ∀ store key, steady store → steady (StateReader.read key store).2
  stays_keysUnder : ∀ store stem, steady store → steady (StateReader.keysUnder stem store).2
  read : ∀ store key found, steady store → (StateReader.read key store).1 = .ok found →
    found = contents key
  keysUnder : ∀ store stem keys, steady store → (StateReader.keysUnder stem store).1 = .ok keys →
    ∀ key, key ∈ keys ↔ (contents key).isSome ∧ stem <+: WireWrite.encode key

/-- Reading does not fail. -/
structure Faultless {σ : Type} [StateReader σ] (steady : σ → Prop) : Prop where
  read : ∀ store key, steady store → ∃ found, (StateReader.read key store).1 = .ok found
  keysUnder : ∀ store stem, steady store → ∃ keys, (StateReader.keysUnder stem store).1 = .ok keys

theorem Serves.never {σ : Type} [StateReader σ] :
    Serves (fun _ : σ => False) (fun _ => none) :=
  ⟨fun _ _ h => h, fun _ _ h => h, fun _ _ _ h => h.elim, fun _ _ _ h => h.elim⟩

namespace StateKey

theorem toBytes_eq (key : StateKey) :
    Wire.serialize key =
      if WireWrite.size key ≤ Wire.maxBufferSize then .ok (WireWrite.encode key)
      else .error .outOfMemory :=
  Wire.intoBuffer_eq size encode key

theorem mem_selectUnder {stem : Bytes} {keys selected : List StateKey}
    (h : selectUnder stem keys = .ok selected) (key : StateKey) :
    key ∈ selected ↔ key ∈ keys ∧ stem <+: WireWrite.encode key := by
  induction keys generalizing selected with
  | nil =>
    cases h
    simp
  | cons first keys ih =>
    rw [selectUnder, toBytes_eq] at h
    split at h
    next =>
      cases hrest : selectUnder stem keys with
      | error e =>
        rw [hrest] at h
        cases h
      | ok rest =>
        rw [hrest] at h
        change Except.ok (if stem.isPrefixOf (WireWrite.encode first) then first :: rest else rest) =
          _ at h
        have hmem := ih hrest
        by_cases hstem : stem.isPrefixOf (WireWrite.encode first)
        · have hfirst : stem <+: WireWrite.encode first := List.isPrefixOf_iff_prefix.mp hstem
          rw [if_pos hstem] at h
          cases h
          rw [List.mem_cons, List.mem_cons, hmem]
          constructor
          · rintro (rfl | ⟨hkey, hprefix⟩)
            · exact ⟨.inl rfl, hfirst⟩
            · exact ⟨.inr hkey, hprefix⟩
          · rintro ⟨rfl | hkey, hprefix⟩
            · exact .inl rfl
            · exact .inr ⟨hkey, hprefix⟩
        · have hfirst : ¬stem <+: WireWrite.encode first :=
            fun hprefix => hstem (List.isPrefixOf_iff_prefix.mpr hprefix)
          rw [if_neg hstem] at h
          cases h
          rw [List.mem_cons, hmem]
          constructor
          · rintro ⟨hkey, hprefix⟩
            exact ⟨.inr hkey, hprefix⟩
          · rintro ⟨rfl | hkey, hprefix⟩
            · exact absurd hprefix hfirst
            · exact ⟨hkey, hprefix⟩
    next => cases h

theorem selectUnder_total (stem : Bytes) {keys : List StateKey}
    (h : ∀ key ∈ keys, WireWrite.size key ≤ Wire.maxBufferSize) :
    ∃ selected, selectUnder stem keys = .ok selected := by
  induction keys with
  | nil => exact ⟨[], rfl⟩
  | cons first keys ih =>
    rw [List.forall_mem_cons] at h
    obtain ⟨rest, hrest⟩ := ih h.2
    rw [selectUnder, toBytes_eq, if_pos h.1, hrest]
    exact ⟨_, rfl⟩

theorem size_le_of_selectUnder {stem : Bytes} {keys selected : List StateKey}
    (h : selectUnder stem keys = .ok selected) :
    ∀ key ∈ keys, WireWrite.size key ≤ Wire.maxBufferSize := by
  induction keys generalizing selected with
  | nil =>
    intro key hkey
    cases hkey
  | cons first keys ih =>
    rw [selectUnder, toBytes_eq] at h
    split at h
    next hfirst =>
      cases hrest : selectUnder stem keys with
      | error e =>
        rw [hrest] at h
        cases h
      | ok rest => exact List.forall_mem_cons.mpr ⟨hfirst, ih hrest⟩
    next => cases h

theorem mem_sorted {keys : List StateKey} {key : StateKey} : key ∈ sorted keys ↔ key ∈ keys := by
  rw [sorted, Std.TreeSet.mem_toList]
  simp

theorem pairwise_sorted (keys : List StateKey) :
    (sorted keys).Pairwise fun a b => compare a b = .lt :=
  Std.TreeSet.ordered_toList

theorem eq_of_mem_iff {keys keys' : List StateKey}
    (h : keys.Pairwise fun a b => compare a b = .lt)
    (h' : keys'.Pairwise fun a b => compare a b = .lt) (hmem : ∀ key, key ∈ keys ↔ key ∈ keys') :
    keys = keys' := by
  have : Std.Irrefl fun a b : StateKey => compare a b = .lt := by
    refine ⟨fun a haa => ?_⟩
    cases haa.symm.trans (Std.ReflCmp.compare_self : compare a a = .eq)
  have : Std.Antisymm fun a b : StateKey => compare a b = .lt := by
    refine ⟨fun a b hab hba => ?_⟩
    cases hba.symm.trans (Std.OrientedCmp.gt_of_lt hab)
  exact h.eq_of_mem_iff h' hmem

end StateKey

namespace MemoryStore

theorem get?_ofPairs_singleton (key : StateKey) (value : StoredValue) (other : StateKey) :
    (ofPairs [(key, value)]).get? other = if key = other then some value else none := by
  have hinsert : ((∅ : Std.TreeMap StateKey StoredValue).insert key value)[other]? =
      if compare key other = .eq then some value else none := by
    rw [Std.TreeMap.getElem?_insert, Std.TreeMap.getElem?_emptyc]
  change ((∅ : Std.TreeMap StateKey StoredValue).insert key value)[other]? = _
  rw [hinsert]
  simp only [Std.LawfulEqCmp.compare_eq_iff_eq]

theorem serves (store : MemoryStore) : Serves (· = store) store.get? where
  stays_read _ _ h := h
  stays_keysUnder _ _ h := h
  read := by
    rintro _ key found rfl h
    cases h
    rfl
  keysUnder := by
    rintro store stem keys rfl h key
    change store.keysUnder stem = .ok keys at h
    rw [keysUnder] at h
    cases hselect : StateKey.selectUnder stem store.entries.keys with
    | error e =>
      rw [hselect] at h
      cases h
    | ok selected =>
      rw [hselect] at h
      cases h
      rw [StateKey.mem_selectUnder hselect, Std.TreeMap.mem_keys,
        Std.TreeMap.mem_iff_isSome_getElem?]
      rfl

theorem faultless {store : MemoryStore}
    (h : ∀ key, (store.get? key).isSome → WireWrite.size key ≤ Wire.maxBufferSize) :
    Faultless (· = store) where
  read := by
    rintro _ key rfl
    exact ⟨_, rfl⟩
  keysUnder := by
    rintro store stem rfl
    have hsize : ∀ key ∈ store.entries.keys, WireWrite.size key ≤ Wire.maxBufferSize :=
      fun key hkey =>
        h key (Std.TreeMap.mem_iff_isSome_getElem?.mp (Std.TreeMap.mem_keys.mp hkey))
    obtain ⟨selected, hselect⟩ := StateKey.selectUnder_total stem hsize
    refine ⟨selected, ?_⟩
    change store.keysUnder stem = .ok selected
    rw [keysUnder, hselect]
    rfl

end MemoryStore

end ContractHost
