import ContractHost.Proofs.State.Overlay

/-!
# Changes within some keys

A step keeps its changes within some keys if no other key shows a different value after it and no
other key is written or pruned in the log.
-/

namespace ContractHost

section

variable {σ : Type} (steady : σ → Prop) (contents : StateKey → Option StoredValue)

/-- Only the given keys are changed, and the cache stays in agreement with store and log. -/
structure Workspace.Within (keys : StateKey → Prop) (w w' : Workspace σ) : Prop where
  faithful : w.Faithful steady contents → w'.Faithful steady contents
  tracked : w.snapshot.Tracked → w'.snapshot.Tracked
  view : ∀ key, ¬keys key →
    w'.snapshot.cache.view contents key = w.snapshot.cache.view contents key
  changes : ∃ more, w'.snapshot.effects.changes = w.snapshot.effects.changes ++ more ∧
    ∀ t ∈ more, keys t.key

instance (keys : StateKey → Prop) :
    IsPreorder (Workspace σ) (Workspace.Within steady contents keys) where
  refl w := ⟨id, id, fun _ _ => rfl, [], (List.append_nil _).symm, fun _ h => by cases h⟩
  trans a b c hab hbc := by
    obtain ⟨more, hmore, hkeys⟩ := hab.changes
    obtain ⟨more', hmore', hkeys'⟩ := hbc.changes
    refine ⟨hbc.faithful ∘ hab.faithful, hbc.tracked ∘ hab.tracked,
      fun key hkey => (hbc.view key hkey).trans (hab.view key hkey), more ++ more', ?_, ?_⟩
    · rw [hmore', hmore, List.append_assoc]
    · exact fun t ht => (List.mem_append.mp ht).elim (hkeys t) (hkeys' t)

end

variable {σ : Type} {steady : σ → Prop} {contents : StateKey → Option StoredValue}
  {keys : StateKey → Prop}

theorem Workspace.Quiet.within {w w' : Workspace σ} (h : w.Quiet steady contents w') :
    w.Within steady contents keys w' := by
  refine ⟨h.faithful, h.advances.tracked, fun key _ => ?_, [], ?_, fun _ h => by cases h⟩
  · obtain ⟨cache, hsame, hsnapshot⟩ := h.snapshot
    rw [hsnapshot, hsame.view]
  · rw [h.effects, List.append_nil]

namespace Cache

theorem view_insertWrite (c : Cache) {key other : StateKey} (h : key ≠ other)
    (value : StoredValue) : (c.insertWrite key value).view contents other = c.view contents other := by
  have hpruned : (c.insertWrite key value).isPruned other = c.isPruned other := by
    simp [insertWrite, isPruned, Ne.symm h]
  rw [view, view, hpruned, insertWrite, find?_cons, find?_without, if_neg h, if_neg h]

theorem view_insertPrune (c : Cache) {key other : StateKey} (h : key ≠ other) :
    (c.insertPrune key).view contents other = c.view contents other := by
  have hpruned : (c.insertPrune key).isPruned other = c.isPruned other := by
    simp [insertPrune, isPruned, Ne.symm h]
  rw [view, view, hpruned, insertPrune, find?_without, if_neg h]

end Cache

theorem StateKey.storageStem_prefix_iff {hash : ScriptHash} {key : StorageKey} :
    storageStem hash <+: WireWrite.encode (StateKey.storage key) ↔ key.scriptHash = hash := by
  constructor
  · intro h
    have hbytes : hash.raw.bytes <+: key.scriptHash.raw.bytes ++ key.key :=
      (List.cons_prefix_cons.mp h).2
    have hlength : hash.raw.bytes.length = key.scriptHash.raw.bytes.length := by
      rw [hash.raw.length_eq, key.scriptHash.raw.length_eq]
    have hprefix : key.scriptHash.raw.bytes <+: key.scriptHash.raw.bytes ++ key.key :=
      List.prefix_append _ _
    have hsame :=
      (List.prefix_of_prefix_length_le hbytes hprefix (Nat.le_of_eq hlength)).eq_of_length hlength
    rcases hash with ⟨raw⟩
    rcases key with ⟨⟨raw'⟩, key⟩
    exact congrArg ScriptHash.mk (FixedBytes.ext hsame.symm)
  · rintro rfl
    exact List.cons_prefix_cons.mpr ⟨rfl, List.prefix_append _ _⟩

namespace Snapshot

theorem write_within {key : StateKey} (hkey : keys key) (value : StoredValue) :
    Moves (Workspace.Within (σ := σ) steady contents keys) (write key value) := by
  intro w
  refine ⟨fun hw => ⟨hw.steady, hw.current⟩, fun hw => hw.write key value, fun other hother => ?_,
    [⟨key, .write value⟩], ?_, ?_⟩
  · have hne : key ≠ other := fun h => hother (h ▸ hkey)
    exact w.snapshot.cache.view_insertWrite hne value
  · exact Effects.changes_concat w.snapshot.effects ⟨key, .write value⟩
  · simpa using hkey

theorem prune_within {key : StateKey} (hkey : keys key) :
    Moves (Workspace.Within (σ := σ) steady contents keys) (prune key) := by
  intro w
  refine ⟨fun hw => ⟨hw.steady, hw.current⟩, fun hw => hw.prune key, fun other hother => ?_,
    [⟨key, .prune⟩], ?_, ?_⟩
  · have hne : key ≠ other := fun h => hother (h ▸ hkey)
    exact w.snapshot.cache.view_insertPrune hne
  · exact Effects.changes_concat w.snapshot.effects ⟨key, .prune⟩
  · simpa using hkey

variable [StateReader σ]

theorem prefix_of_keysUnder (hstore : Serves steady contents) {stem : Bytes} {w : Workspace σ}
    (hw : steady w.store) {listed : List StateKey}
    (h : ((keysUnder stem).run w).1 = .ok listed) :
    ∀ key ∈ listed, stem <+: WireWrite.encode key := by
  obtain ⟨stored, written, hstored, hwritten, rfl⟩ := exists_of_keysUnder h
  intro key hkey
  rcases List.mem_append.mp (StateKey.mem_sorted.mp hkey) with hkey | hkey
  · have hmem := (List.mem_filter.mp hkey).1
    exact ((hstore.keysUnder w.store stem stored hw hstored key).mp hmem).2
  · exact ((StateKey.mem_selectUnder hwritten key).mp hkey).2

theorem owner_of_storageKeys (hstore : Serves steady contents) {hash : ScriptHash}
    {w w' : Workspace σ} (hw : steady w.store) {listed : List StorageKey}
    (h : (storageKeys hash).run w = (.ok listed, w')) : ∀ key ∈ listed, key.scriptHash = hash := by
  obtain ⟨all, middle, hall, hlisted⟩ := exists_of_run_bind h
  cases hlisted
  intro key hkey
  obtain ⟨stateKey, hmem, hstorage⟩ := List.mem_filterMap.mp hkey
  have hprefix := prefix_of_keysUnder hstore hw (congrArg Prod.fst hall) stateKey hmem
  cases stateKey <;> cases hstorage
  exact StateKey.storageStem_prefix_iff.mp hprefix

/-- Pruning a contract's storage changes no key of another contract. -/
theorem pruneStorage_within (hstore : Serves steady contents) {hash : ScriptHash}
    (hkeys : ∀ key : StorageKey, key.scriptHash = hash → keys (.storage key)) {w : Workspace σ}
    (hw : steady w.store) :
    w.Within steady contents keys ((pruneStorage hash).run w).2 := by
  refine related_bind (storageKeys_quiet hstore hash w).within fun listed w' hlisted hsame => ?_
  have howner := owner_of_storageKeys hstore hw hlisted
  have hprune : Moves (Workspace.Within steady contents keys)
      (listed.forM fun key => (prune (.storage key) : SnapshotM σ Unit)) :=
    Moves.forM fun key hkey => prune_within (hkeys key (howner key hkey))
  exact IsTrans.trans _ _ _ hsame (hprune w')

theorem getAs_shows (hstore : Serves steady contents) {α : Type}
    {convert : StoredValue → Except TypeMismatch α} {key : StateKey} {w : Workspace σ}
    (hw : w.Faithful steady contents) {a : α}
    (h : ((getAs convert key).run w).1 = .ok (some a)) :
    ∃ value, w.snapshot.cache.view contents key = some value ∧ convert value = .ok a := by
  have hrun : (getAs convert key).run w = (.ok (some a), ((getAs convert key).run w).2) :=
    Prod.ext h rfl
  obtain ⟨found, middle, hfound, hconvert⟩ := exists_of_run_bind hrun
  have hshows := get_shows hstore hw (congrArg Prod.fst hfound)
  cases found with
  | none => cases hconvert
  | some value =>
    refine ⟨value, hshows.symm, ?_⟩
    dsimp only at hconvert
    split at hconvert
    next b hb =>
      cases hconvert
      exact hb
    next => cases hconvert

theorem view_of_getAs_none (hstore : Serves steady contents) {α : Type}
    {convert : StoredValue → Except TypeMismatch α} {key : StateKey} {w : Workspace σ}
    (hw : w.Faithful steady contents) (h : ((getAs convert key).run w).1 = .ok none) :
    w.snapshot.cache.view contents key = none := by
  have hrun : (getAs convert key).run w = (.ok none, ((getAs convert key).run w).2) :=
    Prod.ext h rfl
  obtain ⟨found, middle, hfound, hconvert⟩ := exists_of_run_bind hrun
  have hshows := get_shows hstore hw (congrArg Prod.fst hfound)
  cases found with
  | none => exact hshows.symm
  | some value =>
    dsimp only at hconvert
    split at hconvert
    next => cases hconvert
    next => cases hconvert

theorem readContract_shows (hstore : Serves steady contents) {hash : ScriptHash}
    {w : Workspace σ} (hw : w.Faithful steady contents) {contract : ContractState}
    (h : ((readContract hash).run w).1 = .ok (some contract)) :
    w.snapshot.cache.view contents (.contract hash) = some (.contract contract) := by
  obtain ⟨value, hvalue, hconvert⟩ := getAs_shows hstore hw h
  rw [hvalue]
  cases value <;> cases hconvert
  rfl

theorem readStorageItem_shows (hstore : Serves steady contents) {key : StorageKey}
    {w : Workspace σ} (hw : w.Faithful steady contents) {item : StorageItem}
    (h : ((readStorageItem key).run w).1 = .ok (some item)) :
    w.snapshot.cache.view contents (.storage key) = some (.storageItem item) := by
  obtain ⟨value, hvalue, hconvert⟩ := getAs_shows hstore hw h
  rw [hvalue]
  cases value <;> cases hconvert
  rfl

end Snapshot

end ContractHost
