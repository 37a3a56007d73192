import ContractHost.Proofs.State.Within

/-!
# Pruning the storage of a contract

Pruning lists the keys of a contract's entries and prunes one after another. Those in the store and
those only written so far are listed alike, so no entry of the contract is left, and no other is
touched.
-/

namespace ContractHost

namespace Cache

theorem view_insertWrite_self (c : Cache) (contents : StateKey → Option StoredValue)
    (key : StateKey) (value : StoredValue) :
    (c.insertWrite key value).view contents key = some value := by
  have hpruned : (c.insertWrite key value).isPruned key = false := by simp [insertWrite, isPruned]
  rw [view, hpruned, insertWrite, find?_cons]
  simp

theorem view_insertPrune_self (c : Cache) (contents : StateKey → Option StoredValue)
    (key : StateKey) : (c.insertPrune key).view contents key = none := by
  simp [view, insertPrune, isPruned]

end Cache

namespace Snapshot

variable {σ : Type} {steady : σ → Prop} {contents : StateKey → Option StoredValue}

theorem run_forM_prune (contents : StateKey → Option StoredValue) (keys : List StorageKey)
    (w : Workspace σ) :
    ∃ w', (keys.forM fun key => (prune (.storage key) : SnapshotM σ Unit)).run w = (.ok (), w') ∧
      ∀ key, w'.snapshot.cache.view contents (.storage key) =
        if key ∈ keys then none else w.snapshot.cache.view contents (.storage key) := by
  induction keys generalizing w with
  | nil => exact ⟨w, rfl, fun key => by simp⟩
  | cons first keys ih =>
    obtain ⟨w', hrun, hview⟩ := ih ((prune (.storage first)).run w).2
    refine ⟨w', hrun, fun key => ?_⟩
    rw [hview]
    by_cases hkey : key = first
    · subst hkey
      have hself : ((prune (.storage key)).run w).2.snapshot.cache.view contents (.storage key) =
          none := w.snapshot.cache.view_insertPrune_self contents _
      simp [hself]
    · have hother : ((prune (.storage first)).run w).2.snapshot.cache.view contents (.storage key) =
          w.snapshot.cache.view contents (.storage key) :=
        w.snapshot.cache.view_insertPrune (fun h => hkey (StateKey.storage.inj h).symm)
      simp [hother, hkey]

variable [StateReader σ]

theorem mem_storageKeys (hstore : Serves steady contents) {hash : ScriptHash} {w w' : Workspace σ}
    (hw : w.Coherent steady contents) {listed : List StorageKey}
    (h : (storageKeys hash).run w = (.ok listed, w')) (key : StorageKey) :
    key ∈ listed ↔
      (w.snapshot.cache.view contents (.storage key)).isSome ∧ key.scriptHash = hash := by
  obtain ⟨all, middle, hall, hlisted⟩ := exists_of_run_bind h
  cases hlisted
  obtain ⟨-, hmem⟩ := keysUnder_shows hstore hw (congrArg Prod.fst hall)
  rw [List.mem_filterMap, ← StateKey.storageStem_prefix_iff, ← hmem]
  constructor
  · rintro ⟨stateKey, hkey, hstorage⟩
    cases stateKey <;> cases hstorage
    exact hkey
  · exact fun hkey => ⟨.storage key, hkey, rfl⟩

/-- Pruning the storage of a contract leaves none of its entries and all others. -/
theorem view_of_pruneStorage (hstore : Serves steady contents) {hash : ScriptHash}
    {w w' : Workspace σ} (hw : w.Coherent steady contents)
    (h : (pruneStorage hash).run w = (.ok (), w')) (key : StorageKey) :
    w'.snapshot.cache.view contents (.storage key) =
      if key.scriptHash = hash then none else w.snapshot.cache.view contents (.storage key) := by
  obtain ⟨listed, middle, hlisted, hprune⟩ := exists_of_run_bind h
  have hmem := mem_storageKeys hstore hw hlisted key
  have hquiet : w.Within steady contents (fun _ => False) middle :=
    ((storageKeys_quiet hstore hash).run hlisted).within
  have hsame := hquiet.view (.storage key) id
  obtain ⟨w'', hrun, hview⟩ := run_forM_prune contents listed middle
  obtain rfl : w'' = w' := congrArg Prod.snd (hrun.symm.trans hprune)
  rw [hview, hsame]
  by_cases howner : key.scriptHash = hash
  · cases hshown : w.snapshot.cache.view contents (.storage key) with
    | none => simp
    | some value =>
      rw [hshown] at hmem
      simp [howner, hmem.mpr ⟨rfl, howner⟩]
  · have hnot : key ∉ listed := fun hkey => howner (hmem.mp hkey).2
    simp [howner, hnot]

theorem pruneStorage_failsIn (hstore : Serves steady contents) (hash : ScriptHash)
    {keys : StateKey → Prop} :
    FailsIn (Workspace.Within (σ := σ) steady contents keys) (pruneStorage hash) := by
  refine .bind (fun w => (storageKeys_quiet hstore hash w).within) fun listed =>
    .of_total fun w => ?_
  obtain ⟨w', hrun, -⟩ := run_forM_prune contents listed w
  exact ⟨(), congrArg Prod.fst hrun⟩

end Snapshot

end ContractHost
