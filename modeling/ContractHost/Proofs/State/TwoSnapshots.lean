import ContractHost.Proofs.State.Pruning
import ContractHost.Proofs.TwoRuns

/-!
# Two snapshots that differ in the storage of one contract

Two snapshots, each over a store of its own, show the same but for the storage of one contract,
which is hidden. Lookups of other keys find the same, and writing and pruning keep it so, whatever
each snapshot has cached and logged before.
-/

namespace ContractHost

namespace StateKey

/-- The key of a storage entry of a contract. -/
def IsStorageOf (owner : ScriptHash) (key : StateKey) : Prop :=
  ∃ entry : StorageKey, key = .storage entry ∧ entry.scriptHash = owner

theorem selectUnder_oversize (stem : Bytes) {keys : List StateKey} {key : StateKey}
    (hmem : key ∈ keys) (h : Wire.maxBufferSize < WireWrite.size key) :
    selectUnder stem keys = .error .outOfMemory := by
  induction keys with
  | nil => cases hmem
  | cons first keys ih =>
    rw [selectUnder, toBytes_eq]
    split
    next hfirst =>
      have hrest : key ∈ keys := by
        rcases List.mem_cons.mp hmem with rfl | hrest
        · exact absurd hfirst (Nat.not_le.mpr h)
        · exact hrest
      rw [ih hrest]
      rfl
    next => rfl

end StateKey

namespace Effects

def Writes (effects : Effects) (key : StateKey) : Prop :=
  ∃ value, effects.lastChange? key = some (.write value)

theorem writes_concat (effects : Effects) (t : Transform) (key : StateKey) :
    Writes (effects ++ [t]) key ↔
      if t.key = key ∧ t.change ≠ .identity then ∃ value, t.change = .write value
      else effects.Writes key := by
  rw [Writes, lastChange?_concat]
  split
  · simp
  · rfl

theorem overlay_eq_of_eq {contents contents' : StateKey → Option StoredValue} {key : StateKey}
    (h : contents key = contents' key) (effects : Effects) :
    effects.overlay contents key = effects.overlay contents' key := by
  rw [overlay, overlay, h]

end Effects

theorem Snapshot.Tracked.mem_writes_iff {s : Snapshot} (h : s.Tracked) (key : StateKey) :
    key ∈ s.cache.writes.map Prod.fst ↔ s.effects.Writes key := by
  rw [← Cache.find?_isSome_iff, Option.isSome_iff_exists]
  exact exists_congr fun value => h.written key value

/-- What two snapshots are compared by: the contract whose storage is hidden, what the store of each
serves, and what each had logged at first. -/
structure Comparison (σ τ : Type) where
  owner : ScriptHash
  steady : σ → Prop
  contents : StateKey → Option StoredValue
  steady' : τ → Prop
  contents' : StateKey → Option StoredValue
  effects : Effects
  effects' : Effects

namespace Comparison

variable {σ τ : Type}

def hidden (c : Comparison σ τ) (key : StateKey) : Prop := key.IsStorageOf c.owner

theorem not_hidden (c : Comparison σ τ) {key : StateKey} (h : key.storageKey? = none) :
    ¬c.hidden key := by
  rintro ⟨entry, rfl, -⟩
  cases h

theorem not_hidden_storage (c : Comparison σ τ) {entry : StorageKey}
    (h : entry.scriptHash ≠ c.owner) : ¬c.hidden (.storage entry) := by
  rintro ⟨other, hsame, howner⟩
  cases hsame
  exact h howner

/-- Both stores serve their contents and do not fail. -/
structure Reliable [StateReader σ] [StateReader τ] (c : Comparison σ τ) : Prop where
  left : Serves c.steady c.contents
  leftFaultless : Faultless c.steady
  right : Serves c.steady' c.contents'
  rightFaultless : Faultless c.steady'

/-- Two workspaces show the same but for hidden keys, and have logged the same since. -/
structure Alike (c : Comparison σ τ) (w : Workspace σ) (v : Workspace τ) : Prop where
  left : w.Coherent c.steady c.contents
  right : v.Coherent c.steady' c.contents'
  view : ∀ key, ¬c.hidden key →
    w.snapshot.cache.view c.contents key = v.snapshot.cache.view c.contents' key
  /-- A key too large to be listed is written in both or in none. -/
  oversize : ∀ key, Wire.maxBufferSize < WireWrite.size key →
    (w.snapshot.effects.Writes key ↔ v.snapshot.effects.Writes key)
  persisting : w.snapshot.persisting = v.snapshot.persisting
  effects : ∃ more, w.snapshot.effects = c.effects ++ more ∧ v.snapshot.effects = c.effects' ++ more

variable {c : Comparison σ τ}

namespace Alike

variable {w w₁ : Workspace σ} {v v₁ : Workspace τ}

theorem quiet (h : c.Alike w v)
    (hw : w.Quiet c.steady c.contents w₁) (hv : v.Quiet c.steady' c.contents' v₁) :
    c.Alike w₁ v₁ := by
  have hleft := hw.advances.coherent h.left
  have hright := hv.advances.coherent h.right
  obtain ⟨cache, ⟨weight, reads, rfl⟩, hsnapshot⟩ := hw.snapshot
  obtain ⟨cache', ⟨weight', reads', rfl⟩, hsnapshot'⟩ := hv.snapshot
  refine ⟨hleft, hright, ?_, ?_, ?_, ?_⟩ <;> rw [hsnapshot, hsnapshot']
  · exact h.view
  · exact h.oversize
  · exact h.persisting
  · exact h.effects

theorem change (h : c.Alike w v) {t : Transform}
    (hw : w₁.Coherent c.steady c.contents) (hv : v₁.Coherent c.steady' c.contents')
    (heffects : w₁.snapshot.effects = w.snapshot.effects ++ [t])
    (heffects' : v₁.snapshot.effects = v.snapshot.effects ++ [t])
    (hpersisting : w₁.snapshot.persisting = w.snapshot.persisting)
    (hpersisting' : v₁.snapshot.persisting = v.snapshot.persisting) :
    c.Alike w₁ v₁ := by
  obtain ⟨more, hmore, hmore'⟩ := h.effects
  refine ⟨hw, hv, fun key hkey => ?_, fun key hsize => ?_, ?_, more ++ [t], ?_, ?_⟩
  · rw [hw.tracked.view, hv.tracked.view, heffects, heffects', Effects.overlay_append,
      Effects.overlay_append]
    refine Effects.overlay_eq_of_eq ?_ _
    rw [← h.left.tracked.view, ← h.right.tracked.view, h.view key hkey]
  · rw [heffects, heffects', Effects.writes_concat, Effects.writes_concat, h.oversize key hsize]
  · rw [hpersisting, hpersisting', h.persisting]
  · rw [heffects, hmore, List.append_assoc]
  · rw [heffects', hmore', List.append_assoc]

end Alike

end Comparison

variable {σ τ : Type} {c : Comparison σ τ}

namespace Snapshot

theorem write_matches (key : StateKey) (value : StoredValue) :
    Matches c.Alike
      (write key value : SnapshotM σ Unit) (write key value : SnapshotM τ Unit) := by
  intro w v h
  refine ⟨rfl, h.change (t := ⟨key, .write value⟩) ?_ ?_ rfl rfl rfl rfl⟩
  · exact (w.advances_write key value).coherent h.left
  · exact (v.advances_write key value).coherent h.right

theorem prune_matches (key : StateKey) :
    Matches c.Alike
      (prune key : SnapshotM σ Unit) (prune key : SnapshotM τ Unit) := by
  intro w v h
  refine ⟨rfl, h.change ?_ ?_ rfl rfl rfl rfl⟩
  · exact (w.advances_prune key).coherent h.left
  · exact (v.advances_prune key).coherent h.right

variable [StateReader σ] [StateReader τ] (hc : c.Reliable)

include hc

theorem get_matches {key : StateKey} (hkey : ¬c.hidden key) :
    Matches c.Alike
      (get key : SnapshotM σ _) (get key : SnapshotM τ _) := by
  intro w v h
  refine ⟨?_, h.quiet (get_quiet hc.left key w) (get_quiet hc.right key v)⟩
  rw [fst_run_get hc.left hc.leftFaultless h.left.faithful,
    fst_run_get hc.right hc.rightFaultless h.right.faithful, h.view key hkey]

theorem getAs_matches {α : Type} (convert : StoredValue → Except TypeMismatch α) {key : StateKey}
    (hkey : ¬c.hidden key) :
    Matches c.Alike
      (getAs convert key : SnapshotM σ _) (getAs convert key : SnapshotM τ _) :=
  matches_getAs (get_matches hc hkey) convert

theorem readBlock_matches {hash : BlockHash} (hkey : ¬c.hidden (.block hash)) :
    Matches c.Alike
      (readBlock hash : SnapshotM σ _) (readBlock hash : SnapshotM τ _) :=
  matches_readBlock (get_matches hc hkey)

theorem keysUnder_matches {stem : Bytes}
    (hstem : ∀ key, stem <+: WireWrite.encode key → ¬c.hidden key) :
    Matches c.Alike
      (keysUnder stem : SnapshotM σ _) (keysUnder stem : SnapshotM τ _) := by
  intro w v h
  refine ⟨?_, h.quiet (keysUnder_quiet hc.left stem w) (keysUnder_quiet hc.right stem v)⟩
  obtain ⟨stored, hstored⟩ := hc.leftFaultless.keysUnder w.store stem h.left.faithful.steady
  obtain ⟨stored', hstored'⟩ := hc.rightFaultless.keysUnder v.store stem h.right.faithful.steady
  by_cases hsize : ∃ key, Wire.maxBufferSize < WireWrite.size key ∧ w.snapshot.effects.Writes key
  · obtain ⟨key, hkey, hwrites⟩ := hsize
    have hmem := (h.left.tracked.mem_writes_iff key).mpr hwrites
    have hmem' := (h.right.tracked.mem_writes_iff key).mpr ((h.oversize key hkey).mp hwrites)
    rw [run_keysUnder, run_keysUnder, hstored, hstored',
      StateKey.selectUnder_oversize stem hmem hkey,
      StateKey.selectUnder_oversize stem hmem' hkey]
  · have hfits : ∀ key, w.snapshot.effects.Writes key → WireWrite.size key ≤ Wire.maxBufferSize :=
      fun key hwrites => Nat.not_lt.mp fun hkey => hsize ⟨key, hkey, hwrites⟩
    have hfits' : ∀ key, v.snapshot.effects.Writes key → WireWrite.size key ≤ Wire.maxBufferSize :=
      fun key hwrites => Nat.not_lt.mp fun hkey =>
        hsize ⟨key, hkey, (h.oversize key hkey).mpr hwrites⟩
    obtain ⟨keys, hkeys⟩ := keysUnder_total hstored fun key hmem =>
      hfits key ((h.left.tracked.mem_writes_iff key).mp hmem)
    obtain ⟨keys', hkeys'⟩ := keysUnder_total hstored' fun key hmem =>
      hfits' key ((h.right.tracked.mem_writes_iff key).mp hmem)
    obtain ⟨hsorted, hmem⟩ := keysUnder_shows hc.left h.left hkeys
    obtain ⟨hsorted', hmem'⟩ := keysUnder_shows hc.right h.right hkeys'
    rw [hkeys, hkeys']
    refine congrArg Except.ok (StateKey.eq_of_mem_iff hsorted hsorted' fun key => ?_)
    rw [hmem, hmem']
    refine and_congr_left fun hprefix => ?_
    rw [h.view key (hstem key hprefix)]

theorem pruneStorage_matches {hash : ScriptHash} (hhash : hash ≠ c.owner) :
    Matches c.Alike (pruneStorage hash : SnapshotM σ _) (pruneStorage hash : SnapshotM τ _) := by
  have hshown : ∀ key, StateKey.storageStem hash <+: WireWrite.encode key → ¬c.hidden key := by
    rintro _ hprefix ⟨entry, rfl, howner⟩
    exact hhash ((StateKey.storageStem_prefix_iff.mp hprefix).symm.trans howner)
  have hlist : Matches c.Alike (storageKeys hash : SnapshotM σ _) (storageKeys hash) :=
    (keysUnder_matches hc hshown).bind fun _ => .pure _
  exact hlist.bind fun keys => .forM (fun _ => prune_matches _) keys

end Snapshot

end ContractHost
