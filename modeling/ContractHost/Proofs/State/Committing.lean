import ContractHost.Proofs.State.Overlay
import ContractHost.State.MonitoredStore

/-!
# Committing

A commit that succeeds publishes what the snapshot shows: the store then has what it would have if
each write and prune had been applied to it at once. A commit that fails leaves the snapshot as it
was, and what the log changes is answered without the store, so nothing looks different even if
part of the log has arrived there.
-/

namespace ContractHost

open Snapshot

/-- What may be done with a snapshot over a store that takes commits. -/
inductive SnapshotAction
  | ask (request : SnapshotRequest)
  | commit

namespace SnapshotAction

def change? : SnapshotAction → Option Transform
  | ask request => request.change?
  | commit => none

variable {σ : Type} [StateReader σ] [StateCommitter σ]

def after (w : Workspace σ) : SnapshotAction → Workspace σ
  | ask request => request.after w
  | commit => (Snapshot.commit.run w).2

def afterAll (w : Workspace σ) (actions : List SnapshotAction) : Workspace σ :=
  actions.foldl after w

end SnapshotAction

namespace Snapshot

variable {σ : Type} [StateCommitter σ]

theorem run_commit (w : Workspace σ) :
    commit.run w =
      match StateCommitter.commit w.snapshot.effects w.store with
      | (.ok (), store) =>
        (.ok (), ⟨{ w.snapshot with effects := [], cache := w.snapshot.cache.cleared }, store⟩)
      | (.error e, store) => (.error (.storage e), ⟨w.snapshot, store⟩) := by
  have heffects : (MonadState.get : SnapshotM σ _).run w = (.ok w, w) := rfl
  rw [commit, run_bind_ok heffects, run_bind, run_onStore]
  rcases StateCommitter.commit w.snapshot.effects w.store with ⟨e | ⟨⟩, store⟩ <;> rfl

theorem snapshot_of_commit_error {w : Workspace σ} {error : SnapshotError}
    (h : (commit.run w).1 = .error error) : (commit.run w).2.snapshot = w.snapshot := by
  rw [run_commit] at h ⊢
  cases hcommit : StateCommitter.commit w.snapshot.effects w.store with
  | mk result store =>
    rw [hcommit] at h
    cases result with
    | error e => rfl
    | ok done => cases h

theorem store_of_commit (w : Workspace σ) :
    (commit.run w).2.store = (StateCommitter.commit w.snapshot.effects w.store).2 := by
  rw [run_commit]
  rcases StateCommitter.commit w.snapshot.effects w.store with ⟨e | ⟨⟩, store⟩ <;> rfl

theorem Tracked.commit {w : Workspace σ} (hw : w.snapshot.Tracked) :
    (commit.run w).2.snapshot.Tracked := by
  rw [run_commit]
  rcases StateCommitter.commit w.snapshot.effects w.store with ⟨e | ⟨⟩, store⟩
  · exact hw
  · exact Tracked.new _ _ _

end Snapshot

/-! ## The store in memory -/

namespace MemoryStore

theorem get?_apply (store : MemoryStore) (t : Transform) :
    (store.apply t).get? = Effects.overlay store.get? [t] := by
  funext key
  rw [Effects.overlay, Effects.lastChange?_singleton, apply]
  cases hchange : t.change with
  | identity => simp
  | write value =>
    have hinsert : (store.entries.insert t.key value)[key]? =
        if compare t.key key = .eq then some value else store.entries[key]? :=
      Std.TreeMap.getElem?_insert
    by_cases hkey : t.key = key <;> simp_all [get?]
  | prune =>
    have herase : (store.entries.erase t.key)[key]? =
        if compare t.key key = .eq then none else store.entries[key]? :=
      Std.TreeMap.getElem?_erase
    by_cases hkey : t.key = key <;> simp_all [get?]

theorem get?_applyAll (store : MemoryStore) (effects : Effects) :
    (store.applyAll effects).get? = effects.overlay store.get? := by
  induction effects generalizing store with
  | nil => rfl
  | cons t effects ih =>
    change ((store.apply t).applyAll effects).get? = Effects.overlay store.get? ([t] ++ effects)
    rw [ih, get?_apply, Effects.overlay_append]

theorem applyAll_append (store : MemoryStore) (effects more : Effects) :
    store.applyAll (effects ++ more) = (store.applyAll effects).applyAll more :=
  List.foldl_append

theorem applyAll_changes (store : MemoryStore) (effects : Effects) :
    store.applyAll effects.changes = store.applyAll effects := by
  rw [applyAll, applyAll, Effects.changes, List.foldl_filter]
  congr 1
  funext store t
  by_cases h : t.change = .identity <;> simp [apply, h]

theorem applyAll_of_changes_eq_nil {effects : Effects} (h : effects.changes = [])
    (store : MemoryStore) : store.applyAll effects = store := by
  rw [← applyAll_changes, h]
  rfl

theorem size_le_of_keysUnder {store : MemoryStore} {stem : Bytes} {keys : List StateKey}
    (h : store.keysUnder stem = .ok keys) {key : StateKey} (hkey : (store.get? key).isSome) :
    WireWrite.size key ≤ Wire.maxBufferSize := by
  rw [keysUnder] at h
  cases hselect : StateKey.selectUnder stem store.entries.keys with
  | error e =>
    rw [hselect] at h
    cases h
  | ok selected =>
    have hmem := Std.TreeMap.mem_keys.mpr (Std.TreeMap.mem_iff_isSome_getElem?.mpr hkey)
    exact StateKey.size_le_of_selectUnder hselect key hmem

end MemoryStore

/-- A snapshot over a store in memory, after some writes and prunes over `base`. Those committed
have been applied, the others are logged. -/
structure Workspace.Holds (base : MemoryStore) (changes : Effects) (w : Workspace MemoryStore) :
    Prop where
  coherent : w.Coherent (· = w.store) w.store.get?
  applied : ∃ committed, w.store = base.applyAll committed ∧
    committed ++ w.snapshot.effects.changes = changes

namespace Workspace.Holds

variable {base : MemoryStore} {changes : Effects} {w : Workspace MemoryStore}

theorem new (base : MemoryStore) (limit : UInt64) (weigh : StateKey → StoredValue → UInt64)
    (persisting : Option Block) :
    Workspace.Holds base [] ⟨⟨.new limit weigh, [], persisting⟩, base⟩ :=
  ⟨⟨⟨rfl, fun e he => by cases he⟩, .new limit weigh persisting⟩, [], rfl, rfl⟩

theorem ask (hw : w.Holds base changes) (request : SnapshotRequest) :
    (request.after w).Holds base (changes ++ request.change?.toList) := by
  have hadvance := request.after_advances w.store.serves w
  have hcoherent := hadvance.coherent hw.coherent
  have hsame : (request.after w).store = w.store := hcoherent.faithful.steady
  obtain ⟨committed, hstore, hchanges⟩ := hw.applied
  refine ⟨?_, committed, hsame.trans hstore, ?_⟩
  · rw [hsame]
    exact hcoherent
  · rw [hadvance.changes, ← List.append_assoc, hchanges]

theorem commit (hw : w.Holds base changes) :
    (Snapshot.commit.run w).1 = .ok () ∧ (Snapshot.commit.run w).2.Holds base changes ∧
      (Snapshot.commit.run w).2.snapshot.effects = [] ∧
      (Snapshot.commit.run w).2.store = base.applyAll changes := by
  obtain ⟨committed, hstore, hchanges⟩ := hw.applied
  have happlied : (Snapshot.commit.run w).2.store = base.applyAll changes := by
    rw [store_of_commit]
    change w.store.applyAll w.snapshot.effects = base.applyAll changes
    rw [← MemoryStore.applyAll_changes, hstore, ← MemoryStore.applyAll_append, hchanges]
  refine ⟨rfl, ⟨⟨⟨rfl, fun e he => by cases he⟩, hw.coherent.tracked.commit⟩, changes, happlied,
    ?_⟩, rfl, happlied⟩
  exact List.append_nil changes

theorem after (hw : w.Holds base changes) (action : SnapshotAction) :
    (action.after w).Holds base (changes ++ action.change?.toList) := by
  cases action with
  | ask request => exact hw.ask request
  | commit =>
    rw [show SnapshotAction.commit.change?.toList = [] from rfl, List.append_nil]
    exact hw.commit.2.1

theorem afterAll (hw : w.Holds base changes) (actions : List SnapshotAction) :
    (SnapshotAction.afterAll w actions).Holds base
      (changes ++ actions.filterMap SnapshotAction.change?) := by
  induction actions generalizing w changes with
  | nil =>
    rw [List.filterMap_nil, List.append_nil]
    exact hw
  | cons action actions ih =>
    have hall : (SnapshotAction.afterAll w (action :: actions)).Holds base
        (changes ++ action.change?.toList ++ actions.filterMap SnapshotAction.change?) :=
      ih (hw.after action)
    cases hchange : action.change? <;> simpa [hchange] using hall

theorem view (hw : w.Holds base changes) :
    w.snapshot.cache.view w.store.get? = (base.applyAll changes).get? := by
  obtain ⟨committed, hstore, hchanges⟩ := hw.applied
  funext key
  rw [hw.coherent.tracked.view, ← Effects.overlay_changes, hstore, MemoryStore.get?_applyAll,
    MemoryStore.get?_applyAll, ← hchanges, Effects.overlay_append]

theorem get (hw : w.Holds base changes) (key : StateKey) :
    ((Snapshot.get key).run w).1 = .ok ((base.applyAll changes).get? key) := by
  have hread : (StateReader.read key w.store).1 = .ok (w.store.get? key) := rfl
  obtain ⟨found, hfound⟩ := get_total hread
  rw [hfound, get_shows w.store.serves hw.coherent.faithful hfound, hw.view]

theorem keysUnder (hw : w.Holds base changes) {stem : Bytes} {keys : List StateKey}
    (h : ((Snapshot.keysUnder stem).run w).1 = .ok keys) :
    keys.Pairwise (fun a b => compare a b = .lt) ∧
      ∀ key, key ∈ keys ↔
        ((base.applyAll changes).get? key).isSome ∧ stem <+: WireWrite.encode key := by
  have hlisted := keysUnder_shows w.store.serves hw.coherent h
  rwa [hw.view] at hlisted

theorem size_le (hw : w.Holds base changes) {stem : Bytes} {keys : List StateKey}
    (h : ((Snapshot.keysUnder stem).run w).1 = .ok keys) {key : StateKey}
    (hkey : ((base.applyAll changes).get? key).isSome) :
    WireWrite.size key ≤ Wire.maxBufferSize := by
  obtain ⟨stored, written, hstored, hwritten, -⟩ := exists_of_keysUnder h
  rw [← hw.view, Cache.view] at hkey
  split at hkey
  · cases hkey
  rw [Option.isSome_or, Bool.or_eq_true, Cache.find?_isSome_iff] at hkey
  cases hkey with
  | inl hkey => exact StateKey.size_le_of_selectUnder hwritten key hkey
  | inr hkey => exact MemoryStore.size_le_of_keysUnder hstored hkey

theorem keysUnder_total (hw : w.Holds base changes)
    (hbase : ∀ key, (base.get? key).isSome → WireWrite.size key ≤ Wire.maxBufferSize)
    (hwrites : ∀ key value, ⟨key, .write value⟩ ∈ changes → WireWrite.size key ≤ Wire.maxBufferSize)
    (stem : Bytes) : ∃ keys, ((Snapshot.keysUnder stem).run w).1 = .ok keys := by
  obtain ⟨committed, hstore, hchanges⟩ := hw.applied
  have hstored : ∀ key, (w.store.get? key).isSome → WireWrite.size key ≤ Wire.maxBufferSize := by
    intro key hkey
    rw [hstore, MemoryStore.get?_applyAll] at hkey
    rcases Effects.isSome_of_overlay hkey with hkey | ⟨value, hmem⟩
    · exact hbase key hkey
    · refine hwrites key value ?_
      rw [← hchanges]
      exact List.mem_append_left _ (List.mem_filter.mp hmem).1
  obtain ⟨stored, hlisted⟩ := (MemoryStore.faultless hstored).keysUnder w.store stem rfl
  refine Snapshot.keysUnder_total hlisted fun key hkey => ?_
  obtain ⟨value, hmem⟩ := hw.coherent.tracked.exists_write hkey
  refine hwrites key value ?_
  rw [← hchanges]
  exact List.mem_append_right _ hmem

theorem keysUnder_commit (hw : w.Holds base changes) {stem : Bytes} {keys : List StateKey}
    (h : ((Snapshot.keysUnder stem).run w).1 = .ok keys) :
    ((Snapshot.keysUnder stem).run (Snapshot.commit.run w).2).1 = .ok keys := by
  obtain ⟨-, hw', -, hstore⟩ := hw.commit
  have hsize : ∀ key, ((Snapshot.commit.run w).2.store.get? key).isSome →
      WireWrite.size key ≤ Wire.maxBufferSize := by
    rw [hstore]
    exact fun key => hw.size_le h
  obtain ⟨stored, hstored⟩ := (MemoryStore.faultless hsize).keysUnder _ stem rfl
  -- nothing is written in the cache after a commit
  obtain ⟨keys', hkeys'⟩ := Snapshot.keysUnder_total hstored fun key hkey => by cases hkey
  obtain ⟨hsorted, hmem⟩ := hw.keysUnder h
  obtain ⟨hsorted', hmem'⟩ := hw'.keysUnder hkeys'
  rw [hkeys', StateKey.eq_of_mem_iff hsorted' hsorted fun key => (hmem' key).trans (hmem key).symm]

theorem store_commit (hw : w.Holds base changes) {more : List SnapshotAction}
    (hmore : more.filterMap SnapshotAction.change? = []) :
    (SnapshotAction.afterAll (Snapshot.commit.run w).2 more).store =
      (Snapshot.commit.run w).2.store := by
  obtain ⟨-, hw', hempty, -⟩ := hw.commit
  have hfresh : (Snapshot.commit.run w).2.Holds (Snapshot.commit.run w).2.store [] :=
    ⟨hw'.coherent, [], rfl, by rw [hempty]; rfl⟩
  obtain ⟨committed, happlied, hnone⟩ := (hfresh.afterAll more).applied
  rw [hmore] at hnone
  rw [happlied, (List.append_eq_nil_iff.mp hnone).1]
  rfl

end Workspace.Holds

/-! ## Commits that fail -/

namespace Effects

/-- Two states of a store in which reading finds the same, but for the values of keys that the log
writes or prunes. -/
structure Covers {σ : Type} [StateReader σ] (effects : Effects) (store store' : σ) : Prop where
  read : ∀ key, effects.lastChange? key = none →
    (StateReader.read key store').1 = (StateReader.read key store).1
  keysUnder : ∀ stem keys, (StateReader.keysUnder stem store).1 = .ok keys →
    ∃ keys', (StateReader.keysUnder stem store').1 = .ok keys' ∧
      (∀ key, effects.lastChange? key = none → (key ∈ keys' ↔ key ∈ keys)) ∧
      ∀ key, key ∈ keys ∨ key ∈ keys' → stem <+: WireWrite.encode key
  keysUnder_error : ∀ stem error, (StateReader.keysUnder stem store).1 = .error error →
    (StateReader.keysUnder stem store').1 = .error error

end Effects

theorem MonitoredStore.covers_self (m : MonitoredStore) (effects : Effects) :
    effects.Covers m m := by
  refine ⟨fun _ _ => rfl, fun stem keys hkeys => ⟨keys, hkeys, fun _ _ => Iff.rfl, ?_⟩,
    fun _ _ h => h⟩
  rintro key hkey
  have hlisted : m.store.keysUnder stem = .ok keys := by
    change (if m.faults.keys then _ else m.store.keysUnder stem) = _ at hkeys
    split at hkeys
    · cases hkeys
    · exact hkeys
  exact ((m.store.serves.keysUnder m.store stem keys rfl hlisted key).mp (or_self_iff.mp hkey)).2

namespace Snapshot

variable {σ : Type} [StateReader σ] {w : Workspace σ} {store : σ}

/-- A key that the log writes or prunes is found without the store. -/
theorem get_of_covers (hw : w.snapshot.Tracked) (hstore : w.snapshot.effects.Covers w.store store)
    (key : StateKey) :
    ((get key).run ⟨w.snapshot, store⟩).1 = ((get key).run w).1 := by
  rw [run_get, run_get]
  have hsame := (w.snapshot.cache.sameChanges_get key).isPruned key
  cases hget : w.snapshot.cache.get key with
  | mk found cache =>
    rw [hget] at hsame
    cases found with
    | some value => rfl
    | none =>
      dsimp only at hsame ⊢
      rw [hsame]
      cases hpruned : w.snapshot.cache.isPruned key with
      | true => rfl
      | false =>
        have hlast : w.snapshot.effects.lastChange? key = none := by
          refine hw.lastChange?_eq_none ?_ hpruned
          exact Cache.find?_writes_of_get_none hpruned (by rw [hget])
        have hread := hstore.read key hlast
        rcases hbefore : StateReader.read key w.store with ⟨result, after⟩
        rcases hafter : StateReader.read key store with ⟨result', after'⟩
        rw [hbefore, hafter] at hread
        dsimp only at hread
        subst hread
        rcases result' with e | _ | value <;> rfl

/-- A key that the log writes or prunes is listed or not whatever the store lists. -/
theorem keysUnder_of_covers (hw : w.snapshot.Tracked)
    (hstore : w.snapshot.effects.Covers w.store store) (stem : Bytes) :
    ((keysUnder stem).run ⟨w.snapshot, store⟩).1 = ((keysUnder stem).run w).1 := by
  rw [run_keysUnder, run_keysUnder]
  cases hstored : (StateReader.keysUnder stem w.store).1 with
  | error e => rw [hstore.keysUnder_error stem e hstored]
  | ok stored =>
    obtain ⟨stored', hstored', hmem, hstem⟩ := hstore.keysUnder stem stored hstored
    rw [hstored']
    cases hwritten : StateKey.selectUnder stem (w.snapshot.cache.writes.map Prod.fst) with
    | error e => rfl
    | ok written =>
      dsimp only
      congr 1
      refine StateKey.eq_of_mem_iff (StateKey.pairwise_sorted _) (StateKey.pairwise_sorted _)
        fun key => ?_
      simp only [StateKey.mem_sorted, List.mem_append, List.mem_filter]
      cases hlast : w.snapshot.effects.lastChange? key with
      | none => rw [hmem key hlast]
      | some change =>
        cases change with
        | identity => exact absurd hlast (w.snapshot.effects.lastChange?_ne_identity key)
        | prune => simp [(hw.pruned key).mpr hlast]
        | write value =>
          have hkey : key ∈ w.snapshot.cache.writes.map Prod.fst := by
            rw [← Cache.find?_isSome_iff, (hw.written key value).mpr hlast]
            rfl
          -- listed by the store or not, the key is among those written
          have hsame : key ∈ stored ∨ key ∈ stored' → key ∈ written := fun hlisted =>
            (StateKey.mem_selectUnder hwritten key).mpr ⟨hkey, hstem key hlisted⟩
          constructor
          · rintro (hlisted | hlisted)
            · exact .inr (hsame (.inr hlisted.1))
            · exact .inr hlisted
          · rintro (hlisted | hlisted)
            · exact .inr (hsame (.inl hlisted.1))
            · exact .inr hlisted

end Snapshot

namespace SnapshotAction

variable {σ : Type} [StateReader σ] [StateCommitter σ] {w : Workspace σ}

theorem after_tracked (hw : w.snapshot.Tracked) (action : SnapshotAction) :
    (after w action).snapshot.Tracked := by
  cases action with
  | ask request => exact (request.after_advances .never w).tracked hw
  | commit => exact hw.commit

theorem afterAll_tracked (hw : w.snapshot.Tracked) (actions : List SnapshotAction) :
    (afterAll w actions).snapshot.Tracked := by
  induction actions generalizing w with
  | nil => exact hw
  | cons action actions ih => exact ih (after_tracked hw action)

end SnapshotAction

/-! ## What a commit leaves -/

namespace Snapshot

/-- A commit from `w` to `w'` after some changes over `base` has published what the snapshot showed.
Keys are listed as before wherever they could be listed, which only a key too large for a wire form
prevents. -/
structure Published (base : MemoryStore) (changes : Effects) (w w' : Workspace MemoryStore) :
    Prop where
  effects : w'.snapshot.effects = []
  store : w'.store = base.applyAll changes
  get : ∀ key, ((Snapshot.get key).run w).1 = .ok (w'.store.get? key) ∧
    ((Snapshot.get key).run w').1 = .ok (w'.store.get? key)
  keysUnder : ∀ stem keys, ((Snapshot.keysUnder stem).run w).1 = .ok keys →
    ((Snapshot.keysUnder stem).run w').1 = .ok keys
  keysUnder_total : (∀ key, (base.get? key).isSome → WireWrite.size key ≤ Wire.maxBufferSize) →
    (∀ key value, ⟨key, .write value⟩ ∈ changes → WireWrite.size key ≤ Wire.maxBufferSize) →
    ∀ stem, ∃ keys, ((Snapshot.keysUnder stem).run w).1 = .ok keys
  stays : ∀ more, more.filterMap SnapshotAction.change? = [] →
    (SnapshotAction.afterAll w' more).store = w'.store

/-- A commit from `w` to `w'` has failed and left the snapshot as it was. If what it has changed in
the store are values of keys that the log writes or prunes, everything is answered as before, errors
included. -/
structure Retained {σ : Type} [StateReader σ] [StateCommitter σ] (w w' : Workspace σ) : Prop where
  snapshot : w'.snapshot = w.snapshot
  get : w.snapshot.effects.Covers w.store w'.store →
    ∀ key, ((Snapshot.get key).run w').1 = ((Snapshot.get key).run w).1
  keysUnder : w.snapshot.effects.Covers w.store w'.store →
    ∀ stem, ((Snapshot.keysUnder stem).run w').1 = ((Snapshot.keysUnder stem).run w).1
  /-- Trying again later hands over the same changes. To have them applied gives the same contents
  whatever part of them had arrived before. -/
  again : ∀ requests, requests.filterMap SnapshotRequest.change? = [] →
    let later := SnapshotRequest.afterAll w' requests
    (Snapshot.commit.run later).2.store =
        (StateCommitter.commit later.snapshot.effects later.store).2 ∧
      later.snapshot.effects.changes = w.snapshot.effects.changes ∧
      ∀ contents contents', (∀ key, w.snapshot.effects.lastChange? key = none →
          contents' key = contents key) →
        later.snapshot.effects.overlay contents' = w.snapshot.effects.overlay contents

end Snapshot

theorem Workspace.Holds.published {base : MemoryStore} {changes : Effects}
    {w : Workspace MemoryStore} (hw : w.Holds base changes) :
    Snapshot.Published base changes w (Snapshot.commit.run w).2 := by
  obtain ⟨-, hw', hempty, hstore⟩ := hw.commit
  constructor
  case effects => exact hempty
  case store => exact hstore
  case get =>
    intro key
    rw [hstore]
    exact ⟨hw.get key, hw'.get key⟩
  case keysUnder =>
    intro stem keys hlisted
    exact hw.keysUnder_commit hlisted
  case keysUnder_total =>
    intro hbase hwrites stem
    exact hw.keysUnder_total hbase hwrites stem
  case stays =>
    intro more hmore
    exact hw.store_commit hmore

theorem Snapshot.retained_of_commit_error {σ : Type} [StateReader σ] [StateCommitter σ]
    {w : Workspace σ} {error : SnapshotError} (hw : w.snapshot.Tracked)
    (herror : (commit.run w).1 = .error error) : Retained w (commit.run w).2 := by
  have hsame := snapshot_of_commit_error herror
  have hw' : (commit.run w).2 = ⟨w.snapshot, (commit.run w).2.store⟩ := by rw [← hsame]
  constructor
  case snapshot => exact hsame
  case get =>
    intro hstore
    rw [hw']
    exact get_of_covers hw hstore
  case keysUnder =>
    intro hstore
    rw [hw']
    exact keysUnder_of_covers hw hstore
  case again =>
    intro requests hrequests later
    have hadvance :=
      (SnapshotRequest.afterAll_advances .never (commit.run w).2 requests).changes
    rw [hrequests, List.append_nil, hsame] at hadvance
    have hchanges : later.snapshot.effects.changes = w.snapshot.effects.changes := hadvance
    refine ⟨store_of_commit later, hchanges, fun contents contents' hagree => ?_⟩
    rw [← Effects.overlay_changes, hchanges, Effects.overlay_changes]
    exact Effects.overlay_congr hagree

open SnapshotAction in
/-- After any use of a snapshot, earlier commits included, a commit to a store in memory succeeds
and publishes what the snapshot showed: the store is the one to which every write and prune has been
applied in turn. On any store, a commit that fails leaves the snapshot as it is, to be tried
again. -/
theorem Snapshot.commit_publishes :
    (∀ (base : MemoryStore) (limit : UInt64) (weigh : StateKey → StoredValue → UInt64)
        (persisting : Option Block) (actions : List SnapshotAction),
      let w := afterAll ⟨⟨.new limit weigh, [], persisting⟩, base⟩ actions
      (Snapshot.commit.run w).1 = .ok () ∧
        Published base (actions.filterMap change?) w (Snapshot.commit.run w).2) ∧
    ∀ {σ : Type} [StateReader σ] [StateCommitter σ] (store : σ) (limit : UInt64)
        (weigh : StateKey → StoredValue → UInt64) (persisting : Option Block)
        (actions : List SnapshotAction),
      let w := afterAll ⟨⟨.new limit weigh, [], persisting⟩, store⟩ actions
      ∀ error, (Snapshot.commit.run w).1 = .error error →
        Retained w (Snapshot.commit.run w).2 := by
  constructor
  · intro base limit weigh persisting actions w
    have hw : w.Holds base (actions.filterMap change?) :=
      (Workspace.Holds.new base limit weigh persisting).afterAll actions
    exact ⟨hw.commit.1, hw.published⟩
  · intro σ _ _ store limit weigh persisting actions w error herror
    have hw : w.snapshot.Tracked := afterAll_tracked (.new limit weigh persisting) actions
    exact retained_of_commit_error hw herror

open SnapshotAction in
/-- A tip written and committed to a store in memory, and to one that refuses the commit. -/
theorem Snapshot.commit_publishes_tip :
    let actions := [.ask (.write .chainTip (.chainTip default))]
    let w := afterAll ⟨.new, MemoryStore.empty⟩ actions
    let refused := afterAll ⟨.new, MonitoredStore.mk .empty ⟨false, false, true⟩ 0⟩ actions
    ((get .chainTip).run (Snapshot.commit.run w).2).1 = .ok (some (.chainTip default)) ∧
      ((get .chainTip).run (Snapshot.commit.run refused).2).1 =
        ((get .chainTip).run refused).1 := by
  intro actions w refused
  constructor
  · obtain ⟨-, hpublished⟩ := commit_publishes.1 .empty cacheLimit Weight.ofEntry none actions
    refine (hpublished.get .chainTip).2.trans ?_
    rw [hpublished.store, MemoryStore.get?_applyAll]
    rfl
  · have hretained := commit_publishes.2 (MonitoredStore.mk .empty ⟨false, false, true⟩ 0)
      cacheLimit Weight.ofEntry none actions (.storage .poisoned) rfl
    exact hretained.get (MonitoredStore.covers_self _ _) .chainTip

end ContractHost
