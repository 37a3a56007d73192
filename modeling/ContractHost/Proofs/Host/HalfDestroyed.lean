import ContractHost.Proofs.Host.Destroying
import ContractHost.State.MonitoredStore

/-!
# Destroying that fails

To destroy a contract its key is pruned first and its storage listed after that. A store that
cannot be listed makes the call fail in between: the contract is gone then, its entries are not, and
a commit publishes that. Whenever destroying fails in another way nothing has changed.
-/

namespace ContractHost

namespace Snapshot

variable {σ : Type} [StateReader σ] {w w' : Workspace σ}

theorem get_shows_or_fails {steady : σ → Prop} {contents : StateKey → Option StoredValue}
    (hstore : Serves steady contents) (hw : w.Faithful steady contents) (key : StateKey) :
    ((get key).run w).1 = .ok (w.snapshot.cache.view contents key) ∨
      ∃ e, (StateReader.read key w.store).1 = .error e ∧
        ((get key).run w).1 = .error (.storage e) := by
  cases hfound : ((get key).run w).1 with
  | ok found => exact .inl (congrArg Except.ok (get_shows hstore hw hfound))
  | error failure =>
    cases hread : (StateReader.read key w.store).1 with
    | ok stored =>
      obtain ⟨found, hok⟩ := get_total hread
      rw [hok] at hfound
      cases hfound
    | error e =>
      refine .inr ⟨e, rfl, ?_⟩
      rw [run_get] at hfound
      rcases hkept : w.snapshot.cache.get key with ⟨_ | value, cache⟩
      · rw [hkept, show StateReader.read key w.store = (.error e, (StateReader.read key w.store).2)
          from Prod.ext hread rfl] at hfound
        dsimp only at hfound
        split at hfound
        · cases hfound
        · exact hfound.symm
      · rw [hkept] at hfound
        cases hfound

theorem get_pruned {key : StateKey} (hpruned : w.snapshot.cache.isPruned key = true) :
    ((get key).run w).1 = .ok none := by
  have hget : w.snapshot.cache.get key = (none, w.snapshot.cache) := by
    rw [Cache.get, if_pos hpruned]
  rw [run_get, hget]
  dsimp only
  rw [if_pos hpruned]

theorem pruneStorage_error {hash : ScriptHash} {e : SnapshotError}
    (h : (pruneStorage hash).run w = (.error e, w')) :
    (storageKeys hash).run w = (.error e, w') := by
  rw [pruneStorage, run_bind] at h
  rcases hlisted : (storageKeys hash).run w with ⟨failure | keys, middle⟩
  · rw [hlisted] at h
    cases h
    rfl
  · rw [hlisted] at h
    obtain ⟨last, hrun, -⟩ := effects_of_forM_prune keys middle
    cases hrun.symm.trans h

end Snapshot

namespace Session

variable {σ : Type} [StateReader σ] {s s' : Session σ} {hash : ScriptHash}

/-- A contract with storage is there, and the storage cannot be listed once the contract has been
pruned. -/
structure ListingFails (s : Session σ) (hash : ScriptHash) : Prop where
  trigger : s.service.trigger = .application
  listing : ∃ contract w e,
    (Snapshot.readContract hash).run s.workspace = (.ok (some contract), w) ∧
    contract.hasStorage = true ∧
    ((Snapshot.storageKeys hash).run ((Snapshot.prune (.contract hash)).run w).2).1 = .error e

/-- What was found under some keys is found again, unless the store fails to read it. -/
def FindsAgain (s s' : Session σ) (keys : StateKey → Prop) : Prop :=
  ∀ key, keys key → ∀ found, ((Snapshot.get key).run s.workspace).1 = .ok found →
    ((Snapshot.get key).run s'.workspace).1 = .ok found ∨
      ∃ e, (StateReader.read key s'.store).1 = .error e ∧
        ((Snapshot.get key).run s'.workspace).1 = .error (.storage e)

theorem findsAgain_of_shown {steady : σ → Prop} {contents : StateKey → Option StoredValue}
    (hstore : Serves steady contents) (hs : s.workspace.Faithful steady contents)
    (hs' : s'.workspace.Faithful steady contents) {keys : StateKey → Prop}
    (hshown : ∀ key, keys key → s'.shown contents key = s.shown contents key) :
    s.FindsAgain s' keys := by
  intro key hkey found hfound
  have hsame : found = s'.shown contents key :=
    (Snapshot.get_shows hstore hs hfound).trans (hshown key hkey).symm
  rw [hsame]
  exact Snapshot.get_shows_or_fails hstore hs' key

/-- A contract has been pruned and its entries have not. To commit this takes the contract alone out
of a store. -/
structure HalfDestroyed (s : Session σ) (hash : ScriptHash) (s' : Session σ) : Prop where
  effects : s'.snapshot.effects = s.snapshot.effects ++ [⟨.contract hash, .prune⟩]
  absent : ((Snapshot.get (.contract hash)).run s'.workspace).1 = .ok none
  others : ∀ {steady : σ → Prop} {contents : StateKey → Option StoredValue},
    Serves steady contents → s.workspace.Faithful steady contents →
      s.FindsAgain s' (· ≠ .contract hash)
  published : ∀ contents key, s'.snapshot.effects.overlay contents key =
    if key = .contract hash then none else s.snapshot.effects.overlay contents key

/-- Nothing has been logged, written or pruned. -/
structure Untouched (s s' : Session σ) : Prop where
  effects : s'.snapshot.effects = s.snapshot.effects
  writes : s'.snapshot.cache.writes = s.snapshot.cache.writes
  prunes : s'.snapshot.cache.prunes = s.snapshot.cache.prunes
  all : ∀ {steady : σ → Prop} {contents : StateKey → Option StoredValue},
    Serves steady contents → s.workspace.Faithful steady contents → s.FindsAgain s' fun _ => True

end Session

namespace Call

open Session

variable {σ : Type} [StateReader σ] {s s' : Session σ} {hash : ScriptHash} {e : HostError}

theorem run_contractDestroy (s : Session σ) :
    (contractDestroy : Call σ Unit).run s = (destroy s.machine.scriptHash).run s := by
  have hcurrent : (currentScriptHash : Call σ ScriptHash).run s =
      (.ok s.machine.scriptHash, s) := rfl
  rw [contractDestroy, run_bind_ok hcurrent]

/-- A failure to destroy comes before the contract is pruned, when something has been read at most,
or after it, when the storage is listed. -/
theorem run_destroy_error {steady : σ → Prop} {contents : StateKey → Option StoredValue}
    (hstore : Serves steady contents) (h : (destroy hash).run s = (.error e, s')) :
    ¬s.ListingFails hash ∧ s.workspace.Quiet steady contents s'.workspace ∨
      s.ListingFails hash ∧ ∃ w, s.workspace.Quiet steady contents w ∧
        ((Snapshot.prune (.contract hash)).run w).2.Quiet steady contents s'.workspace := by
  by_cases htrigger : s.service.trigger = .application
  · have hread : Moves (Workspace.Quiet steady contents) (Snapshot.readContract hash) :=
      Snapshot.getAs_quiet hstore StoredValue.toContract (.contract hash)
    rw [run_destroy hash htrigger] at h
    rcases hfound : (Snapshot.readContract hash).run s.workspace with
      ⟨failure | _ | contract, w⟩
    · rw [hfound] at h
      cases h
      refine .inl ⟨fun hlisting => ?_, hread.run hfound⟩
      obtain ⟨contract, w', -, hok, -⟩ := hlisting.listing
      cases hfound.symm.trans hok
    · rw [hfound] at h
      cases h
    · rw [hfound] at h
      dsimp only at h
      split at h
      next hstorage =>
        rcases hprune : (Snapshot.pruneStorage hash).run
          ((Snapshot.prune (.contract hash)).run w).2 with ⟨failure | done, last⟩
        · rw [hprune] at h
          cases h
          have hlisted := Snapshot.pruneStorage_error hprune
          exact .inr ⟨⟨htrigger, contract, w, failure, hfound, hstorage, congrArg Prod.fst hlisted⟩,
            w, hread.run hfound, (Snapshot.storageKeys_quiet hstore hash).run hlisted⟩
        · rw [hprune] at h
          cases h
      next => cases h
  · have hfails : (destroy hash).run s = (.error (.triggerNotPermitted s.service.trigger), s) := by
      rw [destroy, run_bind_ok (run_get s), if_pos htrigger]
      rfl
    cases hfails.symm.trans h
    exact .inl ⟨fun hlisting => htrigger hlisting.trigger, Std.Refl.refl _⟩

theorem untouched_of_run_destroy (h : (destroy hash).run s = (.error e, s'))
    (hlisting : ¬s.ListingFails hash) : s.Untouched s' := by
  have hquiet : ∀ {steady : σ → Prop} {contents : StateKey → Option StoredValue},
      Serves steady contents → s.workspace.Quiet steady contents s'.workspace := by
    intro steady contents hstore
    rcases run_destroy_error hstore h with ⟨-, hquiet⟩ | ⟨hfails, -⟩
    · exact hquiet
    · exact absurd hfails hlisting
  obtain ⟨cache, ⟨weight, reads, hcache⟩, hsnapshot⟩ := (hquiet .never).snapshot
  have hsame : s'.snapshot = { s.snapshot with cache := cache } := hsnapshot
  refine ⟨by rw [hsame], by rw [hsame, hcache]; rfl, by rw [hsame, hcache]; rfl,
    fun hstore hs => ?_⟩
  refine findsAgain_of_shown hstore hs ((hquiet hstore).faithful hs) fun key _ => ?_
  exact congrFun (hquiet hstore).view key

theorem halfDestroyed_of_run_destroy (h : (destroy hash).run s = (.error e, s'))
    (hlisting : s.ListingFails hash) : s.HalfDestroyed hash s' := by
  have hquiet : ∀ {steady : σ → Prop} {contents : StateKey → Option StoredValue},
      Serves steady contents → ∃ w, s.workspace.Quiet steady contents w ∧
        ((Snapshot.prune (.contract hash)).run w).2.Quiet steady contents s'.workspace := by
    intro steady contents hstore
    rcases run_destroy_error hstore h with ⟨hfails, -⟩ | ⟨-, hquiet⟩
    · exact absurd hlisting hfails
    · exact hquiet
  have heffects : s'.snapshot.effects = s.snapshot.effects ++ [⟨.contract hash, .prune⟩] := by
    obtain ⟨w, hread, hlist⟩ := hquiet .never
    have hlogged : ((Snapshot.prune (.contract hash)).run w).2.snapshot.effects =
        w.snapshot.effects ++ [⟨.contract hash, .prune⟩] := rfl
    exact hlist.effects.trans (hlogged.trans (by rw [hread.effects]; rfl))
  refine ⟨heffects, ?_, @fun steady contents hstore hs => ?_, fun contents key => ?_⟩
  · obtain ⟨w, -, hlist⟩ := hquiet .never
    obtain ⟨cache, hsame, hsnapshot⟩ := hlist.snapshot
    apply Snapshot.get_pruned
    rw [hsnapshot]
    rw [hsame.isPruned]
    change (w.snapshot.cache.insertPrune (.contract hash)).isPruned (.contract hash) = true
    simp [Cache.insertPrune, Cache.isPruned]
  · obtain ⟨w, hread, hlist⟩ := hquiet hstore
    have hpruned : ((Snapshot.prune (.contract hash)).run w).2.Faithful steady contents :=
      (w.advances_prune (.contract hash)).faithful (hread.faithful hs)
    refine findsAgain_of_shown hstore hs (hlist.faithful hpruned) fun key hkey => ?_
    calc s'.shown contents key
        = ((Snapshot.prune (.contract hash)).run w).2.snapshot.cache.view contents key :=
          congrFun hlist.view key
      _ = w.snapshot.cache.view contents key := w.snapshot.cache.view_insertPrune (Ne.symm hkey)
      _ = s.shown contents key := congrFun hread.view key
  · rw [heffects, Effects.overlay_append, Effects.overlay, Effects.lastChange?_singleton]
    by_cases hkey : key = .contract hash
    · simp [hkey]
    · simp [hkey, Ne.symm hkey]

end Call

/-- If a contract cannot be destroyed, be it by the host or in its own call, then nothing was
changed, unless its storage could not be listed: then the contract is pruned and its entries are
not. -/
theorem Call.destroy_failed {σ : Type} [StateReader σ] {s s' : Session σ} {hash : ScriptHash}
    {e : HostError} (h : (destroy hash).run s = (.error e, s') ∨
      s.machine.scriptHash = hash ∧ (perform .contractDestroy).run s = (.error e, s')) :
    (s'.snapshot.effects = s.snapshot.effects ↔ ¬s.ListingFails hash) ∧
      (¬s.ListingFails hash → s.Untouched s') ∧ (s.ListingFails hash → s.HalfDestroyed hash s') := by
  have hrun : (destroy hash).run s = (.error e, s') := by
    rcases h with hrun | ⟨rfl, hrun⟩
    · exact hrun
    · rw [← run_contractDestroy]
      exact hrun
  have huntouched := untouched_of_run_destroy hrun
  have hhalf := halfDestroyed_of_run_destroy hrun
  refine ⟨⟨fun hsame hlisting => ?_, fun hlisting => (huntouched hlisting).effects⟩, huntouched,
    hhalf⟩
  have hlonger := (hhalf hlisting).effects
  rw [hsame] at hlonger
  simp at hlonger

/-- A contract with an entry in a store that may fail. -/
def Session.monitored (faults : Faults) : Session MonitoredStore where
  service := .new .application default .session
  snapshot := .new
  store := ⟨.ofPairs [(.contract default, .contract ⟨[], true, false, false, ""⟩),
    (.storage ⟨default, [1]⟩, .storageItem ⟨[7]⟩)], faults, 0⟩
  machine := ⟨[], default, none⟩
  heap := .empty
  delivered := []
  released := []

/-- Nothing is changed where nothing can be read; the contract is pruned where only its storage
cannot be listed. -/
theorem Call.destroy_failed_monitored :
    (∃ e s', (destroy default).run (Session.monitored ⟨true, true, false⟩) = (.error e, s') ∧
      (Session.monitored ⟨true, true, false⟩).Untouched s') ∧
    ∃ e s', (perform .contractDestroy).run (Session.monitored ⟨false, true, false⟩) =
      (.error e, s') ∧ (Session.monitored ⟨false, true, false⟩).HalfDestroyed default s' := by
  constructor
  · have hfailed : ∃ e s', (destroy default).run (Session.monitored ⟨true, true, false⟩) =
        (.error e, s') ∧ s'.snapshot.effects = [] := ⟨_, _, rfl, rfl⟩
    obtain ⟨e, s', hrun, heffects⟩ := hfailed
    have hcases := destroy_failed (.inl hrun)
    exact ⟨e, s', hrun, hcases.2.1 (hcases.1.mp heffects)⟩
  · have hlisting : (Session.monitored ⟨false, true, false⟩).ListingFails default :=
      ⟨rfl, _, _, _, rfl, rfl, rfl⟩
    have hfailed : ∃ e s', (perform .contractDestroy).run (Session.monitored ⟨false, true, false⟩) =
        (.error e, s') := ⟨_, _, rfl⟩
    obtain ⟨e, s', hrun⟩ := hfailed
    exact ⟨e, s', hrun, (destroy_failed (.inr ⟨rfl, hrun⟩)).2.2 hlisting⟩

/-- A contract that could not be destroyed is gone after a commit, and its entry is not. -/
theorem Call.destroy_not_atomic :
    ∃ e s' committed, (destroy default).run (Session.monitored ⟨false, true, false⟩) =
        (.error e, s') ∧
      s'.snapshot.effects ≠ (Session.monitored ⟨false, true, false⟩).snapshot.effects ∧
      ((Snapshot.get (.contract default)).run s'.workspace).1 ≠
        ((Snapshot.get (.contract default)).run
          (Session.monitored ⟨false, true, false⟩).workspace).1 ∧
      commit.run s' = (.ok (), committed) ∧
      committed.store.store.get? (.contract default) = none ∧
      committed.store.store.get? (.storage ⟨default, [1]⟩) = some (.storageItem ⟨[7]⟩) := by
  refine ⟨_, _, _, rfl, ?_, ?_, rfl, rfl, rfl⟩
  · intro hsame
    cases hsame
  · intro hsame
    cases hsame

end ContractHost
