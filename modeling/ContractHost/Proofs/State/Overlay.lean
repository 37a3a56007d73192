import ContractHost.Proofs.State.View

/-!
# A snapshot is its log over its store

The cache of a snapshot is never seen. Whatever was read, written or pruned before, a key has the
value that the log says, and what the store has where the log says nothing. The written values and
pruned keys in the cache are those of the log, and each request keeps it so.
-/

namespace ContractHost

namespace Effects

/-- The last write or prune of a key. -/
def lastChange? (effects : Effects) (key : StateKey) : Option Change :=
  (effects.reverse.find? fun t => t.key = key ∧ t.change ≠ .identity).map Transform.change

/-- The contents of a store with a log on top. -/
def overlay (contents : StateKey → Option StoredValue) (effects : Effects) (key : StateKey) :
    Option StoredValue :=
  match effects.lastChange? key with
  | some (.write value) => some value
  | some .prune => none
  | some .identity | none => contents key

def changes (effects : Effects) : Effects := effects.filter fun t => t.change ≠ .identity

theorem lastChange?_append (effects more : Effects) (key : StateKey) :
    lastChange? (effects ++ more) key = (more.lastChange? key).or (effects.lastChange? key) := by
  rw [lastChange?, List.reverse_append, List.find?_append, Option.map_or]
  rfl

theorem lastChange?_singleton (t : Transform) (key : StateKey) :
    lastChange? [t] key = if t.key = key ∧ t.change ≠ .identity then some t.change else none := by
  by_cases h : t.key = key ∧ t.change ≠ .identity <;> simp [lastChange?, h]

theorem lastChange?_concat (effects : Effects) (t : Transform) (key : StateKey) :
    lastChange? (effects ++ [t]) key =
      if t.key = key ∧ t.change ≠ .identity then some t.change else effects.lastChange? key := by
  rw [lastChange?_append, lastChange?_singleton]
  split <;> rfl

theorem changes_concat (effects : Effects) (t : Transform) :
    changes (effects ++ [t]) =
      if t.change = .identity then effects.changes else effects.changes ++ [t] := by
  by_cases h : t.change = .identity <;> simp [changes, h]

theorem mem_changes_of_lastChange? {effects : Effects} {key : StateKey} {change : Change}
    (h : effects.lastChange? key = some change) : ⟨key, change⟩ ∈ effects.changes := by
  obtain ⟨t, ht, rfl⟩ := Option.map_eq_some_iff.mp h
  have hmem := List.mem_reverse.mp (List.mem_of_find?_eq_some ht)
  obtain ⟨rfl, hchange⟩ : t.key = key ∧ t.change ≠ .identity := by
    simpa using List.find?_some ht
  exact List.mem_filter.mpr ⟨hmem, by simpa using hchange⟩

theorem lastChange?_eq_none_iff {effects : Effects} {key : StateKey} :
    effects.lastChange? key = none ↔ ∀ t ∈ effects.changes, t.key ≠ key := by
  rw [lastChange?, Option.map_eq_none_iff, List.find?_eq_none, changes]
  simp only [List.mem_reverse, List.mem_filter, decide_eq_true_eq, not_and, and_imp]
  exact forall₂_congr fun t _ => ⟨fun h hchange hkey => h hkey hchange,
    fun h hkey hchange => h hchange hkey⟩

theorem lastChange?_ne_identity (effects : Effects) (key : StateKey) :
    effects.lastChange? key ≠ some .identity := by
  intro h
  simpa [changes] using mem_changes_of_lastChange? h

theorem lastChange?_changes (effects : Effects) (key : StateKey) :
    effects.changes.lastChange? key = effects.lastChange? key := by
  rw [lastChange?, changes, ← List.filter_reverse, List.find?_filter, lastChange?]
  congr 2
  funext t
  by_cases h : t.change = .identity <;> simp [h]

theorem overlay_changes (contents : StateKey → Option StoredValue) (effects : Effects) :
    effects.changes.overlay contents = effects.overlay contents := by
  funext key
  rw [overlay, overlay, lastChange?_changes]

theorem overlay_append (contents : StateKey → Option StoredValue) (effects more : Effects) :
    (effects ++ more).overlay contents = more.overlay (effects.overlay contents) := by
  funext key
  rw [overlay, overlay, lastChange?_append]
  cases hlast : more.lastChange? key with
  | none => rfl
  | some change =>
    cases change with
    | identity => exact absurd hlast (lastChange?_ne_identity more key)
    | write value => rfl
    | prune => rfl

theorem overlay_congr {contents contents' : StateKey → Option StoredValue} {effects : Effects}
    (h : ∀ key, effects.lastChange? key = none → contents' key = contents key) :
    effects.overlay contents' = effects.overlay contents := by
  funext key
  rw [overlay, overlay]
  cases hlast : effects.lastChange? key with
  | none => exact h key hlast
  | some change =>
    cases change with
    | identity => exact absurd hlast (lastChange?_ne_identity effects key)
    | write value => rfl
    | prune => rfl

theorem overlay_of_eq_none {contents : StateKey → Option StoredValue} {effects : Effects}
    {key : StateKey} (h : effects.lastChange? key = none) :
    effects.overlay contents key = contents key := by
  rw [overlay, h]

theorem isSome_of_overlay {contents : StateKey → Option StoredValue} {effects : Effects}
    {key : StateKey} (h : (effects.overlay contents key).isSome) :
    (contents key).isSome ∨ ∃ value, ⟨key, .write value⟩ ∈ effects.changes := by
  rw [overlay] at h
  split at h
  next value hlast => exact .inr ⟨value, mem_changes_of_lastChange? hlast⟩
  next => cases h
  next => exact .inl h
  next => exact .inl h

end Effects

/-- The cache holds the writes and prunes that are the last changes in the log. -/
structure Snapshot.Tracked (s : Snapshot) : Prop where
  written : ∀ key value,
    Cache.find? s.cache.writes key = some value ↔ s.effects.lastChange? key = some (.write value)
  pruned : ∀ key, s.cache.isPruned key ↔ s.effects.lastChange? key = some .prune

namespace Snapshot

namespace Tracked

variable {s : Snapshot}

theorem view (h : s.Tracked) (contents : StateKey → Option StoredValue) (key : StateKey) :
    s.cache.view contents key = s.effects.overlay contents key := by
  rw [Cache.view, Effects.overlay]
  split
  next hpruned => rw [(h.pruned key).mp hpruned]
  next hpruned =>
    cases hlast : s.effects.lastChange? key with
    | none =>
      have hwritten : Cache.find? s.cache.writes key = none := by
        refine Option.eq_none_iff_forall_ne_some.mpr fun value hvalue => ?_
        rw [(h.written key value).mp hvalue] at hlast
        cases hlast
      rw [hwritten]
      rfl
    | some change =>
      cases change with
      | write value =>
        rw [(h.written key value).mpr hlast]
        rfl
      | prune => exact absurd ((h.pruned key).mpr hlast) hpruned
      | identity => exact absurd hlast (s.effects.lastChange?_ne_identity key)

theorem new (limit : UInt64) (weigh : StateKey → StoredValue → UInt64) (persisting : Option Block) :
    Tracked ⟨.new limit weigh, [], persisting⟩ :=
  ⟨fun _ _ => by simp [Cache.new, Cache.find?, Effects.lastChange?],
    fun _ => by simp [Cache.new, Cache.isPruned, Effects.lastChange?]⟩

theorem lastChange?_eq_none (h : s.Tracked) {key : StateKey}
    (hwritten : Cache.find? s.cache.writes key = none) (hpruned : s.cache.isPruned key = false) :
    s.effects.lastChange? key = none := by
  refine Option.eq_none_iff_forall_ne_some.mpr fun change hlast => ?_
  cases change with
  | identity => exact s.effects.lastChange?_ne_identity key hlast
  | write value =>
    rw [(h.written key value).mpr hlast] at hwritten
    cases hwritten
  | prune =>
    rw [(h.pruned key).mpr hlast] at hpruned
    cases hpruned

theorem find?_writes_of_isPruned (h : s.Tracked) {key : StateKey}
    (hpruned : s.cache.isPruned key = true) : Cache.find? s.cache.writes key = none := by
  refine Option.eq_none_iff_forall_ne_some.mpr fun value hvalue => ?_
  have hlast := (h.written key value).mp hvalue
  rw [(h.pruned key).mp hpruned] at hlast
  cases hlast

theorem exists_write (h : s.Tracked) {key : StateKey}
    (hkey : key ∈ s.cache.writes.map Prod.fst) :
    ∃ value, ⟨key, .write value⟩ ∈ s.effects.changes := by
  obtain ⟨value, hvalue⟩ := Option.isSome_iff_exists.mp (Cache.find?_isSome_iff.mpr hkey)
  exact ⟨value, Effects.mem_changes_of_lastChange? ((h.written key value).mp hvalue)⟩

theorem sameChanges (h : s.Tracked) {cache : Cache} (hsame : s.cache.SameChanges cache) :
    Tracked { s with cache := cache } := by
  obtain ⟨weight, reads, rfl⟩ := hsame
  exact ⟨h.written, h.pruned⟩

theorem identity (h : s.Tracked) (key : StateKey) :
    Tracked { s with effects := s.effects ++ [⟨key, .identity⟩] } := by
  refine ⟨fun other value => ?_, fun other => ?_⟩
  · rw [h.written, Effects.lastChange?_concat]
    simp
  · rw [h.pruned, Effects.lastChange?_concat]
    simp

theorem write (h : s.Tracked) (key : StateKey) (value : StoredValue) :
    Tracked { s with
      cache := s.cache.insertWrite key value, effects := s.effects ++ [⟨key, .write value⟩] } := by
  refine ⟨fun other found => ?_, fun other => ?_⟩
  · rw [Cache.insertWrite, Cache.find?_cons, Cache.find?_without, Effects.lastChange?_concat]
    by_cases hkey : key = other
    · simp [hkey]
    · simp [hkey, h.written]
  · rw [Effects.lastChange?_concat]
    have hpruned := h.pruned other
    by_cases hkey : key = other
    · simp [hkey, Cache.insertWrite, Cache.isPruned]
    · simpa [hkey, Cache.insertWrite, Cache.isPruned, Ne.symm hkey] using hpruned

theorem prune (h : s.Tracked) (key : StateKey) :
    Tracked { s with
      cache := s.cache.insertPrune key, effects := s.effects ++ [⟨key, .prune⟩] } := by
  refine ⟨fun other found => ?_, fun other => ?_⟩
  · rw [Cache.insertPrune, Cache.find?_without, Effects.lastChange?_concat]
    by_cases hkey : key = other
    · simp [hkey]
    · simp [hkey, h.written]
  · rw [Effects.lastChange?_concat]
    have hpruned := h.pruned other
    by_cases hkey : key = other
    · simp [hkey, Cache.insertPrune, Cache.isPruned]
    · simpa [hkey, Cache.insertPrune, Cache.isPruned, Ne.symm hkey] using hpruned

end Tracked

end Snapshot

/-- What may be asked of a snapshot. -/
inductive SnapshotRequest
  | get (key : StateKey)
  | read (key : StateKey)
  | write (key : StateKey) (value : StoredValue)
  | prune (key : StateKey)
  | keysUnder (stem : Bytes)
  | readContract (hash : ScriptHash)
  | readStorageItem (key : StorageKey)
  | storageKeys (hash : ScriptHash)
  | readChainTip
  | readBlockHashAtHeight (height : UInt32)
  | readHeader (hash : BlockHash)
  | readBlock (hash : BlockHash)
  | readTipHeader
  | readTransaction (hash : TransactionHash)

namespace SnapshotRequest

def change? : SnapshotRequest → Option Transform
  | write key value => some ⟨key, .write value⟩
  | prune key => some ⟨key, .prune⟩
  | _ => none

variable {σ : Type} [StateReader σ]

def after (w : Workspace σ) : SnapshotRequest → Workspace σ
  | get key => ((Snapshot.get key).run w).2
  | read key => ((Snapshot.read key).run w).2
  | write key value => ((Snapshot.write key value).run w).2
  | prune key => ((Snapshot.prune key).run w).2
  | keysUnder stem => ((Snapshot.keysUnder stem).run w).2
  | readContract hash => ((Snapshot.readContract hash).run w).2
  | readStorageItem key => ((Snapshot.readStorageItem key).run w).2
  | storageKeys hash => ((Snapshot.storageKeys hash).run w).2
  | readChainTip => (Snapshot.readChainTip.run w).2
  | readBlockHashAtHeight height => ((Snapshot.readBlockHashAtHeight height).run w).2
  | readHeader hash => ((Snapshot.readHeader hash).run w).2
  | readBlock hash => ((Snapshot.readBlock hash).run w).2
  | readTipHeader => (Snapshot.readTipHeader.run w).2
  | readTransaction hash => ((Snapshot.readTransaction hash).run w).2

def afterAll (w : Workspace σ) (requests : List SnapshotRequest) : Workspace σ :=
  requests.foldl after w

end SnapshotRequest

section

variable {σ : Type} (steady : σ → Prop) (contents : StateKey → Option StoredValue)

/-- The cache agrees with the store and with the log. -/
structure Workspace.Coherent (w : Workspace σ) : Prop where
  faithful : w.Faithful steady contents
  tracked : w.snapshot.Tracked

/-- The log has gained some writes and prunes, and what was in agreement still is. -/
structure Workspace.Advances (more : Effects) (w w' : Workspace σ) : Prop where
  faithful : w.Faithful steady contents → w'.Faithful steady contents
  tracked : w.snapshot.Tracked → w'.snapshot.Tracked
  changes : w'.snapshot.effects.changes = w.snapshot.effects.changes ++ more

end

variable {σ : Type} {steady : σ → Prop} {contents : StateKey → Option StoredValue}

namespace Workspace

theorem Quiet.effects {w w' : Workspace σ} (h : w.Quiet steady contents w') :
    w'.snapshot.effects = w.snapshot.effects := by
  obtain ⟨cache, -, hsnapshot⟩ := h.snapshot
  rw [hsnapshot]

theorem Quiet.advances {w w' : Workspace σ} (h : w.Quiet steady contents w') :
    w.Advances steady contents [] w' := by
  refine ⟨h.faithful, fun hw => ?_, ?_⟩
  · obtain ⟨cache, hsame, hsnapshot⟩ := h.snapshot
    rw [hsnapshot]
    exact hw.sameChanges hsame
  · rw [h.effects, List.append_nil]

theorem Advances.trans {more more' : Effects} {a b c : Workspace σ}
    (hab : a.Advances steady contents more b) (hbc : b.Advances steady contents more' c) :
    a.Advances steady contents (more ++ more') c :=
  ⟨hbc.faithful ∘ hab.faithful, hbc.tracked ∘ hab.tracked, by
    rw [hbc.changes, hab.changes, List.append_assoc]⟩

theorem Advances.coherent {more : Effects} {w w' : Workspace σ}
    (h : w.Advances steady contents more w') (hw : w.Coherent steady contents) :
    w'.Coherent steady contents :=
  ⟨h.faithful hw.faithful, h.tracked hw.tracked⟩

theorem advances_write (w : Workspace σ) (key : StateKey) (value : StoredValue) :
    w.Advances steady contents [⟨key, .write value⟩] ((Snapshot.write key value).run w).2 := by
  refine ⟨fun hw => ⟨hw.steady, hw.current⟩, fun hw => hw.write key value, ?_⟩
  exact Effects.changes_concat w.snapshot.effects ⟨key, .write value⟩

theorem advances_prune (w : Workspace σ) (key : StateKey) :
    w.Advances steady contents [⟨key, .prune⟩] ((Snapshot.prune key).run w).2 := by
  refine ⟨fun hw => ⟨hw.steady, hw.current⟩, fun hw => hw.prune key, ?_⟩
  exact Effects.changes_concat w.snapshot.effects ⟨key, .prune⟩

end Workspace

variable [StateReader σ]

namespace Snapshot

theorem run_read (key : StateKey) (w : Workspace σ) :
    (read key).run w =
      match (get key).run w with
      | (.ok (some value), w) => (.ok (some value), { w with snapshot :=
          { w.snapshot with effects := w.snapshot.effects ++ [⟨key, .identity⟩] } })
      | (.ok none, w) => (.ok none, w)
      | (.error e, w) => (.error e, w) := by
  rw [read, run_bind]
  rcases (get key).run w with ⟨e | _ | value, w⟩ <;> rfl

theorem fst_run_read (key : StateKey) (w : Workspace σ) :
    ((read key).run w).1 = ((get key).run w).1 := by
  rw [run_read]
  rcases (get key).run w with ⟨e | _ | value, w⟩ <;> rfl

theorem run_keysUnder (stem : Bytes) (w : Workspace σ) :
    ((keysUnder stem).run w).1 =
      match (StateReader.keysUnder stem w.store).1 with
      | .error e => .error (.storage e)
      | .ok stored =>
        match StateKey.selectUnder stem (w.snapshot.cache.writes.map Prod.fst) with
        | .error e => .error (.wire e)
        | .ok written => .ok (StateKey.sorted
            ((stored.filter fun k => !w.snapshot.cache.isPruned k) ++ written)) := by
  rw [keysUnder, run_bind, run_onStore]
  rcases StateReader.keysUnder stem w.store with ⟨e | stored, store⟩
  · rfl
  · change ((match StateKey.selectUnder stem (w.snapshot.cache.writes.map Prod.fst) with
      | .error e => throw (SnapshotError.wire e)
      | .ok written => pure (StateKey.sorted
          ((stored.filter fun k => !w.snapshot.cache.isPruned k) ++ written)) :
        SnapshotM σ _).run _).1 = _
    rcases StateKey.selectUnder stem (w.snapshot.cache.writes.map Prod.fst) with e | written <;> rfl

theorem exists_of_keysUnder {stem : Bytes} {w : Workspace σ} {keys : List StateKey}
    (h : ((keysUnder stem).run w).1 = .ok keys) :
    ∃ stored written, (StateReader.keysUnder stem w.store).1 = .ok stored ∧
      StateKey.selectUnder stem (w.snapshot.cache.writes.map Prod.fst) = .ok written ∧
      keys =
        StateKey.sorted ((stored.filter fun k => !w.snapshot.cache.isPruned k) ++ written) := by
  rw [run_keysUnder] at h
  split at h
  next => cases h
  next stored hstored =>
    split at h
    next => cases h
    next written hwritten =>
      cases h
      exact ⟨stored, written, hstored, hwritten, rfl⟩

/-- The keys listed are those that show a value, in order. -/
theorem keysUnder_shows (hstore : Serves steady contents) {w : Workspace σ}
    (hw : w.Coherent steady contents) {stem : Bytes} {keys : List StateKey}
    (h : ((keysUnder stem).run w).1 = .ok keys) :
    keys.Pairwise (fun a b => compare a b = .lt) ∧
      ∀ key, key ∈ keys ↔
        (w.snapshot.cache.view contents key).isSome ∧ stem <+: WireWrite.encode key := by
  obtain ⟨stored, written, hstored, hwritten, rfl⟩ := exists_of_keysUnder h
  refine ⟨StateKey.pairwise_sorted _, fun key => ?_⟩
  have hmem := hstore.keysUnder w.store stem stored hw.faithful.steady hstored key
  rw [StateKey.mem_sorted, List.mem_append, List.mem_filter, hmem,
    StateKey.mem_selectUnder hwritten, ← Cache.find?_isSome_iff, Cache.view]
  by_cases hpruned : w.snapshot.cache.isPruned key = true
  · have hnone := hw.tracked.find?_writes_of_isPruned hpruned
    simp [hpruned, hnone]
  · cases hfind : Cache.find? w.snapshot.cache.writes key <;> simp [hpruned]

theorem keysUnder_total {w : Workspace σ} {stem : Bytes} {stored : List StateKey}
    (h : (StateReader.keysUnder stem w.store).1 = .ok stored)
    (hsize : ∀ key ∈ w.snapshot.cache.writes.map Prod.fst,
      WireWrite.size key ≤ Wire.maxBufferSize) :
    ∃ keys, ((keysUnder stem).run w).1 = .ok keys := by
  obtain ⟨written, hwritten⟩ := StateKey.selectUnder_total stem hsize
  have hrun := run_keysUnder stem w
  rw [h, hwritten] at hrun
  exact ⟨_, hrun⟩

end Snapshot

namespace SnapshotRequest

theorem after_advances (hstore : Serves steady contents) (w : Workspace σ)
    (request : SnapshotRequest) :
    w.Advances steady contents request.change?.toList (after w request) := by
  have hquiet : ∀ {α : Type} {step : SnapshotM σ α},
      Moves (Workspace.Quiet steady contents) step →
        w.Advances steady contents [] (step.run w).2 :=
    fun hstep => (hstep w).advances
  cases request with
  | get key => exact hquiet (Snapshot.get_quiet hstore key)
  | read key =>
    have hget := hquiet (Snapshot.get_quiet hstore key)
    change w.Advances steady contents [] ((Snapshot.read key).run w).2
    rw [Snapshot.run_read]
    cases hrun : (Snapshot.get key).run w with
    | mk result w' =>
      rw [hrun] at hget
      rcases result with e | _ | value
      · exact hget
      · exact hget
      · refine ⟨fun hw => ?_, fun hw => (hget.tracked hw).identity key, ?_⟩
        · exact ⟨(hget.faithful hw).steady, (hget.faithful hw).current⟩
        · exact (Effects.changes_concat _ ⟨key, .identity⟩).trans hget.changes
  | write key value => exact w.advances_write key value
  | prune key => exact w.advances_prune key
  | keysUnder stem => exact hquiet (Snapshot.keysUnder_quiet hstore stem)
  | readContract hash => exact hquiet (Snapshot.getAs_quiet hstore _ _)
  | readStorageItem key => exact hquiet (Snapshot.getAs_quiet hstore _ _)
  | storageKeys hash => exact hquiet (Snapshot.storageKeys_quiet hstore hash)
  | readChainTip => exact hquiet (Snapshot.getAs_quiet hstore _ _)
  | readBlockHashAtHeight height => exact hquiet (Snapshot.getAs_quiet hstore _ _)
  | readHeader hash => exact hquiet (Snapshot.getAs_quiet hstore _ _)
  | readBlock hash => exact hquiet (Snapshot.readBlock_quiet hstore hash)
  | readTipHeader => exact hquiet (Snapshot.readTipHeader_quiet hstore)
  | readTransaction hash => exact hquiet (Snapshot.getAs_quiet hstore _ _)

theorem afterAll_advances (hstore : Serves steady contents) (w : Workspace σ)
    (requests : List SnapshotRequest) :
    w.Advances steady contents (requests.filterMap change?) (afterAll w requests) := by
  induction requests generalizing w with
  | nil => exact ⟨id, id, (List.append_nil _).symm⟩
  | cons request requests ih =>
    have hall : w.Advances steady contents
        (request.change?.toList ++ requests.filterMap change?) (afterAll w (request :: requests)) :=
      (after_advances hstore w request).trans (ih (after w request))
    cases hchange : request.change? <;> simpa [hchange] using hall

end SnapshotRequest

/-- After any requests a snapshot over a store of steady contents shows the log on top of them,
whatever its cache keeps and drops: getting and reading find the last value written, nothing after
a prune, and otherwise what the store has, and the keys listed are those of a value. The log has
the writes and prunes that were asked for, in their order. -/
theorem Snapshot.shows_overlay (hstore : Serves steady contents) (hfaultless : Faultless steady)
    (limit : UInt64) (weigh : StateKey → StoredValue → UInt64) (persisting : Option Block) (store : σ)
    (hsteady : steady store) (requests : List SnapshotRequest) :
    let w := SnapshotRequest.afterAll ⟨⟨.new limit weigh, [], persisting⟩, store⟩ requests
    w.snapshot.effects.changes = requests.filterMap SnapshotRequest.change? ∧
    (∀ key, ((get key).run w).1 = .ok (w.snapshot.effects.overlay contents key) ∧
      ((read key).run w).1 = .ok (w.snapshot.effects.overlay contents key)) ∧
    ((∀ key value, .write key value ∈ requests → WireWrite.size key ≤ Wire.maxBufferSize) →
      ∀ stem, ∃ keys, ((keysUnder stem).run w).1 = .ok keys ∧
        keys.Pairwise (fun a b => compare a b = .lt) ∧
        ∀ key, key ∈ keys ↔
          (w.snapshot.effects.overlay contents key).isSome ∧ stem <+: WireWrite.encode key) := by
  intro w
  have hstart : Workspace.Coherent steady contents
      ⟨⟨.new limit weigh, [], persisting⟩, store⟩ :=
    ⟨⟨hsteady, fun e he => by cases he⟩, Tracked.new limit weigh persisting⟩
  have hall := SnapshotRequest.afterAll_advances hstore
    ⟨⟨.new limit weigh, [], persisting⟩, store⟩ requests
  have hw : w.Coherent steady contents := hall.coherent hstart
  have hchanges : w.snapshot.effects.changes = requests.filterMap SnapshotRequest.change? :=
    hall.changes
  have hget : ∀ key, ((get key).run w).1 = .ok (w.snapshot.effects.overlay contents key) := by
    intro key
    rw [fst_run_get hstore hfaultless hw.faithful, hw.tracked.view]
  refine ⟨hchanges, fun key => ⟨hget key, ?_⟩, fun hsize stem => ?_⟩
  · rw [fst_run_read, hget]
  · have hwritten : ∀ key ∈ w.snapshot.cache.writes.map Prod.fst,
        WireWrite.size key ≤ Wire.maxBufferSize := by
      intro key hkey
      obtain ⟨value, hmem⟩ := hw.tracked.exists_write hkey
      rw [hchanges] at hmem
      obtain ⟨request, hrequest, hchange⟩ := List.mem_filterMap.mp hmem
      cases request <;> cases hchange
      exact hsize key value hrequest
    obtain ⟨stored, hstored⟩ := hfaultless.keysUnder w.store stem hw.faithful.steady
    obtain ⟨keys, hkeys⟩ := keysUnder_total hstored hwritten
    obtain ⟨hsorted, hmem⟩ := keysUnder_shows hstore hw hkeys
    refine ⟨keys, hkeys, hsorted, fun key => ?_⟩
    rw [hmem, hw.tracked.view]

/-- A height pruned after it was read and a tip written, with no room to keep what was read. -/
theorem Snapshot.shows_overlay_memory :
    let store := MemoryStore.ofPairs [(.blockHashAtHeight 1, .blockHash default)]
    let w := SnapshotRequest.afterAll ⟨⟨.new 0 Weight.ofEntry, [], none⟩, store⟩
      [.get (.blockHashAtHeight 1), .prune (.blockHashAtHeight 1), .keysUnder [],
        .write .chainTip (.chainTip default), .read .chainTip]
    ((get (.blockHashAtHeight 1)).run w).1 = .ok none ∧
      ((read .chainTip).run w).1 = .ok (some (.chainTip default)) ∧
      ∃ keys, ((keysUnder []).run w).1 = .ok keys ∧ .chainTip ∈ keys := by
  intro store
  have hsize : ∀ key, (store.get? key).isSome → WireWrite.size key ≤ Wire.maxBufferSize := by
    intro key hkey
    have hmem : key ∈ store.entries := Std.TreeMap.mem_iff_isSome_getElem?.mpr hkey
    change key ∈ (∅ : Std.TreeMap StateKey StoredValue).insert _ _ at hmem
    have hkey : .blockHashAtHeight 1 = key := by simpa using hmem
    subst hkey
    decide
  have hshows := shows_overlay (MemoryStore.serves store) (MemoryStore.faultless hsize) 0
    Weight.ofEntry none store rfl
    [.get (.blockHashAtHeight 1), .prune (.blockHashAtHeight 1), .keysUnder [],
      .write .chainTip (.chainTip default), .read .chainTip]
  -- The run is named before anything is compared with it, so that it is evaluated only once.
  generalize hw : @SnapshotRequest.afterAll MemoryStore _ _ _ = w at hshows ⊢
  have heffects : w.snapshot.effects = [⟨.blockHashAtHeight 1, .prune⟩,
      ⟨.chainTip, .write (.chainTip default)⟩, ⟨.chainTip, .identity⟩] := by
    rw [← hw]
    rfl
  obtain ⟨-, hget, hkeys⟩ := hshows
  have hfits : ∀ key value, .write key value ∈ [SnapshotRequest.get (.blockHashAtHeight 1),
      .prune (.blockHashAtHeight 1), .keysUnder [], .write .chainTip (.chainTip default),
      .read .chainTip] → WireWrite.size key ≤ Wire.maxBufferSize := by
    intro key value h
    obtain ⟨rfl, -⟩ : key = .chainTip ∧ value = .chainTip default := by simpa using h
    decide
  obtain ⟨keys, hlisted, -, hmem⟩ := hkeys hfits []
  have hfirst := (hget (.blockHashAtHeight 1)).1
  have hsecond := (hget .chainTip).2
  have htip := (hmem .chainTip).mpr
  rw [heffects] at hfirst hsecond htip
  exact ⟨hfirst, hsecond, keys, hlisted, htip ⟨rfl, List.nil_prefix⟩⟩

end ContractHost
