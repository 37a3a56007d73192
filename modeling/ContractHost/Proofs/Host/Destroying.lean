import ContractHost.Proofs.Host.Operations
import ContractHost.Proofs.State.Committing

/-!
# Destroying a contract

Destroying prunes the key of a contract and then the key of every entry that its storage shows. The
entries are listed by the beginning of their keys, those in the store and those only written so far
alike, so that nothing of the contract is left and nothing else is touched. What is found of it
later has been written later.
-/

namespace ContractHost

/-- The contract that a key belongs to, as its own key or as that of one of its entries. -/
def StateKey.owner? : StateKey → Option ScriptHash
  | contract hash => some hash
  | storage key => some key.scriptHash
  | _ => none

theorem Effects.overlay_eq_none {contents : StateKey → Option StoredValue} {effects : Effects}
    {key : StateKey} (habsent : contents key = none)
    (hunwritten : ∀ value, ⟨key, .write value⟩ ∉ effects) : effects.overlay contents key = none := by
  by_contra hshown
  rcases isSome_of_overlay (Option.isSome_iff_ne_none.mpr hshown) with hbelow | ⟨value, hmem⟩
  · rw [habsent] at hbelow
    cases hbelow
  · exact hunwritten value (List.mem_filter.mp hmem).1

theorem Snapshot.Tracked.size_le {t : Snapshot} (ht : t.Tracked)
    (h : ∀ key value, ⟨key, .write value⟩ ∈ t.effects →
      WireWrite.size key ≤ Wire.maxBufferSize) :
    ∀ key ∈ t.cache.writes.map Prod.fst, WireWrite.size key ≤ Wire.maxBufferSize := by
  intro key hkey
  obtain ⟨value, hwrite⟩ := ht.exists_write hkey
  exact h key value (List.mem_filter.mp hwrite).1

theorem Workspace.Quiet.view {σ : Type} {steady : σ → Prop}
    {contents : StateKey → Option StoredValue} {w w' : Workspace σ}
    (h : w.Quiet steady contents w') :
    w'.snapshot.cache.view contents = w.snapshot.cache.view contents := by
  obtain ⟨cache, hsame, hsnapshot⟩ := h.snapshot
  rw [hsnapshot, hsame.view]

namespace Call

variable {σ : Type} [StateReader σ] {steady : σ → Prop}
  {contents : StateKey → Option StoredValue} {s s' : Session σ}

theorem contract_of_perform_ok (hstore : Serves steady contents)
    (hs : s.workspace.Faithful steady contents) {hash : ScriptHash} {f : HostFunction}
    (hf : f ≠ .contractDestroy) (hreaches : s.Reaches hash f)
    (h : (perform f).run s = (.ok (), s')) :
    ∃ contract, s.shown contents (.contract hash) = some (.contract contract) := by
  cases hreaches with
  | destroy => exact absurd rfl hf
  | @context f hstorage handle rest hstack context hobject howner =>
    subst howner
    have hwritable : ∀ {context' : StorageContext} {middle : Session σ},
        popWritableContext.run s = (.ok context', middle) →
        ∃ contract, s.shown contents (.contract context.scriptHash) = some (.contract contract) := by
      intro context' middle hpop
      obtain ⟨-, -, ⟨handle', hstack', hobject'⟩, contract, hcontract, -⟩ :=
        popWritableContext_ok hstore hs hpop
      rw [hstack] at hstack'
      cases hstack'
      rw [hobject] at hobject'
      cases hobject'
      exact ⟨contract, hcontract⟩
    rcases hstorage with rfl | rfl | rfl
    · obtain ⟨context', middle, hpop, hrest⟩ := exists_of_run_bind h
      obtain ⟨handle', rest', hstack', hobject', rfl⟩ := popStorageContext_ok hpop
      rw [hstack] at hstack'
      cases hstack'
      rw [hobject] at hobject'
      cases hobject'
      obtain ⟨⟨⟩, middle', hvalid, -⟩ := exists_of_run_bind hrest
      obtain ⟨-, contract, hcontract, -⟩ := requireValidContext_ok hstore (s := { s with
        machine := { s.machine with stack := rest } }) hs hvalid
      exact ⟨contract, hcontract⟩
    · obtain ⟨context', middle, hpop, -⟩ := exists_of_run_bind h
      exact hwritable hpop
    · obtain ⟨context', middle, hpop, -⟩ := exists_of_run_bind h
      exact hwritable hpop

end Call

namespace Session

variable {σ : Type} [StateReader σ] {steady : σ → Prop}
  {contents : StateKey → Option StoredValue} {s : Session σ} {hash : ScriptHash}

/-- Of a contract no more is found than a log writes: calls through its contexts fail unless its own
key is written there, and entries that are not written there have no value. -/
structure FindsOnly (s : Session σ) (hash : ScriptHash) (new : Effects) : Prop where
  fails : (∀ value, ⟨.contract hash, .write value⟩ ∉ new) →
    ∀ f, f ≠ .contractDestroy → s.Reaches hash f → ∃ e s', (Call.perform f).run s = (.error e, s')
  absent : ∀ key, key.owner? = some hash → (∀ value, ⟨key, .write value⟩ ∉ new) →
    ((Snapshot.get key).run s.workspace).1 = .ok none
  reads : ∀ key rest s', s.machine.addressed? = some (key, rest) → key.scriptHash = hash →
    (∀ value, ⟨.storage key, .write value⟩ ∉ new) →
    (Call.perform .storageGet).run s = (.ok (), s') → s'.machine.stack = .byteString [] :: rest

/-- After any operations no more is found of a contract than they write. -/
def StaysGone (s : Session σ) (hash : ScriptHash) : Prop :=
  ∀ operations, ∃ new, (s.afterOperations operations).snapshot.effects.changes =
      s.snapshot.effects.changes ++ new ∧
    (s.afterOperations operations).FindsOnly hash new

theorem staysGone_of_absent (hstore : Serves steady contents) (hfaultless : Faultless steady)
    (hs : s.workspace.Coherent steady contents)
    (habsent : ∀ key, key.owner? = some hash → s.shown contents key = none) :
    s.StaysGone hash := by
  intro operations
  obtain ⟨new, hnew, hshown⟩ := shown_afterOperations hstore hs operations
  have hcoherent := (within_afterOperations hstore hs.faithful operations).coherent hs
  have hnone : ∀ key, key.owner? = some hash → (∀ value, ⟨key, .write value⟩ ∉ new) →
      (s.afterOperations operations).shown contents key = none := by
    intro key hkey hunwritten
    rw [hshown]
    exact Effects.overlay_eq_none (habsent key hkey) hunwritten
  refine ⟨new, hnew, fun hunwritten f hf hreaches => ?_, fun key hkey hunwritten => ?_,
    fun key rest s' haddressed howner hunwritten hget => ?_⟩
  · rcases hrun : (Call.perform f).run (s.afterOperations operations) with ⟨e | ⟨⟩, s'⟩
    · exact ⟨e, s', rfl⟩
    · obtain ⟨contract, hcontract⟩ :=
        Call.contract_of_perform_ok hstore hcoherent.faithful hf hreaches hrun
      rw [hnone _ rfl hunwritten] at hcontract
      cases hcontract
  · rw [Snapshot.fst_run_get hstore hfaultless hcoherent.faithful]
    exact congrArg Except.ok (hnone key hkey hunwritten)
  · obtain ⟨key', rest', haddressed', hstack⟩ := Call.storageGet_ok hstore hcoherent hget
    rw [haddressed] at haddressed'
    cases haddressed'
    rw [hstack, stored, hnone (.storage key) (congrArg some howner) hunwritten]
    rfl

end Session

namespace Snapshot

variable {σ : Type}

theorem effects_of_forM_prune (keys : List StorageKey) (w : Workspace σ) :
    ∃ w', (keys.forM fun key => (prune (.storage key) : SnapshotM σ Unit)).run w = (.ok (), w') ∧
      w'.snapshot.effects = w.snapshot.effects ++ keys.map fun key => ⟨.storage key, .prune⟩ := by
  induction keys generalizing w with
  | nil => exact ⟨w, rfl, (List.append_nil _).symm⟩
  | cons first keys ih =>
    obtain ⟨w', hrun, heffects⟩ := ih ((prune (.storage first)).run w).2
    refine ⟨w', hrun, ?_⟩
    have hfirst : ((prune (.storage first)).run w).2.snapshot.effects =
        w.snapshot.effects ++ [⟨.storage first, .prune⟩] := rfl
    rw [heffects, hfirst, List.append_assoc]
    rfl

variable [StateReader σ] {steady : σ → Prop} {contents : StateKey → Option StoredValue}
  {w : Workspace σ} {hash : ScriptHash}

private theorem map_storage_sublist (keys : List StateKey) :
    ((keys.filterMap StateKey.storageKey?).map StateKey.storage).Sublist keys := by
  induction keys with
  | nil => exact .slnil
  | cons key keys ih =>
    cases key with
    | storage key => exact ih.cons_cons _
    | contract | block | transaction | blockHashAtHeight | chainTip => exact ih.cons _

theorem storageKeys_ascending (hstore : Serves steady contents) (hw : w.Coherent steady contents)
    {w' : Workspace σ} {listed : List StorageKey}
    (h : (storageKeys hash).run w = (.ok listed, w')) :
    (listed.map StateKey.storage).Pairwise fun a b => compare a b = .lt := by
  obtain ⟨all, middle, hall, hlisted⟩ := exists_of_run_bind h
  cases hlisted
  obtain ⟨hsorted, -⟩ := keysUnder_shows hstore hw (congrArg Prod.fst hall)
  exact List.Pairwise.sublist (map_storage_sublist all) hsorted

theorem storageKeys_total (hfaultless : Faultless steady) (hw : steady w.store)
    (hsize : ∀ key ∈ w.snapshot.cache.writes.map Prod.fst,
      WireWrite.size key ≤ Wire.maxBufferSize) (hash : ScriptHash) :
    ∃ listed w', (storageKeys hash).run w = (.ok listed, w') := by
  obtain ⟨stored, hstored⟩ := hfaultless.keysUnder w.store (StateKey.storageStem hash) hw
  obtain ⟨keys, hkeys⟩ := keysUnder_total hstored hsize
  rw [storageKeys, run_bind]
  rcases hrun : (keysUnder (StateKey.storageStem hash)).run w with ⟨result, w'⟩
  rw [hrun] at hkeys
  cases hkeys
  exact ⟨_, w', rfl⟩

theorem run_pruneStorage (hstore : Serves steady contents) (hfaultless : Faultless steady)
    (hw : w.Coherent steady contents)
    (hsize : ∀ key ∈ w.snapshot.cache.writes.map Prod.fst,
      WireWrite.size key ≤ Wire.maxBufferSize) (hash : ScriptHash) :
    ∃ (keys : List StorageKey) (w' : Workspace σ), (pruneStorage hash).run w = (.ok (), w') ∧
      w'.snapshot.effects = w.snapshot.effects ++ keys.map (fun key => ⟨.storage key, .prune⟩) ∧
      (keys.map StateKey.storage).Pairwise (fun a b => compare a b = .lt) ∧
      ∀ key, key ∈ keys ↔
        (w.snapshot.cache.view contents (.storage key)).isSome ∧ key.scriptHash = hash := by
  obtain ⟨keys, middle, hlisted⟩ := storageKeys_total hfaultless hw.faithful.steady hsize hash
  obtain ⟨w', hrun, heffects⟩ := effects_of_forM_prune keys middle
  refine ⟨keys, w', ?_, ?_, storageKeys_ascending hstore hw hlisted,
    mem_storageKeys hstore hw hlisted⟩
  · rw [pruneStorage, run_bind_ok hlisted]
    exact hrun
  · rw [heffects, ((storageKeys_quiet hstore hash).run hlisted).effects]

theorem view_of_prune_pruneStorage (hstore : Serves steady contents)
    (hw : w.Coherent steady contents) {w' : Workspace σ}
    (h : (pruneStorage hash).run ((prune (.contract hash)).run w).2 = (.ok (), w'))
    (key : StateKey) :
    w'.snapshot.cache.view contents key =
      if key.owner? = some hash then none else w.snapshot.cache.view contents key := by
  have hmiddle : ((prune (.contract hash)).run w).2.Coherent steady contents :=
    (w.advances_prune (.contract hash)).coherent hw
  have hothers : ∀ other, other ≠ .contract hash →
      ((prune (.contract hash)).run w).2.snapshot.cache.view contents other =
        w.snapshot.cache.view contents other :=
    fun other hother => w.snapshot.cache.view_insertPrune (Ne.symm hother)
  have hself : ((prune (.contract hash)).run w).2.snapshot.cache.view contents (.contract hash) =
      none := w.snapshot.cache.view_insertPrune_self contents _
  have hwithin : ((prune (.contract hash)).run w).2.Within steady contents
      (fun key => ∃ entry, key = .storage entry)
      ((pruneStorage hash).run ((prune (.contract hash)).run w).2).2 :=
    pruneStorage_within hstore (fun entry _ => ⟨entry, rfl⟩) hmiddle.faithful.steady
  rw [h] at hwithin
  cases key with
  | storage entry =>
    rw [view_of_pruneStorage hstore hmiddle h, hothers _ (by simp)]
    simp [StateKey.owner?]
  | contract other =>
    rw [hwithin.view _ (by simp)]
    by_cases hother : other = hash
    · subst hother
      rw [hself]
      simp [StateKey.owner?]
    · rw [hothers _ (by simpa using hother)]
      simp [StateKey.owner?, hother]
  | block | transaction | blockHashAtHeight | chainTip =>
    rw [hwithin.view _ (by simp), hothers _ (by simp)]
    simp [StateKey.owner?]

theorem run_prune_pruneStorage (hstore : Serves steady contents) (hfaultless : Faultless steady)
    (hw : w.Coherent steady contents)
    (hsize : ∀ key value, ⟨key, .write value⟩ ∈ w.snapshot.effects →
      WireWrite.size key ≤ Wire.maxBufferSize) (hash : ScriptHash) :
    ∃ (keys : List StorageKey) (w' : Workspace σ),
      (pruneStorage hash).run ((prune (.contract hash)).run w).2 = (.ok (), w') ∧
      w'.snapshot.effects = w.snapshot.effects ++
        ⟨.contract hash, .prune⟩ :: keys.map (fun key => ⟨.storage key, .prune⟩) ∧
      (keys.map StateKey.storage).Pairwise (fun a b => compare a b = .lt) ∧
      (∀ key, key ∈ keys ↔
        (w.snapshot.cache.view contents (.storage key)).isSome ∧ key.scriptHash = hash) ∧
      ∀ key, w'.snapshot.cache.view contents key =
        if key.owner? = some hash then none else w.snapshot.cache.view contents key := by
  have hpruned : ((prune (.contract hash)).run w).2.Coherent steady contents :=
    (w.advances_prune (.contract hash)).coherent hw
  have hlogged : ((prune (.contract hash)).run w).2.snapshot.effects =
      w.snapshot.effects ++ [⟨.contract hash, .prune⟩] := rfl
  have hwritten : ∀ key ∈ ((prune (.contract hash)).run w).2.snapshot.cache.writes.map Prod.fst,
      WireWrite.size key ≤ Wire.maxBufferSize := by
    apply hpruned.tracked.size_le
    intro key value hwrite
    rw [hlogged] at hwrite
    exact hsize key value (by simpa using hwrite)
  obtain ⟨keys, w', hprune, heffects, hascending, hmem⟩ :=
    run_pruneStorage hstore hfaultless hpruned hwritten hash
  refine ⟨keys, w', hprune, ?_, hascending, fun key => ?_, view_of_prune_pruneStorage hstore hw hprune⟩
  · rw [heffects, hlogged, List.append_assoc]
    rfl
  · have hother : ((prune (.contract hash)).run w).2.snapshot.cache.view contents (.storage key) =
        w.snapshot.cache.view contents (.storage key) :=
      w.snapshot.cache.view_insertPrune (by simp)
    rw [hmem, hother]

theorem run_readContract (hstore : Serves steady contents) (hfaultless : Faultless steady)
    (hw : w.Faithful steady contents) (found : Option ContractState)
    (hshown : w.snapshot.cache.view contents (.contract hash) = found.map .contract) :
    ∃ w', (readContract hash).run w = (.ok found, w') ∧ w.Quiet steady contents w' := by
  have hquiet := getAs_quiet hstore StoredValue.toContract (.contract hash) w
  have hget := fst_run_get hstore hfaultless hw (.contract hash)
  rw [hshown] at hget
  refine ⟨((readContract hash).run w).2, ?_, hquiet⟩
  rw [readContract, getAs, run_bind]
  rcases hrun : (get (.contract hash)).run w with ⟨result, w'⟩
  rw [hrun] at hget
  cases hget
  cases found <;> rfl

end Snapshot

namespace Call

variable {σ : Type} [StateReader σ] {s : Session σ}

/-- Destroying, step by step: the contract is looked up, its key is pruned, and only then is its
storage listed. -/
theorem run_destroy (hash : ScriptHash) (htrigger : s.service.trigger = .application) :
    (destroy hash).run s =
      match (Snapshot.readContract hash).run s.workspace with
      | (.error e, w) => (.error (.storage e), s.onWorkspace w)
      | (.ok none, w) => (.ok (), s.onWorkspace w)
      | (.ok (some contract), w) =>
        let w := ((Snapshot.prune (.contract hash)).run w).2
        if contract.hasStorage then
          (((Snapshot.pruneStorage hash).run w).1.mapError .storage,
            s.onWorkspace ((Snapshot.pruneStorage hash).run w).2)
        else (.ok (), s.onWorkspace w) := by
  rw [destroy, run_bind_ok (run_get s), if_neg (not_not_intro htrigger), run_bind, run_onSnapshot]
  rcases (Snapshot.readContract hash).run s.workspace with ⟨e | _ | contract, w⟩
  · rfl
  · rfl
  · dsimp only [Except.mapError]
    rw [run_bind, run_onSnapshot]
    cases contract.hasStorage with
    | true =>
      exact run_onSnapshot (Snapshot.pruneStorage hash)
        (s.onWorkspace ((Snapshot.prune (.contract hash)).run w).2)
    | false => rfl

theorem destroy_shown {steady : σ → Prop} {contents : StateKey → Option StoredValue}
    (hstore : Serves steady contents) (hfaultless : Faultless steady)
    (hs : s.workspace.Coherent steady contents) (htrigger : s.service.trigger = .application)
    (hsize : ∀ key value, ⟨key, .write value⟩ ∈ s.snapshot.effects →
      WireWrite.size key ≤ Wire.maxBufferSize)
    {hash : ScriptHash} {contract : ContractState}
    (hcontract : s.shown contents (.contract hash) = some (.contract contract))
    (hstorage : contract.hasStorage = true) :
    ∃ (keys : List StorageKey) (s' : Session σ), (destroy hash).run s = (.ok (), s') ∧
      s'.service = s.service ∧ s'.workspace.Coherent steady contents ∧
      s'.snapshot.effects = s.snapshot.effects ++
        ⟨.contract hash, .prune⟩ :: keys.map (fun key => ⟨.storage key, .prune⟩) ∧
      (keys.map StateKey.storage).Pairwise (fun a b => compare a b = .lt) ∧
      (∀ key, key ∈ keys ↔
        (s.shown contents (.storage key)).isSome ∧ key.scriptHash = hash) ∧
      ∀ key, s'.shown contents key =
        if key.owner? = some hash then none else s.shown contents key := by
  obtain ⟨w, hread, hquiet⟩ :=
    Snapshot.run_readContract hstore hfaultless hs.faithful (some contract) hcontract
  have hlogged : w.snapshot.effects = s.snapshot.effects := hquiet.effects
  have hview : w.snapshot.cache.view contents = s.shown contents := hquiet.view
  have hwritten : ∀ key value, ⟨key, .write value⟩ ∈ w.snapshot.effects →
      WireWrite.size key ≤ Wire.maxBufferSize := by
    rw [hlogged]
    exact hsize
  obtain ⟨keys, w', hprune, heffects, hascending, hmem, hgone⟩ :=
    Snapshot.run_prune_pruneStorage hstore hfaultless (hquiet.advances.coherent hs) hwritten hash
  rw [hlogged] at heffects
  rw [hview] at hmem hgone
  have hrun : (destroy hash).run s = (.ok (), s.onWorkspace w') := by
    rw [run_destroy hash htrigger, hread]
    dsimp only
    rw [hstorage, hprune]
    rfl
  have hwithin : s.Within steady contents (fun _ => True) ((destroy hash).run s).2 :=
    destroy_within hstore hs.faithful (fun _ => trivial) fun _ _ _ => trivial
  rw [hrun] at hwithin
  exact ⟨keys, s.onWorkspace w', hrun, rfl, hwithin.coherent hs, heffects, hascending, hmem, hgone⟩

theorem destroy_absent {steady : σ → Prop} {contents : StateKey → Option StoredValue}
    (hstore : Serves steady contents) (hfaultless : Faultless steady)
    (hs : s.workspace.Coherent steady contents) (htrigger : s.service.trigger = .application)
    {hash : ScriptHash} (habsent : s.shown contents (.contract hash) = none) :
    ∃ s', (destroy hash).run s = (.ok (), s') ∧ s'.snapshot.effects = s.snapshot.effects := by
  obtain ⟨w, hread, hquiet⟩ :=
    Snapshot.run_readContract hstore hfaultless hs.faithful none habsent
  refine ⟨s.onWorkspace w, ?_, hquiet.effects⟩
  rw [run_destroy hash htrigger, hread]

end Call

namespace Session

variable {σ : Type} [StateReader σ]

/-- A contract with storage is there, in a session of an application that any operations have led
to; no key was written that is too large for a wire form. -/
structure Destructible (steady : σ → Prop) (s : Session σ) (hash : ScriptHash) : Prop where
  arises : s.Arises steady
  trigger : s.service.trigger = .application
  size_le : ∀ key value, ⟨key, .write value⟩ ∈ s.snapshot.effects →
    WireWrite.size key ≤ Wire.maxBufferSize
  contract : ∃ contract, ((Snapshot.get (.contract hash)).run s.workspace).1 =
    .ok (some (.contract contract)) ∧ contract.hasStorage = true

/-- What is left after a contract was destroyed: nothing of the contract and all the rest. The log
has gained a prune of the contract and one of each of its entries, in order, and to destroy it again
adds nothing. -/
structure Destroyed (s : Session σ) (hash : ScriptHash) (keys : List StorageKey) (s' : Session σ) :
    Prop where
  gone : ∀ key, key.owner? = some hash → ((Snapshot.get key).run s'.workspace).1 = .ok none ∧
    ((Snapshot.read key).run s'.workspace).1 = .ok none
  others : ∀ key, key.owner? ≠ some hash →
    ((Snapshot.get key).run s'.workspace).1 = ((Snapshot.get key).run s.workspace).1 ∧
    ((Snapshot.read key).run s'.workspace).1 = ((Snapshot.read key).run s.workspace).1
  unlisted : ((Snapshot.storageKeys hash).run s'.workspace).1 = .ok []
  effects : s'.snapshot.effects = s.snapshot.effects ++
    ⟨.contract hash, .prune⟩ :: keys.map (fun key => ⟨.storage key, .prune⟩)
  ascending : (keys.map StateKey.storage).Pairwise fun a b => compare a b = .lt
  mem_keys : ∀ key, key ∈ keys ↔ key.scriptHash = hash ∧
    ∃ value, ((Snapshot.get (.storage key)).run s.workspace).1 = .ok (some value)
  again : ∃ s'', (Call.destroy hash).run s' = (.ok (), s'') ∧
    s''.snapshot.effects = s'.snapshot.effects
  staysGone : s'.StaysGone hash

end Session

namespace Call

open Session

variable {σ : Type} [StateReader σ] {steady : σ → Prop} {contents : StateKey → Option StoredValue}
  {s : Session σ} {hash : ScriptHash}

theorem destroy_destructible (hstore : Serves steady contents) (hfaultless : Faultless steady)
    (hs : s.Destructible steady hash) :
    ∃ keys s', (destroy hash).run s = (.ok (), s') ∧ s.Destroyed hash keys s' ∧
      s'.workspace.Coherent steady contents ∧
      ∀ key, s'.shown contents key =
        if key.owner? = some hash then none else s.shown contents key := by
  have hcoherent : s.workspace.Coherent steady contents := hs.arises.coherent hstore
  have hget : ∀ t : Session σ, t.workspace.Coherent steady contents → ∀ key,
      ((Snapshot.get key).run t.workspace).1 = .ok (t.shown contents key) :=
    fun t ht key => Snapshot.fst_run_get hstore hfaultless ht.faithful key
  obtain ⟨contract, hfound, hstorage⟩ := hs.contract
  rw [hget s hcoherent] at hfound
  obtain ⟨keys, s', hrun, hservice, hcoherent', heffects, hascending, hmem, hshown⟩ :=
    destroy_shown hstore hfaultless hcoherent hs.trigger hs.size_le (Except.ok.inj hfound) hstorage
  have hgone : ∀ key, key.owner? = some hash → s'.shown contents key = none := by
    intro key hkey
    rw [hshown, if_pos hkey]
  refine ⟨keys, s', hrun, ⟨?_, ?_, ?_, heffects, hascending, ?_, ?_, ?_⟩, hcoherent', hshown⟩
  · intro key hkey
    rw [Snapshot.fst_run_read, hget s' hcoherent', hgone key hkey]
    exact ⟨rfl, rfl⟩
  · intro key hkey
    rw [Snapshot.fst_run_read, Snapshot.fst_run_read, hget s' hcoherent', hget s hcoherent, hshown,
      if_neg hkey]
    exact ⟨rfl, rfl⟩
  · have hwritten : ∀ key ∈ s'.snapshot.cache.writes.map Prod.fst,
        WireWrite.size key ≤ Wire.maxBufferSize := by
      apply hcoherent'.tracked.size_le
      intro key value hwrite
      change ⟨key, .write value⟩ ∈ s'.snapshot.effects at hwrite
      rw [heffects] at hwrite
      exact hs.size_le key value (by simpa using hwrite)
    obtain ⟨listed, w', hlisted⟩ :=
      Snapshot.storageKeys_total hfaultless hcoherent'.faithful.steady hwritten hash
    have hnone : listed = [] := by
      refine List.eq_nil_iff_forall_not_mem.mpr fun key hkey => ?_
      obtain ⟨hvisible, hkey⟩ := (Snapshot.mem_storageKeys hstore hcoherent' hlisted key).mp hkey
      exact Option.isSome_iff_ne_none.mp hvisible (hgone (.storage key) (congrArg some hkey))
    rw [hlisted, hnone]
  · intro key
    rw [hmem, hget s hcoherent, Option.isSome_iff_exists]
    simp [and_comm]
  · exact destroy_absent hstore hfaultless hcoherent' (hservice ▸ hs.trigger) (hgone _ rfl)
  · exact staysGone_of_absent hstore hfaultless hcoherent' hgone

end Call

/-- A store to which a session was committed after it destroyed a contract: what the session showed
before, without the contract and its entries. -/
structure Session.Removed (s : Session MemoryStore) (hash : ScriptHash)
    (committed : Session MemoryStore) : Prop where
  kept : ∀ key, key.owner? ≠ some hash →
    ((Snapshot.get key).run s.workspace).1 = .ok (committed.store.get? key)
  removed : ∀ key, key.owner? = some hash → committed.store.get? key = none
  staysGone : committed.StaysGone hash

namespace Call

open Session

theorem commit_destroyed {s : Session MemoryStore} {hash : ScriptHash}
    (hsize : ∀ key, (s.store.get? key).isSome → WireWrite.size key ≤ Wire.maxBufferSize)
    (hs : s.Destructible (· = s.store) hash) :
    ∃ s' committed, (destroy hash).run s = (.ok (), s') ∧
      commit.run s' = (.ok (), committed) ∧ s.Removed hash committed := by
  have hstore := s.store.serves
  have hcoherent := hs.arises.coherent hstore
  obtain ⟨keys, s', hrun, -, hcoherent', hshown⟩ :=
    destroy_destructible hstore (MemoryStore.faultless hsize) hs
  obtain ⟨committed, hcommit, happlied, hempty, harises⟩ := run_commit_memory s'
  have hsame : s'.store = s.store := hcoherent'.faithful.steady
  have hleft : ∀ key, committed.store.get? key =
      if key.owner? = some hash then none else s.shown s.store.get? key := by
    intro key
    rw [happlied, hsame, MemoryStore.get?_applyAll, ← shown_eq_overlay hcoherent', hshown]
  have hremoved : ∀ key, key.owner? = some hash → committed.store.get? key = none := by
    intro key hkey
    rw [hleft, if_pos hkey]
  refine ⟨s', committed, hrun, hcommit, fun key hkey => ?_, hremoved, ?_⟩
  · rw [hleft, if_neg hkey]
    exact Snapshot.fst_run_get hstore (MemoryStore.faultless hsize) hcoherent.faithful key
  · have hfits : ∀ key, (committed.store.get? key).isSome →
        WireWrite.size key ≤ Wire.maxBufferSize := by
      intro key hkey
      rw [hleft] at hkey
      split at hkey
      · cases hkey
      · rw [shown_eq_overlay hcoherent] at hkey
        rcases Effects.isSome_of_overlay hkey with hbelow | ⟨value, hwrite⟩
        · exact hsize key hbelow
        · exact hs.size_le key value (List.mem_filter.mp hwrite).1
    have hfresh := harises.coherent committed.store.serves
    refine staysGone_of_absent committed.store.serves (MemoryStore.faultless hfits) hfresh
      fun key hkey => ?_
    rw [shown_eq_overlay hfresh, hempty]
    exact hremoved key hkey

/-- To destroy a contract with storage succeeds and removes the contract, every entry that its
storage shows and nothing else, wherever the entries come from: over any store that answers, and in
the store itself once the session is committed. -/
theorem destroy_removes :
    (∀ {σ : Type} [StateReader σ] {steady : σ → Prop} {contents : StateKey → Option StoredValue},
      Serves steady contents → Faultless steady →
      ∀ (s : Session σ) (hash : ScriptHash), s.Destructible steady hash →
        ∃ keys s', (destroy hash).run s = (.ok (), s') ∧ s.Destroyed hash keys s') ∧
    ∀ (s : Session MemoryStore) (hash : ScriptHash),
      (∀ key, (s.store.get? key).isSome → WireWrite.size key ≤ Wire.maxBufferSize) →
      s.Destructible (· = s.store) hash →
        ∃ s' committed, (destroy hash).run s = (.ok (), s') ∧
          commit.run s' = (.ok (), committed) ∧ s.Removed hash committed := by
  constructor
  · intro σ _ steady contents hstore hfaultless s hash hs
    obtain ⟨keys, s', hrun, hdestroyed, -⟩ := destroy_destructible hstore hfaultless hs
    exact ⟨keys, s', hrun, hdestroyed⟩
  · intro s hash hsize hs
    exact commit_destroyed hsize hs

/-- One entry of the contract is in the store and has been asked for, another one was only
written. -/
theorem destroy_removes_storing :
    let start := { Session.storing .application with
      store := MemoryStore.ofPairs [(.contract default, .contract ⟨[], true, false, false, ""⟩),
        (.storage ⟨default, [0]⟩, .storageItem ⟨[7]⟩)] }
    let s := start.afterOperations
      [.event (.call .storagePut), .ask (.readStorageItem ⟨default, [0]⟩)]
    ∃ keys s' committed, (destroy default).run s = (.ok (), s') ∧ s.Destroyed default keys s' ∧
      ⟨default, [0]⟩ ∈ keys ∧ ⟨default, [1]⟩ ∈ keys ∧
      commit.run s' = (.ok (), committed) ∧ s.Removed default committed := by
  intro start s
  have hsame : s.store = start.store := rfl
  have hsize : ∀ key, (s.store.get? key).isSome → WireWrite.size key ≤ Wire.maxBufferSize := by
    rw [hsame]
    intro key hkey
    have hmem : key ∈ start.store.entries := Std.TreeMap.mem_iff_isSome_getElem?.mpr hkey
    change key ∈ ((∅ : Std.TreeMap StateKey StoredValue).insert _ _).insert _ _ at hmem
    have hkey : .storage ⟨default, [0]⟩ = key ∨ .contract default = key := by simpa using hmem
    rcases hkey with rfl | rfl <;> decide
  have heffects : s.snapshot.effects =
      [⟨.storage ⟨default, [1]⟩, .write (.storageItem ⟨[2]⟩)⟩] := rfl
  have harises : s.Arises (· = s.store) := ⟨start, _, _, _, _, rfl, rfl, rfl⟩
  have hcoherent := harises.coherent s.store.serves
  have hget : ∀ key, ((Snapshot.get key).run s.workspace).1 =
      .ok (Effects.overlay start.store.get?
        [⟨.storage ⟨default, [1]⟩, .write (.storageItem ⟨[2]⟩)⟩] key) := by
    intro key
    rw [Snapshot.fst_run_get s.store.serves (MemoryStore.faultless hsize) hcoherent.faithful,
      hcoherent.tracked.view, ← heffects, hsame]
    rfl
  have hs : s.Destructible (· = s.store) default := by
    refine ⟨harises, rfl, fun key value hwrite => ?_, _, hget _, rfl⟩
    rw [heffects] at hwrite
    obtain ⟨rfl, -⟩ : key = .storage ⟨default, [1]⟩ ∧ value = .storageItem ⟨[2]⟩ := by
      simpa using hwrite
    decide
  obtain ⟨keys, s', hrun, hdestroyed⟩ :=
    destroy_removes.1 s.store.serves (MemoryStore.faultless hsize) s default hs
  obtain ⟨s'', committed, hrun', hcommit, hremoved⟩ := destroy_removes.2 s default hsize hs
  obtain rfl : s'' = s' := congrArg Prod.snd (hrun'.symm.trans hrun)
  exact ⟨keys, s'', committed, hrun, hdestroyed, (hdestroyed.mem_keys _).mpr ⟨rfl, _, hget _⟩,
    (hdestroyed.mem_keys _).mpr ⟨rfl, _, hget _⟩, hcommit, hremoved⟩

end Call

end ContractHost
