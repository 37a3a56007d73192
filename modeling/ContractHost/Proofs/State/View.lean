import ContractHost.Proofs.State.Serving
import ContractHost.Proofs.TwoRuns
import ContractHost.State.Lookup

/-!
# What a snapshot shows

A key shows the value written last, nothing once it is pruned, and what the store has otherwise.
Reading shows this whatever is cached, and changes nothing but which values read are kept.
-/

namespace ContractHost

namespace Cache

theorem mem_of_find? {pairs : List (StateKey × StoredValue)} {key : StateKey}
    {value : StoredValue} (h : find? pairs key = some value) : (key, value) ∈ pairs := by
  obtain ⟨e, he, rfl⟩ := Option.map_eq_some_iff.mp h
  have hkey : e.1 = key := by simpa using List.find?_some he
  exact hkey ▸ List.mem_of_find?_eq_some he

theorem find?_isSome_iff {pairs : List (StateKey × StoredValue)} {key : StateKey} :
    (find? pairs key).isSome ↔ key ∈ pairs.map Prod.fst := by
  simp [find?]

theorem mem_without {pairs : List (StateKey × StoredValue)} {key : StateKey}
    {e : StateKey × StoredValue} : e ∈ without pairs key ↔ e ∈ pairs ∧ e.1 ≠ key := by
  simp [without]

theorem find?_cons (pairs : List (StateKey × StoredValue)) (key : StateKey) (value : StoredValue)
    (other : StateKey) :
    find? ((key, value) :: pairs) other = if key = other then some value else find? pairs other := by
  by_cases h : key = other <;> simp [find?, h]

theorem find?_without (pairs : List (StateKey × StoredValue)) (key other : StateKey) :
    find? (without pairs key) other = if key = other then none else find? pairs other := by
  rw [find?, without, List.find?_filter]
  split
  next h =>
    subst h
    simp
  next h =>
    congr 2
    funext e
    by_cases he : e.1 = other
    · simp [he, Ne.symm h]
    · simp [he]

/-- What a key shows over the contents of a store. -/
def view (contents : StateKey → Option StoredValue) (c : Cache) (key : StateKey) :
    Option StoredValue :=
  if c.isPruned key then none else (find? c.writes key).or (contents key)

/-- The values kept from reading are those of the contents. -/
def Current (contents : StateKey → Option StoredValue) (c : Cache) : Prop :=
  ∀ e ∈ c.reads, contents e.1 = some e.2

/-- Caches that differ in nothing but the values kept from reading. -/
def SameChanges (c c' : Cache) : Prop :=
  ∃ weight reads, c' = { c with weight := weight, reads := reads }

variable {contents : StateKey → Option StoredValue} {c c' : Cache}

theorem SameChanges.refl (c : Cache) : c.SameChanges c := ⟨_, _, rfl⟩

theorem SameChanges.trans {a b c : Cache} (hab : a.SameChanges b) (hbc : b.SameChanges c) :
    a.SameChanges c := by
  obtain ⟨weight, reads, rfl⟩ := hab
  obtain ⟨weight', reads', rfl⟩ := hbc
  exact ⟨weight', reads', rfl⟩

theorem SameChanges.isPruned (h : c.SameChanges c') (key : StateKey) :
    c'.isPruned key = c.isPruned key := by
  obtain ⟨weight, reads, rfl⟩ := h
  rfl

theorem SameChanges.view (h : c.SameChanges c') : c'.view contents = c.view contents := by
  obtain ⟨weight, reads, rfl⟩ := h
  rfl

private theorem evict_suffix (limit : UInt64) (weigh : StateKey → StoredValue → UInt64) (weight : UInt64)
    (pairs : List (StateKey × StoredValue)) : (evict limit weigh weight pairs).2 <:+ pairs := by
  induction pairs generalizing weight with
  | nil => exact List.suffix_refl _
  | cons e pairs ih =>
    rw [evict]
    split
    · exact (ih _).trans (List.suffix_cons e pairs)
    · exact List.suffix_refl _

def Distinct (c : Cache) : Prop := (c.reads.map Prod.fst).Nodup

theorem nodup_moveLast {pairs : List (StateKey × StoredValue)}
    (h : (pairs.map Prod.fst).Nodup) (key : StateKey) (value : StoredValue) :
    ((without pairs key ++ [(key, value)]).map Prod.fst).Nodup := by
  rw [List.map_append, List.nodup_append]
  refine ⟨h.sublist ((List.filter_sublist).map _), List.nodup_singleton _, ?_⟩
  rintro k hk k' hk' rfl
  obtain ⟨e, he, rfl⟩ := List.mem_map.mp hk
  exact (mem_without.mp he).2 (List.mem_singleton.mp hk')

theorem reads_insertRead_suffix (c : Cache) (key : StateKey) (value : StoredValue) :
    (c.insertRead key value).reads <:+ without c.reads key ++ [(key, value)] :=
  evict_suffix _ _ _ _

theorem sameChanges_insertRead (c : Cache) (key : StateKey) (value : StoredValue) :
    c.SameChanges (c.insertRead key value) := ⟨_, _, rfl⟩

theorem mem_reads_of_insertRead {key : StateKey} {value : StoredValue}
    {e : StateKey × StoredValue} (he : e ∈ (c.insertRead key value).reads) :
    e ∈ c.reads ∨ e = (key, value) := by
  rcases List.mem_append.mp ((reads_insertRead_suffix c key value).subset he) with hkept | hnew
  · exact .inl (mem_without.mp hkept).1
  · exact .inr (List.mem_singleton.mp hnew)

theorem Current.insertRead (h : c.Current contents) {key : StateKey} {value : StoredValue}
    (hvalue : contents key = some value) : (c.insertRead key value).Current contents := by
  intro e he
  rcases mem_reads_of_insertRead he with hkept | rfl
  · exact h e hkept
  · exact hvalue

theorem Distinct.insertRead (h : c.Distinct) (key : StateKey) (value : StoredValue) :
    (c.insertRead key value).Distinct :=
  (nodup_moveLast h key value).sublist (((reads_insertRead_suffix c key value).sublist).map _)

theorem sameChanges_get (c : Cache) (key : StateKey) : c.SameChanges (c.get key).2 := by
  unfold get
  repeat' split
  all_goals exact ⟨_, _, rfl⟩

theorem mem_reads_of_get {key : StateKey} {e : StateKey × StoredValue}
    (he : e ∈ (c.get key).2.reads) : e ∈ c.reads := by
  unfold Cache.get at he
  repeat' split at he
  any_goals exact he
  next value hfound =>
    rcases List.mem_append.mp he with hkept | hused
    · exact (mem_without.mp hkept).1
    · rw [List.mem_singleton.mp hused]
      exact mem_of_find? hfound

theorem Distinct.get (h : c.Distinct) (key : StateKey) : (c.get key).2.Distinct := by
  unfold Cache.get
  repeat' split
  any_goals exact h
  next value _ => exact nodup_moveLast h key value

theorem Distinct.find?_reads (h : c.Distinct) {key : StateKey} {value : StoredValue}
    (hmem : (key, value) ∈ c.reads) : find? c.reads key = some value := by
  obtain ⟨found, hfound⟩ := Option.isSome_iff_exists.mp
    (find?_isSome_iff.mpr (List.mem_map.mpr ⟨_, hmem, rfl⟩))
  have hsame := List.inj_on_of_nodup_map h (mem_of_find? hfound) hmem rfl
  cases hsame
  exact hfound

theorem Current.get (h : c.Current contents) (key : StateKey) :
    (c.get key).2.Current contents :=
  fun e he => h e (mem_reads_of_get he)

theorem fst_get (c : Cache) (key : StateKey) :
    (c.get key).1 =
      if c.isPruned key then none else (find? c.writes key).or (find? c.reads key) := by
  unfold Cache.get
  by_cases hpruned : c.isPruned key
  · simp [hpruned]
  · cases hwritten : find? c.writes key with
    | some value => simp [hpruned]
    | none => cases hread : find? c.reads key <;> simp [hpruned]

theorem view_of_get_some (h : c.Current contents) {key : StateKey} {value : StoredValue}
    (hget : (c.get key).1 = some value) : c.view contents key = some value := by
  rw [fst_get] at hget
  rw [Cache.view]
  by_cases hpruned : c.isPruned key
  · simp [hpruned] at hget
  · cases hwritten : find? c.writes key with
    | some found => simpa [hpruned, hwritten] using hget
    | none =>
      have hread : find? c.reads key = some value := by simpa [hpruned, hwritten] using hget
      simpa [hpruned] using h _ (mem_of_find? hread)

theorem find?_writes_of_get_none {key : StateKey} (hpruned : c.isPruned key = false)
    (hget : (c.get key).1 = none) : find? c.writes key = none := by
  rw [fst_get] at hget
  simp only [hpruned, if_false, Option.or_eq_none_iff, Bool.false_eq_true] at hget
  exact hget.1

theorem view_of_get_none {key : StateKey} (hget : (c.get key).1 = none) :
    c.view contents key = if c.isPruned key then none else contents key := by
  rw [Cache.view]
  cases hpruned : c.isPruned key with
  | true => rfl
  | false => rw [find?_writes_of_get_none hpruned hget, Option.none_or]

end Cache

section

variable {σ : Type} (steady : σ → Prop) (contents : StateKey → Option StoredValue)

/-- The store is steady, and the values kept from reading are those it has. -/
structure Workspace.Faithful (w : Workspace σ) : Prop where
  steady : steady w.store
  current : w.snapshot.cache.Current contents

/-- Nothing has changed but which values read are kept. -/
structure Workspace.Quiet (w w' : Workspace σ) : Prop where
  snapshot : ∃ cache, w.snapshot.cache.SameChanges cache ∧
    w'.snapshot = { w.snapshot with cache := cache }
  faithful : w.Faithful steady contents → w'.Faithful steady contents

instance : IsPreorder (Workspace σ) (Workspace.Quiet steady contents) where
  refl w := ⟨⟨w.snapshot.cache, .refl _, rfl⟩, id⟩
  trans a b c hab hbc := by
    obtain ⟨cache, hsame, hb⟩ := hab.snapshot
    obtain ⟨cache', hsame', hc⟩ := hbc.snapshot
    rw [hb] at hsame' hc
    exact ⟨⟨cache', hsame.trans hsame', hc⟩, hbc.faithful ∘ hab.faithful⟩

end

namespace Snapshot

variable {σ : Type} {steady : σ → Prop} {contents : StateKey → Option StoredValue}

theorem run_onStore {α : Type} (operation : σ → Except StoreError α × σ) (w : Workspace σ) :
    (onStore operation).run w =
      ((operation w.store).1.mapError .storage, { w with store := (operation w.store).2 }) := by
  rw [onStore, run_bind, run_modifyGet]
  rcases operation w.store with ⟨e | a, store⟩ <;> rfl

theorem onStore_quiet {α : Type} {operation : σ → Except StoreError α × σ}
    (h : ∀ store, steady store → steady (operation store).2) :
    Moves (Workspace.Quiet steady contents) (onStore operation) := by
  intro w
  rw [run_onStore]
  exact ⟨⟨_, .refl _, rfl⟩, fun hw => ⟨h _ hw.steady, hw.current⟩⟩

variable [StateReader σ]

theorem run_get (key : StateKey) (w : Workspace σ) :
    (get key).run w =
      match w.snapshot.cache.get key with
      | (some value, cache) => (.ok (some value), { w with snapshot := { w.snapshot with cache } })
      | (none, cache) =>
        if cache.isPruned key then (.ok none, { w with snapshot := { w.snapshot with cache } })
        else
          match StateReader.read key w.store with
          | (.error e, store) =>
            (.error (.storage e), ⟨{ w.snapshot with cache }, store⟩)
          | (.ok none, store) => (.ok none, ⟨{ w.snapshot with cache }, store⟩)
          | (.ok (some value), store) =>
            (.ok (some value),
              ⟨{ w.snapshot with cache := cache.insertRead key value }, store⟩) := by
  have hlook : (lookUp key).run w = (.ok (w.snapshot.cache.get key).1,
      { w with snapshot := { w.snapshot with cache := (w.snapshot.cache.get key).2 } }) := rfl
  rw [get, run_bind, hlook]
  rcases w.snapshot.cache.get key with ⟨_ | value, cache⟩
  · dsimp only
    rw [run_bind]
    change (if cache.isPruned key then pure none else _ : SnapshotM σ _).run _ = _
    split
    · rfl
    · rw [run_bind, run_onStore]
      rcases StateReader.read key w.store with ⟨e | _ | value, store⟩ <;> rfl
  · rfl

theorem get_quiet (hstore : Serves steady contents) (key : StateKey) :
    Moves (Workspace.Quiet steady contents) (get key) := by
  intro w
  rw [run_get]
  have hsame := w.snapshot.cache.sameChanges_get key
  have hcurrent := fun hw : w.Faithful steady contents => hw.current.get key
  cases hget : w.snapshot.cache.get key with
  | mk found cache =>
    rw [hget] at hsame hcurrent
    cases found with
    | some value => exact ⟨⟨cache, hsame, rfl⟩, fun hw => ⟨hw.steady, hcurrent hw⟩⟩
    | none =>
      dsimp only
      split
      · exact ⟨⟨cache, hsame, rfl⟩, fun hw => ⟨hw.steady, hcurrent hw⟩⟩
      · have hstays := hstore.stays_read w.store key
        have hread := hstore.read w.store key
        cases hresult : StateReader.read key w.store with
        | mk result store =>
          rw [hresult] at hstays hread
          rcases result with e | _ | value
          · exact ⟨⟨cache, hsame, rfl⟩, fun hw => ⟨hstays hw.steady, hcurrent hw⟩⟩
          · exact ⟨⟨cache, hsame, rfl⟩, fun hw => ⟨hstays hw.steady, hcurrent hw⟩⟩
          · have hinsert := cache.sameChanges_insertRead key value
            refine ⟨⟨_, hsame.trans hinsert, rfl⟩, fun hw => ⟨hstays hw.steady, ?_⟩⟩
            exact (hcurrent hw).insertRead (hread (some value) hw.steady rfl).symm

/-- What reading finds is what the snapshot shows. -/
theorem get_shows (hstore : Serves steady contents) {w : Workspace σ}
    (hw : w.Faithful steady contents) {key : StateKey} {found : Option StoredValue}
    (h : ((get key).run w).1 = .ok found) : found = w.snapshot.cache.view contents key := by
  rw [run_get] at h
  have hpruned := (w.snapshot.cache.sameChanges_get key).isPruned key
  cases hget : w.snapshot.cache.get key with
  | mk kept cache =>
    rw [hget] at h hpruned
    cases kept with
    | some value =>
      cases h
      exact (Cache.view_of_get_some hw.current (by rw [hget])).symm
    | none =>
      rw [Cache.view_of_get_none (by rw [hget]), ← hpruned]
      dsimp only at h
      split at h
      next hp =>
        cases h
        rw [if_pos hp]
      next hp =>
        rw [if_neg hp]
        have hread := hstore.read w.store key
        cases hresult : StateReader.read key w.store with
        | mk result store =>
          rw [hresult] at h hread
          rcases result with e | _ | value
          · cases h
          · cases h
            exact hread none hw.steady rfl
          · cases h
            exact hread (some value) hw.steady rfl

theorem get_total {w : Workspace σ} {key : StateKey} {stored : Option StoredValue}
    (h : (StateReader.read key w.store).1 = .ok stored) :
    ∃ found, ((get key).run w).1 = .ok found := by
  rw [run_get]
  rcases w.snapshot.cache.get key with ⟨_ | value, cache⟩
  · dsimp only
    split
    · exact ⟨_, rfl⟩
    · rcases hresult : StateReader.read key w.store with ⟨e | _ | value, store⟩
      · rw [hresult] at h
        cases h
      · exact ⟨_, rfl⟩
      · exact ⟨_, rfl⟩
  · exact ⟨_, rfl⟩

theorem fst_run_get (hstore : Serves steady contents) (hfaultless : Faultless steady)
    {w : Workspace σ} (hw : w.Faithful steady contents) (key : StateKey) :
    ((get key).run w).1 = .ok (w.snapshot.cache.view contents key) := by
  obtain ⟨stored, hstored⟩ := hfaultless.read w.store key hw.steady
  obtain ⟨found, hfound⟩ := get_total hstored
  rw [hfound, get_shows hstore hw hfound]

theorem run_getAs_found {α : Type} {convert : StoredValue → Except TypeMismatch α} {key : StateKey}
    {value : StoredValue} {a : α} {w w' : Workspace σ}
    (h : (get key).run w = (.ok (some value), w')) (hvalue : convert value = .ok a) :
    (getAs convert key).run w = (.ok (some a), w') := by
  rw [getAs, run_bind_ok h]
  dsimp only
  rw [hvalue]
  rfl

theorem run_getAs_missing {α : Type} (convert : StoredValue → Except TypeMismatch α)
    {key : StateKey} {w w' : Workspace σ} (h : (get key).run w = (.ok none, w')) :
    (getAs convert key).run w = (.ok none, w') := by
  rw [getAs, run_bind_ok h]
  rfl

theorem getAs_moves {R : Workspace σ → Workspace σ → Prop} [IsPreorder (Workspace σ) R] {α : Type}
    {key : StateKey} (h : Moves R (get key : SnapshotM σ _))
    (convert : StoredValue → Except TypeMismatch α) :
    Moves R (getAs convert key : SnapshotM σ _) := by
  refine h.bind fun found => ?_
  cases found with
  | none => exact .pure _
  | some value =>
    dsimp only
    split
    · exact .pure _
    · exact .throw _

theorem readBlock_moves {R : Workspace σ → Workspace σ → Prop} [IsPreorder (Workspace σ) R]
    {hash : BlockHash} (h : Moves R (get (.block hash) : SnapshotM σ _)) :
    Moves R (readBlock hash : SnapshotM σ _) := by
  refine h.bind fun found => ?_
  split
  · exact .pure _
  · exact .pure _
  · exact .pure _
  · exact .throw _

theorem matches_getAs {τ : Type} [StateReader τ] {R : Workspace σ → Workspace τ → Prop} {α : Type}
    {key : StateKey} (h : Matches R (get key : SnapshotM σ _) (get key : SnapshotM τ _))
    (convert : StoredValue → Except TypeMismatch α) :
    Matches R (getAs convert key : SnapshotM σ _) (getAs convert key : SnapshotM τ _) := by
  refine h.bind fun found => ?_
  cases found with
  | none => exact .pure _
  | some value =>
    dsimp only
    split
    · exact .pure _
    · exact .throw _

theorem matches_readBlock {τ : Type} [StateReader τ] {R : Workspace σ → Workspace τ → Prop}
    {hash : BlockHash}
    (h : Matches R (get (.block hash) : SnapshotM σ _) (get (.block hash) : SnapshotM τ _)) :
    Matches R (readBlock hash : SnapshotM σ _) (readBlock hash : SnapshotM τ _) := by
  refine h.bind fun found => ?_
  split
  · exact .pure _
  · exact .pure _
  · exact .pure _
  · exact .throw _

theorem keysUnder_quiet (hstore : Serves steady contents) (stem : Bytes) :
    Moves (Workspace.Quiet steady contents) (keysUnder stem) := by
  refine (onStore_quiet fun store => hstore.stays_keysUnder store stem).bind fun stored =>
    Moves.get.bind fun w => ?_
  dsimp only
  split
  · exact .throw _
  · exact .pure _

theorem getAs_quiet (hstore : Serves steady contents) {α : Type}
    (convert : StoredValue → Except TypeMismatch α) (key : StateKey) :
    Moves (Workspace.Quiet steady contents) (getAs convert key) :=
  getAs_moves (get_quiet hstore key) convert

theorem storageKeys_quiet (hstore : Serves steady contents) (hash : ScriptHash) :
    Moves (Workspace.Quiet steady contents) (storageKeys hash) :=
  (keysUnder_quiet hstore _).bind fun _ => .pure _

theorem readBlock_quiet (hstore : Serves steady contents) (hash : BlockHash) :
    Moves (Workspace.Quiet steady contents) (readBlock hash) :=
  readBlock_moves (get_quiet hstore _)

theorem readTipHeader_quiet (hstore : Serves steady contents) :
    Moves (Workspace.Quiet steady contents) (readTipHeader : SnapshotM σ _) := by
  refine (getAs_quiet hstore _ _).bind fun found => ?_
  cases found with
  | some tip => exact getAs_quiet hstore _ _
  | none => exact .pure _

end Snapshot

end ContractHost
