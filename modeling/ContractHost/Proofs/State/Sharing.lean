import Mathlib.Logic.Function.Basic
import ContractHost.Proofs.State.Committing

/-!
# Snapshots that share a store

Any number of snapshots take turns on one store in memory. However their steps interleave, the
store has what it had at first with the committed logs applied in the order of the commits: a commit
hands over the writes and prunes that were asked of its snapshot since the commit before, and
nothing that was only read.
-/

namespace ContractHost

namespace Effects

theorem changes_append (effects more : Effects) :
    changes (effects ++ more) = effects.changes ++ more.changes :=
  List.filter_append ..

theorem lastChange?_flatten {before later : List Effects} {log : Effects} {key : StateKey}
    {change : Change} (hchange : log.lastChange? key = some change)
    (hlater : ∀ log' ∈ later, log'.lastChange? key = none) :
    lastChange? (before ++ log :: later).flatten key = some change := by
  have hnone : lastChange? later.flatten key = none := by
    rw [lastChange?_eq_none_iff]
    intro t ht
    obtain ⟨hmem, hne⟩ := List.mem_filter.mp ht
    obtain ⟨log', hlog', ht'⟩ := List.mem_flatten.mp hmem
    exact lastChange?_eq_none_iff.mp (hlater log' hlog') t (List.mem_filter.mpr ⟨ht', hne⟩)
  rw [List.flatten_append, List.flatten_cons, lastChange?_append, lastChange?_append, hnone,
    hchange]
  rfl

theorem overlay_of_ne_none {contents contents' : StateKey → Option StoredValue}
    {effects : Effects} {key : StateKey} (h : effects.lastChange? key ≠ none) :
    effects.overlay contents key = effects.overlay contents' key := by
  rw [overlay, overlay]
  cases hlast : effects.lastChange? key with
  | none => exact absurd hlast h
  | some change =>
    cases change with
    | identity => exact absurd hlast (lastChange?_ne_identity effects key)
    | write value => rfl
    | prune => rfl

theorem overlay_comm {effects effects' : Effects}
    (h : ∀ key, effects.lastChange? key = none ∨ effects'.lastChange? key = none)
    (contents : StateKey → Option StoredValue) :
    effects'.overlay (effects.overlay contents) = effects.overlay (effects'.overlay contents) := by
  funext key
  by_cases hkey : effects.lastChange? key = none
  · rw [overlay_of_eq_none hkey]
    by_cases hkey' : effects'.lastChange? key = none
    · rw [overlay_of_eq_none hkey', overlay_of_eq_none hkey', overlay_of_eq_none hkey]
    · exact overlay_of_ne_none hkey'
  · have hkey' := (h key).resolve_left hkey
    rw [overlay_of_eq_none hkey']
    exact overlay_of_ne_none hkey

end Effects

/-! ## Steps on a store that stays -/

section

variable {σ : Type} [StateReader σ] {R : Workspace σ → Workspace σ → Prop}
  [IsPreorder (Workspace σ) R]

theorem SnapshotRequest.after_related (hget : ∀ key, Moves R (Snapshot.get key))
    (hkeys : ∀ stem, Moves R (Snapshot.keysUnder stem))
    (hlog : ∀ key, Moves R (Snapshot.log key .identity))
    (hwrite : ∀ key value, Moves R (Snapshot.write key value))
    (hprune : ∀ key, Moves R (Snapshot.prune key)) (w : Workspace σ) (request : SnapshotRequest) :
    R w (request.after w) := by
  have hgetAs : ∀ {α : Type} (convert : StoredValue → Except TypeMismatch α) (key : StateKey),
      Moves R (Snapshot.getAs convert key) := by
    intro α convert key
    refine (hget key).bind fun found => ?_
    cases found with
    | none => exact .pure _
    | some value =>
      dsimp only
      split
      · exact .pure _
      · exact .throw _
  cases request with
  | get key => exact hget key w
  | read key =>
    refine Moves.bind (hget key) (fun found => ?_) w
    cases found with
    | none => exact .pure _
    | some value => exact (hlog key).bind fun _ => .pure _
  | write key value => exact hwrite key value w
  | prune key => exact hprune key w
  | keysUnder stem => exact hkeys stem w
  | readContract hash => exact hgetAs _ _ w
  | readStorageItem key => exact hgetAs _ _ w
  | storageKeys hash => exact (hkeys _).bind (fun _ => .pure _) w
  | readChainTip => exact hgetAs _ _ w
  | readBlockHashAtHeight height => exact hgetAs _ _ w
  | readHeader hash => exact hgetAs _ _ w
  | readBlock hash =>
    refine Moves.bind (hget _) (fun found => ?_) w
    split
    · exact .pure _
    · exact .pure _
    · exact .pure _
    · exact .throw _
  | readTipHeader =>
    refine Moves.bind (hgetAs _ _) (fun tip => ?_) w
    cases tip with
    | some tip => exact hgetAs _ _
    | none => exact .pure _
  | readTransaction hash => exact hgetAs _ _ w

end

namespace Workspace

/-- A store in memory is only read, and the values kept from reading were kept before or are what
it has now. -/
structure Refills (w w' : Workspace MemoryStore) : Prop where
  store : w'.store = w.store
  reads : ∀ e ∈ w'.snapshot.cache.reads,
    e ∈ w.snapshot.cache.reads ∨ w.store.get? e.1 = some e.2
  distinct : w.snapshot.cache.Distinct → w'.snapshot.cache.Distinct

instance : IsPreorder (Workspace MemoryStore) Workspace.Refills where
  refl _ := ⟨rfl, fun _ he => .inl he, id⟩
  trans _ _ _ hab hbc := by
    refine ⟨hbc.store.trans hab.store, fun e he => ?_, hbc.distinct ∘ hab.distinct⟩
    rcases hbc.reads e he with hkept | hread
    · exact hab.reads e hkept
    · exact .inr (hab.store ▸ hread)

theorem refills_of_reads_eq {w w' : Workspace MemoryStore} (hstore : w'.store = w.store)
    (hreads : w'.snapshot.cache.reads = w.snapshot.cache.reads) : w.Refills w' :=
  ⟨hstore, fun e he => .inl (hreads ▸ he), fun h => by rwa [Cache.Distinct, hreads]⟩

theorem refills_get (key : StateKey) : Moves Refills (Snapshot.get key) := by
  intro w
  rw [Snapshot.run_get]
  have hkept : ∀ e ∈ (w.snapshot.cache.get key).2.reads, e ∈ w.snapshot.cache.reads :=
    fun e he => Cache.mem_reads_of_get he
  have hdistinct := fun h : w.snapshot.cache.Distinct => h.get key
  rcases hget : w.snapshot.cache.get key with ⟨found, cache⟩
  rw [hget] at hkept hdistinct
  cases found with
  | some value => exact ⟨rfl, fun e he => .inl (hkept e he), hdistinct⟩
  | none =>
    dsimp only
    split
    · exact ⟨rfl, fun e he => .inl (hkept e he), hdistinct⟩
    · have hread : StateReader.read key w.store = (.ok (w.store.get? key), w.store) := rfl
      rw [hread]
      cases hfound : w.store.get? key with
      | none => exact ⟨rfl, fun e he => .inl (hkept e he), hdistinct⟩
      | some value =>
        refine ⟨rfl, fun e he => ?_, fun h => (hdistinct h).insertRead key value⟩
        rcases Cache.mem_reads_of_insertRead he with he | rfl
        · exact .inl (hkept e he)
        · exact .inr hfound

theorem refills_keysUnder (stem : Bytes) : Moves Refills (Snapshot.keysUnder stem) := by
  refine Moves.bind (fun w => ?_) fun stored => Moves.get.bind fun w => ?_
  · rw [Snapshot.run_onStore]
    exact refills_of_reads_eq rfl rfl
  · dsimp only
    split
    · exact .throw _
    · exact .pure _

theorem refills_request (w : Workspace MemoryStore) (request : SnapshotRequest) :
    w.Refills (request.after w) :=
  request.after_related refills_get refills_keysUnder (fun _ _ => refills_of_reads_eq rfl rfl)
    (fun _ _ _ => refills_of_reads_eq rfl rfl) (fun _ _ => refills_of_reads_eq rfl rfl) w

end Workspace

namespace Snapshot

theorem fst_run_get_memory {w : Workspace MemoryStore} (hw : w.snapshot.Tracked)
    (key : StateKey) :
    ((get key).run w).1 = .ok (w.snapshot.effects.overlay
      (fun key => (Cache.find? w.snapshot.cache.reads key).or (w.store.get? key)) key) := by
  rw [← hw.view, Cache.view, run_get]
  have hfound := w.snapshot.cache.fst_get key
  have hpruned := (w.snapshot.cache.sameChanges_get key).isPruned key
  rcases hget : w.snapshot.cache.get key with ⟨found, cache⟩
  rw [hget] at hfound hpruned
  dsimp only at hfound hpruned
  cases found with
  | some value =>
    by_cases hp : w.snapshot.cache.isPruned key
    · simp [hp] at hfound
    · simp only [hp, Bool.false_eq_true, if_false] at hfound ⊢
      rw [← Option.or_assoc, ← hfound]
      rfl
  | none =>
    dsimp only
    rw [hpruned]
    by_cases hp : w.snapshot.cache.isPruned key
    · simp [hp]
    · simp only [hp, Bool.false_eq_true, if_false] at hfound ⊢
      have hread : StateReader.read key w.store = (.ok (w.store.get? key), w.store) := rfl
      rw [hread, ← Option.or_assoc, ← hfound, Option.none_or]
      cases w.store.get? key <;> rfl

end Snapshot

/-! ## Many snapshots -/

/-- Snapshots that take turns on one store. -/
structure SharedWorkspace (ι : Type) where
  store : MemoryStore
  snapshots : ι → Snapshot

abbrev Turns (ι : Type) := List (ι × SnapshotAction)

namespace SharedWorkspace

variable {ι : Type}

def start (store : MemoryStore) (limit : ι → UInt64) (weigh : ι → StateKey → StoredValue → UInt64)
    (persisting : ι → Option Block) : SharedWorkspace ι :=
  ⟨store, fun i => ⟨.new (limit i) (weigh i), [], persisting i⟩⟩

def workspace (w : SharedWorkspace ι) (i : ι) : Workspace MemoryStore := ⟨w.snapshots i, w.store⟩

variable [DecidableEq ι]

def after (w : SharedWorkspace ι) (turn : ι × SnapshotAction) : SharedWorkspace ι :=
  let moved := turn.2.after (w.workspace turn.1)
  ⟨moved.store, Function.update w.snapshots turn.1 moved.snapshot⟩

def afterAll (w : SharedWorkspace ι) (turns : Turns ι) : SharedWorkspace ι := turns.foldl after w

/-- The logs that are committed, in the order of the commits. -/
def committed (w : SharedWorkspace ι) : Turns ι → List Effects
  | [] => []
  | (i, .ask request) :: turns => (w.after (i, .ask request)).committed turns
  | (i, .commit) :: turns => (w.snapshots i).effects :: (w.after (i, .commit)).committed turns

/-- The writes and prunes asked of a snapshot since its last commit, after those it had before. -/
def askedFrom (i : ι) (waiting : Effects) (turns : Turns ι) : Effects :=
  turns.foldl (fun waiting turn =>
    if turn.1 = i then
      match turn.2 with
      | .ask request => waiting ++ request.change?.toList
      | .commit => []
    else waiting) waiting

/-- The writes and prunes asked of a new snapshot since its last commit. -/
def asked (i : ι) (turns : Turns ι) : Effects := askedFrom i [] turns

section

variable {w : SharedWorkspace ι}

theorem store_ask (w : SharedWorkspace ι) (i : ι) (request : SnapshotRequest) :
    (w.after (i, .ask request)).store = w.store :=
  ((w.workspace i).refills_request request).store

theorem store_commit (w : SharedWorkspace ι) (i : ι) :
    (w.after (i, .commit)).store = w.store.applyAll (w.snapshots i).effects :=
  Snapshot.store_of_commit (w.workspace i)

theorem snapshots_after_self (w : SharedWorkspace ι) (i : ι) (action : SnapshotAction) :
    (w.after (i, action)).snapshots i = (action.after (w.workspace i)).snapshot :=
  Function.update_self ..

theorem snapshots_after_of_ne (w : SharedWorkspace ι) {i j : ι} (h : j ≠ i)
    (action : SnapshotAction) : (w.after (i, action)).snapshots j = w.snapshots j :=
  Function.update_of_ne h ..

theorem tracked_afterAll {i : ι} (hw : (w.snapshots i).Tracked) (turns : Turns ι) :
    ((w.afterAll turns).snapshots i).Tracked := by
  induction turns generalizing w with
  | nil => exact hw
  | cons turn turns ih =>
    obtain ⟨j, action⟩ := turn
    refine ih ?_
    by_cases hi : i = j
    · subst hi
      rw [snapshots_after_self]
      exact SnapshotAction.after_tracked hw action
    · rwa [snapshots_after_of_ne w hi]

theorem changes_after (w : SharedWorkspace ι) (turn : ι × SnapshotAction) (i : ι) :
    ((w.after turn).snapshots i).effects.changes =
      askedFrom i (w.snapshots i).effects.changes [turn] := by
  obtain ⟨j, action⟩ := turn
  change _ = if j = i then _ else _
  by_cases hi : j = i
  · subst hi
    rw [if_pos rfl, snapshots_after_self]
    cases action with
    | ask request => exact (request.after_advances .never (w.workspace j)).changes
    | commit => rfl
  · rw [if_neg hi, snapshots_after_of_ne w (Ne.symm hi)]

theorem changes_afterAll (w : SharedWorkspace ι) (turns : Turns ι) (i : ι) :
    ((w.afterAll turns).snapshots i).effects.changes =
      askedFrom i (w.snapshots i).effects.changes turns := by
  induction turns generalizing w with
  | nil => rfl
  | cons turn turns ih =>
    refine (ih (w.after turn)).trans ?_
    rw [changes_after]
    rfl

/-- The store changes by the logs committed, one after the other. -/
theorem store_afterAll (w : SharedWorkspace ι) (turns : Turns ι) :
    (w.afterAll turns).store = w.store.applyAll (w.committed turns).flatten := by
  induction turns generalizing w with
  | nil => rfl
  | cons turn turns ih =>
    obtain ⟨i, request | -⟩ := turn
    · refine (ih (w.after (i, .ask request))).trans ?_
      rw [store_ask]
      rfl
    · refine (ih (w.after (i, .commit))).trans ?_
      rw [store_commit, ← MemoryStore.applyAll_append]
      rfl

theorem changes_committed {w w' : SharedWorkspace ι}
    (h : ∀ i, (w.snapshots i).effects.changes = (w'.snapshots i).effects.changes)
    (turns : Turns ι) :
    Effects.changes (w.committed turns).flatten = Effects.changes (w'.committed turns).flatten := by
  induction turns generalizing w w' with
  | nil => rfl
  | cons turn turns ih =>
    have hnext : ∀ i, ((w.after turn).snapshots i).effects.changes =
        ((w'.after turn).snapshots i).effects.changes := by
      intro i
      rw [changes_after, changes_after, h]
    obtain ⟨i, request | -⟩ := turn
    · exact ih hnext
    · rw [committed, committed, List.flatten_cons, List.flatten_cons, Effects.changes_append,
        Effects.changes_append, h, ih hnext]

theorem get?_store_congr {w w' : SharedWorkspace ι} (hstore : w.store.get? = w'.store.get?)
    (h : ∀ i, (w.snapshots i).effects.changes = (w'.snapshots i).effects.changes)
    (turns : Turns ι) :
    (w.afterAll turns).store.get? = (w'.afterAll turns).store.get? := by
  rw [store_afterAll, store_afterAll, MemoryStore.get?_applyAll, MemoryStore.get?_applyAll, hstore,
    ← Effects.overlay_changes, changes_committed h, Effects.overlay_changes]

/-- Two commits that change different keys may be swapped, whatever follows. -/
theorem get?_commit_comm {i j : ι}
    (h : ∀ key, (w.snapshots i).effects.lastChange? key = none ∨
      (w.snapshots j).effects.lastChange? key = none) (turns : Turns ι) :
    (w.afterAll ((i, .commit) :: (j, .commit) :: turns)).store.get? =
      (w.afterAll ((j, .commit) :: (i, .commit) :: turns)).store.get? := by
  by_cases hij : i = j
  · rw [hij]
  have hstore : ((w.after (i, .commit)).after (j, .commit)).store.get? =
      ((w.after (j, .commit)).after (i, .commit)).store.get? := by
    simp only [store_commit, snapshots_after_of_ne w hij, snapshots_after_of_ne w (Ne.symm hij),
      MemoryStore.get?_applyAll]
    exact Effects.overlay_comm h _
  refine get?_store_congr hstore (fun k => ?_) turns
  have hcleared : ∀ (w : SharedWorkspace ι) (l : ι), l = k →
      ((w.after (l, .commit)).snapshots k).effects.changes = [] := by
    rintro w l rfl
    rw [snapshots_after_self]
    rfl
  by_cases hi : k = i
  · subst hi
    rw [snapshots_after_of_ne _ hij, hcleared _ k rfl, hcleared _ k rfl]
  · by_cases hj : k = j
    · subst hj
      rw [hcleared _ k rfl, snapshots_after_of_ne _ hi, hcleared _ k rfl]
    · rw [snapshots_after_of_ne _ hj, snapshots_after_of_ne _ hi, snapshots_after_of_ne _ hi,
        snapshots_after_of_ne _ hj]

end

end SharedWorkspace

open SharedWorkspace in
/-- However the steps of any number of snapshots over one store interleave, the store has what it
had at first with the writes and prunes of the committed logs applied in the order of the commits,
and each log has the writes and prunes asked of its snapshot since its last commit. So a commit
leaves alone what its snapshot only read; the last committed log that changes a key decides on it;
two commits in a row that change different keys may be swapped, whatever follows; and a snapshot
finds its own changes whatever the others commit. -/
theorem SharedWorkspace.store_of_commits {ι : Type} [DecidableEq ι] (store : MemoryStore)
    (limit : ι → UInt64) (weigh : ι → StateKey → StoredValue → UInt64) (persisting : ι → Option Block)
    (turns : Turns ι) :
    let first := start store limit weigh persisting
    let w := first.afterAll turns
    w.store = store.applyAll (Effects.changes (first.committed turns).flatten) ∧
    (∀ i, (w.snapshots i).effects.changes = asked i turns) ∧
    (∀ i key, (∀ t ∈ asked i turns, t.key ≠ key) →
      (w.after (i, .commit)).store.get? key = w.store.get? key) ∧
    (∀ key before log later, first.committed turns = before ++ log :: later →
      (∀ log' ∈ later, log'.lastChange? key = none) →
        (∀ value, log.lastChange? key = some (.write value) → w.store.get? key = some value) ∧
        (log.lastChange? key = some .prune → w.store.get? key = none)) ∧
    (∀ i j more, (∀ t ∈ asked i turns, ∀ t' ∈ asked j turns, t.key ≠ t'.key) →
      (w.afterAll ((i, .commit) :: (j, .commit) :: more)).store.get? =
        (w.afterAll ((j, .commit) :: (i, .commit) :: more)).store.get?) ∧
    ∀ i key,
      ((Snapshot.read key).run (w.workspace i)).1 = ((Snapshot.get key).run (w.workspace i)).1 ∧
      (∀ value, (asked i turns).lastChange? key = some (.write value) →
        ((Snapshot.get key).run (w.workspace i)).1 = .ok (some value)) ∧
      ((asked i turns).lastChange? key = some .prune →
        ((Snapshot.get key).run (w.workspace i)).1 = .ok none) := by
  intro first w
  have hstore : w.store = store.applyAll (first.committed turns).flatten :=
    store_afterAll first turns
  have hasked : ∀ i, (w.snapshots i).effects.changes = asked i turns :=
    changes_afterAll first turns
  have hlast : ∀ i key, (w.snapshots i).effects.lastChange? key =
      (asked i turns).lastChange? key := by
    intro i key
    rw [← hasked, Effects.lastChange?_changes]
  have htracked : ∀ i, (w.snapshots i).Tracked :=
    fun i => tracked_afterAll (.new (limit i) (weigh i) (persisting i)) turns
  refine ⟨?_, hasked, fun i key hkey => ?_, fun key before log later hlogs hlater => ?_,
    fun i j more hkeys => ?_, fun i key => ?_⟩
  · rw [hstore, MemoryStore.applyAll_changes]
  · rw [store_commit, MemoryStore.get?_applyAll, Effects.overlay_of_eq_none]
    rwa [Effects.lastChange?_eq_none_iff, hasked]
  · rw [hlogs] at hstore
    rw [hstore, MemoryStore.get?_applyAll, Effects.overlay]
    refine ⟨fun value hvalue => ?_, fun hprune => ?_⟩
    · rw [Effects.lastChange?_flatten hvalue hlater]
    · rw [Effects.lastChange?_flatten hprune hlater]
  · refine get?_commit_comm (fun key => ?_) more
    rw [Effects.lastChange?_eq_none_iff, Effects.lastChange?_eq_none_iff, hasked, hasked]
    by_contra hboth
    push Not at hboth
    obtain ⟨⟨t, ht, rfl⟩, t', ht', hsame⟩ := hboth
    exact hkeys t ht t' ht' hsame.symm
  · have hget := Snapshot.fst_run_get_memory (w := w.workspace i) (htracked i) key
    rw [Effects.overlay, show (w.workspace i).snapshot = w.snapshots i from rfl, hlast] at hget
    refine ⟨Snapshot.fst_run_read key _, fun value hvalue => ?_, fun hprune => ?_⟩
    · rw [hvalue] at hget
      exact hget
    · rw [hprune] at hget
      exact hget

end ContractHost
