import ContractHost.Proofs.Host.StorageMap

/-!
# What may be done with a session

Besides the events of an execution, the snapshot of a session may be asked and changed directly,
and a contract may be destroyed by the host. Whatever is done, cache, store and log stay in
agreement, and a session shows what it showed with the new writes and prunes on top.
-/

namespace ContractHost

/-- What may be done with a session from outside: it goes through an event, its snapshot is asked
for something, or a contract is destroyed. -/
inductive SessionOperation
  | event (event : SessionEvent)
  | ask (request : SnapshotRequest)
  | destroy (hash : ScriptHash)

namespace Session

variable {σ : Type}

variable [StateReader σ]

def afterOperation (s : Session σ) : SessionOperation → Session σ
  | .event event => s.after event
  | .ask request => s.onWorkspace (request.after s.workspace)
  | .destroy hash => ((Call.destroy hash).run s).2

def afterOperations (s : Session σ) (operations : List SessionOperation) : Session σ :=
  operations.foldl afterOperation s

variable {steady : σ → Prop} {contents : StateKey → Option StoredValue} {s : Session σ}

theorem within_afterOperation (hstore : Serves steady contents)
    (hs : s.workspace.Faithful steady contents) (operation : SessionOperation) :
    s.Within steady contents (fun _ => True) (s.afterOperation operation) := by
  cases operation with
  | event event => exact ((s.step_after event).within hstore hs).mono fun _ _ => trivial
  | ask request =>
    have hafter := request.after_advances hstore s.workspace
    refine ⟨⟨hafter.faithful, hafter.tracked, fun key hkey => absurd trivial hkey, _, hafter.changes,
      fun _ _ => trivial⟩, rfl, rfl⟩
  | destroy hash => exact Call.destroy_within hstore hs (fun _ => trivial) fun _ _ _ => trivial

theorem within_afterOperations (hstore : Serves steady contents)
    (hs : s.workspace.Faithful steady contents) (operations : List SessionOperation) :
    s.Within steady contents (fun _ => True) (s.afterOperations operations) := by
  induction operations generalizing s with
  | nil => exact refl s
  | cons operation operations ih =>
    have hfirst := within_afterOperation hstore hs operation
    exact IsTrans.trans _ _ _ hfirst (ih (hfirst.workspace.faithful hs))

omit [StateReader σ] in
theorem shown_eq_overlay (hs : s.workspace.Coherent steady contents) :
    s.shown contents = s.snapshot.effects.overlay contents := by
  funext key
  exact hs.tracked.view contents key

/-- After any operations a session shows what it showed with the new writes and prunes on top. -/
theorem shown_afterOperations (hstore : Serves steady contents)
    (hs : s.workspace.Coherent steady contents) (operations : List SessionOperation) :
    ∃ new, (s.afterOperations operations).snapshot.effects.changes =
        s.snapshot.effects.changes ++ new ∧
      (s.afterOperations operations).shown contents = new.overlay (s.shown contents) := by
  have hafter := within_afterOperations hstore hs.faithful operations
  obtain ⟨new, hnew, -⟩ := hafter.workspace.changes
  have hnew : (s.afterOperations operations).snapshot.effects.changes =
      s.snapshot.effects.changes ++ new := hnew
  refine ⟨new, hnew, ?_⟩
  rw [shown_eq_overlay (hafter.coherent hs), shown_eq_overlay hs, ← Effects.overlay_changes, hnew,
    Effects.overlay_append, Effects.overlay_changes]

/-- A session that came about by operations, whatever they were and whether they failed, on a fresh
snapshot of a store of steady contents. A commit makes the snapshot fresh again. -/
def Arises (steady : σ → Prop) (s : Session σ) : Prop :=
  ∃ (start : Session σ) (limit : UInt64) (weigh : StateKey → StoredValue → UInt64)
    (persisting : Option Block) (operations : List SessionOperation),
    steady start.store ∧ start.snapshot = ⟨.new limit weigh, [], persisting⟩ ∧
      s = start.afterOperations operations

omit [StateReader σ] in
theorem coherent_of_fresh {limit : UInt64} {weigh : StateKey → StoredValue → UInt64}
    {persisting : Option Block} (hsteady : steady s.store)
    (hfresh : s.snapshot = ⟨.new limit weigh, [], persisting⟩) :
    s.workspace.Coherent steady contents := by
  refine ⟨⟨hsteady, ?_⟩, ?_⟩
  · change s.snapshot.cache.Current contents
    rw [hfresh]
    intro e he
    cases he
  · change s.snapshot.Tracked
    rw [hfresh]
    exact .new limit weigh persisting

theorem Arises.coherent (hstore : Serves steady contents) (hs : s.Arises steady) :
    s.workspace.Coherent steady contents := by
  obtain ⟨start, limit, weigh, persisting, operations, hsteady, hfresh, rfl⟩ := hs
  have hstart : start.workspace.Coherent steady contents := coherent_of_fresh hsteady hfresh
  exact (within_afterOperations hstore hstart.faithful operations).coherent hstart

theorem run_commit_memory (s : Session MemoryStore) :
    ∃ committed, Call.commit.run s = (.ok (), committed) ∧
      committed.store = s.store.applyAll s.snapshot.effects ∧ committed.snapshot.effects = [] ∧
      committed.Arises (· = committed.store) := by
  refine ⟨_, rfl, rfl, rfl, ?_⟩
  exact ⟨_, s.snapshot.cache.limit, s.snapshot.cache.weigh, s.snapshot.persisting, [], rfl, rfl, rfl⟩

end Session

end ContractHost
