import ContractHost.Proofs.State.View

/-!
# Stores that answer alike every time

A store may answer about a key with a value, with nothing or with an error. While it stays with its
answers, so does a snapshot, and two snapshots of the same changes give the same answers, whatever
each keeps from reading.
-/

namespace ContractHost

/-- Each key has its answer, however often the store is asked. -/
structure Answers {σ : Type} [StateReader σ] (steady : σ → Prop)
    (answer : StateKey → Except StoreError (Option StoredValue)) : Prop where
  stays_read : ∀ store key, steady store → steady (StateReader.read key store).2
  read : ∀ store key, steady store → (StateReader.read key store).1 = answer key

theorem Serves.answers {σ : Type} [StateReader σ] {steady : σ → Prop}
    {contents : StateKey → Option StoredValue} (hstore : Serves steady contents)
    (hfaultless : Faultless steady) : Answers steady fun key => .ok (contents key) := by
  refine ⟨hstore.stays_read, fun store key hsteady => ?_⟩
  obtain ⟨found, hfound⟩ := hfaultless.read store key hsteady
  rw [hfound, hstore.read store key found hsteady hfound]

theorem MemoryStore.answers_empty :
    Answers (· = MemoryStore.empty) fun key => .ok (MemoryStore.empty.get? key) := by
  refine (serves .empty).answers (faultless fun key hkey => ?_)
  have hnone : MemoryStore.empty.get? key = none := Std.TreeMap.getElem?_emptyc
  rw [hnone] at hkey
  cases hkey

namespace Cache

/-- What a snapshot answers about a key, over a store of these answers. -/
def answer (stored : StateKey → Except StoreError (Option StoredValue)) (c : Cache)
    (key : StateKey) : Except SnapshotError (Option StoredValue) :=
  if c.isPruned key then .ok none
  else
    match find? c.writes key with
    | some value => .ok (some value)
    | none => (stored key).mapError .storage

variable {stored : StateKey → Except StoreError (Option StoredValue)} {c c' : Cache}

theorem SameChanges.answer (h : c.SameChanges c') : c'.answer stored = c.answer stored := by
  obtain ⟨weight, reads, rfl⟩ := h
  rfl

end Cache

variable {σ : Type}

section

variable (steady : σ → Prop) (stored : StateKey → Except StoreError (Option StoredValue))

/-- The store stays with its answers, and the values kept from reading are among them. -/
structure Workspace.Settled (w : Workspace σ) : Prop where
  steady : steady w.store
  kept : ∀ e ∈ w.snapshot.cache.reads, stored e.1 = .ok (some e.2)

/-- Two workspaces whose snapshots differ in nothing but the values kept from reading. -/
structure Workspace.SameAnswers (w v : Workspace σ) : Prop where
  left : w.Settled steady stored
  right : v.Settled steady stored
  snapshot : ∃ cache, w.snapshot.cache.SameChanges cache ∧
    v.snapshot = { w.snapshot with cache := cache }

end

variable {steady : σ → Prop} {stored : StateKey → Except StoreError (Option StoredValue)}
  {w v : Workspace σ}

namespace Snapshot

variable [StateReader σ] (hstore : Answers steady stored)

include hstore

theorem fst_run_get_eq_answer (hw : w.Settled steady stored) (key : StateKey) :
    ((get key).run w).1 = w.snapshot.cache.answer stored key := by
  rw [run_get, Cache.answer]
  have hpruned := (w.snapshot.cache.sameChanges_get key).isPruned key
  have hfound := w.snapshot.cache.fst_get key
  cases hget : w.snapshot.cache.get key with
  | mk found cache =>
    rw [hget] at hpruned hfound
    dsimp only at hpruned hfound
    cases found with
    | some value =>
      cases hp : w.snapshot.cache.isPruned key with
      | true =>
        rw [if_pos hp] at hfound
        cases hfound
      | false =>
        simp only [hp, Bool.false_eq_true, if_false] at hfound ⊢
        cases hwritten : Cache.find? w.snapshot.cache.writes key with
        | some written =>
          rw [hwritten] at hfound
          cases hfound
          rfl
        | none =>
          rw [hwritten, Option.none_or] at hfound
          dsimp only
          rw [hw.kept _ (Cache.mem_of_find? hfound.symm)]
          rfl
    | none =>
      dsimp only
      rw [hpruned]
      cases hp : w.snapshot.cache.isPruned key with
      | true => rfl
      | false =>
        have hwritten : Cache.find? w.snapshot.cache.writes key = none :=
          Cache.find?_writes_of_get_none hp (by rw [hget])
        have hread := hstore.read w.store key hw.steady
        simp only [Bool.false_eq_true, if_false, hwritten]
        rw [← hread]
        rcases StateReader.read key w.store with ⟨e | _ | value, store⟩ <;> rfl

theorem settled_get (hw : w.Settled steady stored) (key : StateKey) :
    ((get key).run w).2.Settled steady stored := by
  have hstays := hstore.stays_read w.store key hw.steady
  have hread := hstore.read w.store key hw.steady
  have hkept : ∀ e ∈ (w.snapshot.cache.get key).2.reads, stored e.1 = .ok (some e.2) :=
    fun e he => hw.kept e (Cache.mem_reads_of_get he)
  rw [run_get]
  rcases hget : w.snapshot.cache.get key with ⟨_ | value, cache⟩
  · rw [hget] at hkept
    dsimp only
    split
    · exact ⟨hw.steady, hkept⟩
    · rcases hresult : StateReader.read key w.store with ⟨e | _ | value, store⟩
      · rw [hresult] at hstays
        exact ⟨hstays, hkept⟩
      · rw [hresult] at hstays
        exact ⟨hstays, hkept⟩
      · rw [hresult] at hstays hread
        refine ⟨hstays, fun e he => ?_⟩
        rcases Cache.mem_reads_of_insertRead he with hold | rfl
        · exact hkept e hold
        · exact hread.symm
  · rw [hget] at hkept
    exact ⟨hw.steady, hkept⟩

/-- Looking a key up gives its answer and keeps all answers. -/
theorem exists_run_get (hw : w.Settled steady stored) {key : StateKey}
    {answer : Except SnapshotError (Option StoredValue)}
    (hanswer : w.snapshot.cache.answer stored key = answer) :
    ∃ after, (get key).run w = (answer, after) ∧ w.SameAnswers steady stored after := by
  refine ⟨((get key).run w).2, Prod.ext ?_ rfl,
    hw, settled_get hstore hw key, (get_quiet Serves.never key w).snapshot⟩
  rw [fst_run_get_eq_answer hstore hw, hanswer]

theorem get_answersAlike (key : StateKey) :
    Matches (Workspace.SameAnswers steady stored) (get key) (get key) := by
  intro w v h
  obtain ⟨cache, hsame, hv⟩ := h.snapshot
  refine ⟨?_, settled_get hstore h.left key, settled_get hstore h.right key, ?_⟩
  · rw [fst_run_get_eq_answer hstore h.left, fst_run_get_eq_answer hstore h.right, hv, hsame.answer]
  · obtain ⟨kept, hkept, hafter⟩ := (get_quiet Serves.never key w).snapshot
    obtain ⟨kept', hkept', hafter'⟩ := (get_quiet Serves.never key v).snapshot
    rw [hv] at hkept'
    rw [hafter, hafter', hv]
    refine ⟨kept', ?_, rfl⟩
    obtain ⟨weight, reads, rfl⟩ := hkept
    exact (hsame.trans hkept')

end Snapshot

end ContractHost
