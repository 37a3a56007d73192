import Mathlib.Order.Monotone.Basic
import ContractHost.Proofs.State.Sharing

/-!
# What a snapshot shows while others commit

A snapshot does not hold the store still. A key that it has not changed itself shows the value kept
from reading or else what the store has by then, so what is found may be replaced once the store is
asked again: a missing key is asked for each time, and a value that was dropped is read anew. What
is found is always what the store had at some time since the snapshot was made, and never goes back
to an earlier time.
-/

namespace ContractHost

/-- If each answer is the newest one or the one before, the answers are those of times that never
go back. -/
theorem exists_monotone_version {α : Type} {stored found : ℕ → α} (hfirst : found 0 = stored 0)
    (hnext : ∀ n, found (n + 1) = stored (n + 1) ∨ found (n + 1) = found n) :
    ∃ version : ℕ → ℕ, Monotone version ∧
      ∀ n, version n ≤ n ∧ found n = stored (version n) ∧ (found n = stored n → version n = n) := by
  classical
  let version : ℕ → ℕ := fun n =>
    n.rec 0 fun n v => if found (n + 1) = stored (n + 1) then n + 1 else v
  have hsucc : ∀ n, version (n + 1) =
      if found (n + 1) = stored (n + 1) then n + 1 else version n := fun _ => rfl
  have hspec : ∀ n, version n ≤ n ∧ found n = stored (version n) ∧
      (found n = stored n → version n = n) := by
    intro n
    induction n with
    | zero => exact ⟨Nat.le_refl 0, hfirst, fun _ => rfl⟩
    | succ n ih =>
      rw [hsucc]
      split
      next hnew => exact ⟨Nat.le_refl _, hnew, fun _ => rfl⟩
      next hold =>
        refine ⟨ih.1.trans n.le_succ, ?_, fun hnew => absurd hnew hold⟩
        rw [(hnext n).resolve_left hold]
        exact ih.2.1
  refine ⟨version, monotone_nat_of_le_succ fun n => ?_, hspec⟩
  rw [hsucc]
  split
  · exact (hspec n).1.trans n.le_succ
  · exact Nat.le_refl _

namespace SharedWorkspace

variable {ι : Type}

def kept (w : SharedWorkspace ι) (i : ι) (key : StateKey) : Option StoredValue :=
  Cache.find? (w.snapshots i).cache.reads key

def found (w : SharedWorkspace ι) (i : ι) (key : StateKey) :
    Except SnapshotError (Option StoredValue) :=
  ((Snapshot.get key).run (w.workspace i)).1

theorem found_of_unchanged {w : SharedWorkspace ι} {i : ι} (hw : (w.snapshots i).Tracked)
    {key : StateKey} (hlast : (w.snapshots i).effects.lastChange? key = none) :
    w.found i key = .ok ((w.kept i key).or (w.store.get? key)) := by
  refine (Snapshot.fst_run_get_memory (w := w.workspace i) hw key).trans (congrArg Except.ok ?_)
  exact Effects.overlay_of_eq_none hlast

variable [DecidableEq ι]

def afterFirst (w : SharedWorkspace ι) (turns : Turns ι) (n : ℕ) : SharedWorkspace ι :=
  w.afterAll (turns.take n)

theorem afterFirst_succ (w : SharedWorkspace ι) (turns : Turns ι) (n : ℕ) :
    (∃ turn ∈ turns, w.afterFirst turns (n + 1) = (w.afterFirst turns n).after turn) ∨
      w.afterFirst turns (n + 1) = w.afterFirst turns n := by
  rw [afterFirst, afterFirst, List.take_add_one]
  cases hturn : turns[n]? with
  | none => exact .inr (by rw [Option.toList_none, List.append_nil])
  | some turn =>
    refine .inl ⟨turn, List.mem_of_getElem? hturn, ?_⟩
    rw [Option.toList_some, afterAll, List.foldl_append]
    rfl

theorem mem_askedFrom {i : ι} {waiting : Effects} {turns : Turns ι} {t : Transform}
    (h : t ∈ askedFrom i waiting turns) :
    t ∈ waiting ∨ ∃ action, (i, action) ∈ turns ∧ action.change? = some t := by
  induction turns generalizing waiting with
  | nil => exact .inl h
  | cons turn turns ih =>
    rcases ih h with hnow | ⟨action, hmem, hchange⟩
    · obtain ⟨j, action⟩ := turn
      dsimp only at hnow
      split at hnow
      next hij =>
        subst hij
        cases action with
        | commit => cases hnow
        | ask request =>
          rcases List.mem_append.mp hnow with hbefore | hasked
          · exact .inl hbefore
          · exact .inr ⟨.ask request, List.mem_cons_self, Option.mem_toList.mp hasked⟩
      next => exact .inl hnow
    · exact .inr ⟨action, List.mem_cons_of_mem _ hmem, hchange⟩

theorem lastChange?_afterFirst {w : SharedWorkspace ι} {i : ι}
    (hw : (w.snapshots i).effects = []) {key : StateKey} {turns : Turns ι}
    (hown : ∀ action t, (i, action) ∈ turns → action.change? = some t → t.key ≠ key) (n : ℕ) :
    ((w.afterFirst turns n).snapshots i).effects.lastChange? key = none := by
  rw [Effects.lastChange?_eq_none_iff]
  intro t ht
  rw [afterFirst, changes_afterAll, hw] at ht
  rcases mem_askedFrom ht with hbefore | ⟨action, hmem, hchange⟩
  · cases hbefore
  · exact hown action t (List.mem_of_mem_take hmem) hchange

theorem distinct_after {w : SharedWorkspace ι} {i : ι} (hw : (w.snapshots i).cache.Distinct)
    (turn : ι × SnapshotAction) : ((w.after turn).snapshots i).cache.Distinct := by
  obtain ⟨j, action⟩ := turn
  by_cases hi : i = j
  · subst hi
    rw [snapshots_after_self]
    cases action with
    | ask request => exact ((w.workspace i).refills_request request).distinct hw
    | commit => exact List.nodup_nil
  · rwa [snapshots_after_of_ne w hi]

theorem distinct_afterAll {w : SharedWorkspace ι} {i : ι} (hw : (w.snapshots i).cache.Distinct)
    (turns : Turns ι) : ((w.afterAll turns).snapshots i).cache.Distinct := by
  induction turns generalizing w with
  | nil => exact hw
  | cons turn turns ih => exact ih (distinct_after hw turn)

theorem kept_after {w : SharedWorkspace ι} {i : ι} (hw : (w.snapshots i).cache.Distinct)
    (key : StateKey) (turn : ι × SnapshotAction) :
    ((w.after turn).kept i key).or ((w.after turn).store.get? key) =
        (w.after turn).store.get? key ∨
      ((w.after turn).kept i key).or ((w.after turn).store.get? key) =
        (w.kept i key).or (w.store.get? key) := by
  cases hkept : (w.after turn).kept i key with
  | none => exact .inl rfl
  | some value =>
    rw [Option.some_or]
    obtain ⟨j, action⟩ := turn
    by_cases hi : i = j
    · subst hi
      have hmem := Cache.mem_of_find? hkept
      rw [snapshots_after_self] at hmem
      cases action with
      | commit => cases hmem
      | ask request =>
        have hrefills := (w.workspace i).refills_request request
        rcases hrefills.reads _ hmem with hbefore | hread
        · refine .inr ?_
          rw [kept, hw.find?_reads hbefore, Option.some_or]
        · exact .inl (by rw [store_ask]; exact hread.symm)
    · refine .inr ?_
      rw [kept, snapshots_after_of_ne w hi] at hkept
      rw [kept, hkept, Option.some_or]

end SharedWorkspace

open SharedWorkspace in
/-- A snapshot is made over a store that others use too, and writes or prunes a key at no time. What
it then finds for the key are values that the store had at times that never go back, none before the
snapshot was made. As long as a value is kept from reading it is found, whatever the others commit;
with nothing kept it is what the store has at that moment. So once it is what the store has, the
same is found while the store has the same value under the key, whatever is dropped. -/
theorem SharedWorkspace.found_never_goes_back {ι : Type} [DecidableEq ι] {w : SharedWorkspace ι}
    {i : ι} {limit : UInt64} {weigh : StateKey → StoredValue → UInt64} {persisting : Option Block}
    (hnew : w.snapshots i = ⟨.new limit weigh, [], persisting⟩) {key : StateKey} {turns : Turns ι}
    (hown : ∀ action t, (i, action) ∈ turns → action.change? = some t → t.key ≠ key) :
    let found n := (w.afterFirst turns n).found i key
    let kept n := (w.afterFirst turns n).kept i key
    let stored n := (w.afterFirst turns n).store.get? key
    (∃ version : ℕ → ℕ, Monotone version ∧
      ∀ n, version n ≤ n ∧ found n = .ok (stored (version n))) ∧
    (∀ n value, kept n = some value → found n = .ok (some value)) ∧
    (∀ n, kept n = none → found n = .ok (stored n)) ∧
    ∀ m n, m ≤ n → found m = .ok (stored m) → (∀ l, m ≤ l → l ≤ n → stored l = stored m) →
      found n = found m := by
  intro found kept stored
  have htracked : ∀ n, ((w.afterFirst turns n).snapshots i).Tracked := by
    refine fun n => tracked_afterAll ?_ _
    rw [hnew]
    exact .new limit weigh persisting
  have hdistinct : ∀ n, ((w.afterFirst turns n).snapshots i).cache.Distinct := by
    refine fun n => distinct_afterAll ?_ _
    rw [hnew]
    exact List.nodup_nil
  have hlast : ∀ n, ((w.afterFirst turns n).snapshots i).effects.lastChange? key = none :=
    lastChange?_afterFirst (by rw [hnew]) hown
  have hfound : ∀ n, found n = .ok ((kept n).or (stored n)) :=
    fun n => found_of_unchanged (htracked n) (hlast n)
  have hfirst : (kept 0).or (stored 0) = stored 0 := by
    have hnone : kept 0 = none := by
      change Cache.find? (w.snapshots i).cache.reads key = none
      rw [hnew]
      rfl
    rw [hnone, Option.none_or]
  have hnext : ∀ n, (kept (n + 1)).or (stored (n + 1)) = stored (n + 1) ∨
      (kept (n + 1)).or (stored (n + 1)) = (kept n).or (stored n) := by
    intro n
    rcases w.afterFirst_succ turns n with ⟨turn, -, hturn⟩ | hsame
    · simp only [kept, stored, hturn]
      exact kept_after (hdistinct n) key turn
    · exact .inr (by simp only [kept, stored, hsame])
  obtain ⟨version, hmono, hversion⟩ :=
    @exists_monotone_version _ stored (fun n => (kept n).or (stored n)) hfirst hnext
  refine ⟨⟨version, hmono, fun n => ⟨(hversion n).1, ?_⟩⟩, fun n value hvalue => ?_,
    fun n hnone => ?_, fun m n hmn hnewest hsame => ?_⟩
  · rw [hfound, (hversion n).2.1]
  · rw [hfound, hvalue, Option.some_or]
  · rw [hfound, hnone, Option.none_or]
  · have hcurrent : version m = m := by
      rw [hfound] at hnewest
      exact (hversion m).2.2 (Except.ok.inj hnewest)
    have hbetween : stored (version n) = stored m :=
      hsame _ (hcurrent ▸ hmono hmn) (hversion n).1
    rw [hnewest, hfound, (hversion n).2.1, hbetween]

open SharedWorkspace in
/-- A snapshot that finds no tip finds the one that another has committed by the next look. -/
theorem SharedWorkspace.found_never_goes_back_tip :
    let w : SharedWorkspace Bool := start .empty (fun _ => Snapshot.cacheLimit)
      (fun _ => Weight.ofEntry) (fun _ => none)
    let turns : Turns Bool := [(false, .ask (.get .chainTip)),
      (true, .ask (.write .chainTip (.chainTip default))), (true, .commit),
      (false, .ask (.get .chainTip))]
    (w.afterFirst turns 0).found false .chainTip = .ok none ∧
      (w.afterFirst turns 4).found false .chainTip = .ok (some (.chainTip default)) := by
  intro w turns
  have hown : ∀ action t, (false, action) ∈ turns → action.change? = some t →
      t.key ≠ .chainTip := by
    intro action t hmem hchange
    have haction : action = .ask (.get .chainTip) := by simpa [turns] using hmem
    rw [haction] at hchange
    cases hchange
  obtain ⟨-, hkept, hasked, -⟩ := found_never_goes_back (w := w) (i := false) rfl hown
  exact ⟨hasked 0 rfl, hkept 4 (.chainTip default) rfl⟩

open SharedWorkspace in
/-- A snapshot that only looks at the tip, twice, finds none and then one: another snapshot of the
store has committed it in between. -/
theorem SharedWorkspace.found_not_repeatable :
    let w : SharedWorkspace Bool := start .empty (fun _ => Snapshot.cacheLimit)
      (fun _ => Weight.ofEntry) (fun _ => none)
    let turns : Turns Bool := [(false, .ask (.get .chainTip)),
      (true, .ask (.write .chainTip (.chainTip default))), (true, .commit)]
    (∀ action, (false, action) ∈ turns → action = .ask (.get .chainTip)) ∧
      (w.afterFirst turns 0).found false .chainTip ≠
        (w.afterFirst turns 3).found false .chainTip := by
  intro w turns
  refine ⟨fun action hmem => by simpa [turns] using hmem, fun hsame => ?_⟩
  have hbefore : (w.afterFirst turns 0).found false .chainTip = .ok none := rfl
  have hafter : (w.afterFirst turns 3).found false .chainTip =
    .ok (some (.chainTip default)) := rfl
  rw [hbefore, hafter] at hsame
  cases hsame

end ContractHost
