import ContractHost.Proofs.Host.TwoSessions

/-!
# Isolation of contract storage

What a contract keeps in its storage shows only in calls made through one of its contexts, and when
the contract destroys itself. All other calls end alike whatever the contract keeps there, and so
does any run of them. Destroying another contract lists keys by a stem, which no key of this one
begins with.
-/

namespace ContractHost

namespace Call

open Session

variable {σ τ : Type} [StateReader σ] [StateReader τ] {c : Comparison σ τ}
  {before before' : List Notification} (hc : c.Reliable)

include hc

theorem popWritableContext_matches :
    Matches (c.AlikeSessions before before') popWritableContext popWritableContext := by
  refine requireMutatingTrigger_matches.bind fun _ => (popObject_matches _ _).bind fun context => ?_
  split
  · exact .throw _
  · exact (requireValidContext_matches hc context).bind fun _ => .pure _

theorem destroy_matches {hash : ScriptHash} (hhash : hash ≠ c.owner) :
    Matches (c.AlikeSessions before before') (destroy hash) (destroy hash) := by
  refine .get_bind fun s t hst => ?_
  rw [hst.trigger]
  dsimp only
  split
  · exact Matches.throw _ s t hst
  · have hread := Snapshot.getAs_matches hc StoredValue.toContract
      (c.not_hidden (rfl : (StateKey.contract hash).storageKey? = none))
    refine (onSnapshot_matches hread).bind (fun found => ?_) s t hst
    cases found with
    | none => exact .pure _
    | some contract =>
      refine (onSnapshot_matches (Snapshot.prune_matches _)).bind fun _ => ?_
      split
      · exact onSnapshot_matches (Snapshot.pruneStorage_matches hc hhash)
      · exact .pure _

variable {s : Session σ} {t : Session τ} (hst : c.AlikeSessions before before' s t)

include hst

theorem storageGet_matchesAt (h : ¬s.Reaches c.owner .storageGet) :
    MatchesAt (c.AlikeSessions before before') s t storageGet storageGet := by
  refine (popObject_matches _ _ s t hst).bind fun context s₁ t₁ hpop hst₁ => ?_
  have howner : context.scriptHash ≠ c.owner := by
    obtain ⟨handle, rest, hstack, hobject, -⟩ := popStorageContext_ok hpop
    exact fun howner => h (.context (.inl rfl) hstack hobject howner)
  refine (requireValidContext_matches hc context).bind
    (fun _ => popBytes_matches.bind fun key => ?_) s₁ t₁ hst₁
  have hshown : ¬c.hidden (.storage (context.storageKey key)) := c.not_hidden_storage howner
  have hread := Snapshot.getAs_matches hc StoredValue.toStorageItem hshown
  refine (onSnapshot_matches hread).bind fun found => ?_
  split
  · exact push_matches _
  · exact push_matches _

theorem storagePut_matchesAt :
    MatchesAt (c.AlikeSessions before before') s t storagePut storagePut := by
  refine (popWritableContext_matches hc).bind (fun context => popBytes_matches.bind fun key =>
    config_matches.bind fun config => ?_) s t hst
  dsimp only
  split
  · exact .throw _
  · exact popBytes_matches.bind fun value => onSnapshot_matches (Snapshot.write_matches _ _)

theorem storageDelete_matchesAt (h : ¬s.Reaches c.owner .storageDelete) :
    MatchesAt (c.AlikeSessions before before') s t storageDelete storageDelete := by
  refine (popWritableContext_matches hc s t hst).bind fun context s₁ t₁ hpop hst₁ => ?_
  have howner : context.scriptHash ≠ c.owner := by
    obtain ⟨-, -, ⟨handle, hstack, hobject⟩, -⟩ :=
      popWritableContext_ok hc.left hst.workspace.left.faithful hpop
    exact fun howner => h (.context (.inr (.inr rfl)) hstack hobject howner)
  refine popBytes_matches.bind (fun key => ?_) s₁ t₁ hst₁
  have hshown : ¬c.hidden (.storage (context.storageKey key)) := c.not_hidden_storage howner
  have hread := Snapshot.getAs_matches hc StoredValue.toStorageItem hshown
  refine (onSnapshot_matches hread).bind fun item => ?_
  cases item with
  | some item => exact onSnapshot_matches (Snapshot.prune_matches _)
  | none => exact .pure _

theorem contractDestroy_matchesAt (h : ¬s.Reaches c.owner .contractDestroy) :
    MatchesAt (c.AlikeSessions before before') s t contractDestroy contractDestroy := by
  refine (currentScriptHash_matches s t hst).bind fun hash s₁ t₁ hhash hst₁ => ?_
  cases hhash
  exact destroy_matches hc (fun howner => h (.destroy howner)) _ _ hst₁

/-- A call that does not reach the hidden storage ends alike. -/
theorem perform_matchesAt {f : HostFunction} (h : ¬s.Reaches c.owner f) :
    MatchesAt (c.AlikeSessions before before') s t (perform f) (perform f) := by
  by_cases hget : f = .storageGet
  · subst hget
    exact storageGet_matchesAt hc hst h
  by_cases hput : f = .storagePut
  · subst hput
    exact storagePut_matchesAt hc hst
  by_cases hdelete : f = .storageDelete
  · subst hdelete
    exact storageDelete_matchesAt hc hst h
  by_cases hdestroy : f = .contractDestroy
  · subst hdestroy
    exact contractDestroy_matchesAt hc hst h
  · exact perform_matches hc hget hput hdelete hdestroy s t hst

end Call

namespace Session

section

variable {σ : Type} [StateReader σ]

def results (s : Session σ) : List SessionEvent → List (Except HostError Unit)
  | [] => []
  | .call f :: events => ((Call.perform f).run s).1 :: (s.after (.call f)).results events
  | event :: events => (s.after event).results events

/-- None of the calls among some events reaches a contract. -/
def Avoids (owner : ScriptHash) (s : Session σ) : List SessionEvent → Prop
  | [] => True
  | event :: events =>
    (∀ f, event = .call f → ¬s.Reaches owner f) ∧ (s.after event).Avoids owner events

end

variable {σ τ : Type} [StateReader σ] [StateReader τ]

/-- Two sessions with the same virtual machine and services alike, whose snapshots show the same but
for the storage of a contract. -/
structure AgreesBut (owner : ScriptHash) (s : Session σ) (t : Session τ) : Prop where
  trigger : s.service.trigger = t.service.trigger
  config : s.service.config = t.service.config
  created : ∀ contract : ScriptHash, s.service.created[contract]? = t.service.created[contract]?
  machine : s.machine = t.machine
  heap : s.heap = t.heap
  get : ∀ key : StateKey, ¬key.IsStorageOf owner →
    ((Snapshot.get key).run s.workspace).1 = ((Snapshot.get key).run t.workspace).1

end Session

namespace Comparison

open Session

variable {σ τ : Type} [StateReader σ] [StateReader τ] {c : Comparison σ τ}
  {before before' : List Notification} {s : Session σ} {t : Session τ} (hc : c.Reliable)

include hc

theorem AlikeSessions.agreesBut (h : c.AlikeSessions before before' s t) :
    s.AgreesBut c.owner t := by
  refine ⟨h.trigger, h.config, h.created, h.machine, h.heap, fun key hkey => ?_⟩
  exact (Snapshot.get_matches hc hkey s.workspace t.workspace h.workspace).1

theorem alikeSessions_after (h : c.AlikeSessions before before' s t) {event : SessionEvent}
    (havoids : ∀ f, event = .call f → ¬s.Reaches c.owner f) :
    c.AlikeSessions before before' (s.after event) (t.after event) := by
  cases event with
  | call f => exact (Call.perform_matchesAt hc h (havoids f rfl)).2
  | machine machine heap => exact { h with machine := rfl, heap := rfl }
  | created contract creator =>
    refine { h with created := fun other => ?_ }
    change (s.service.created.insert contract creator)[other]? =
      (t.service.created.insert contract creator)[other]?
    rw [Std.TreeMap.getElem?_insert, Std.TreeMap.getElem?_insert, h.created]

theorem alikeSessions_afterAll (h : c.AlikeSessions before before' s t)
    {events : List SessionEvent} (havoids : s.Avoids c.owner events) :
    s.results events = t.results events ∧
      c.AlikeSessions before before' (s.afterAll events) (t.afterAll events) := by
  induction events generalizing s t with
  | nil => exact ⟨rfl, h⟩
  | cons event events ih =>
    obtain ⟨hevent, hrest⟩ := havoids
    obtain ⟨hresults, hall⟩ := ih (alikeSessions_after hc h hevent) hrest
    refine ⟨?_, hall⟩
    cases event with
    | call f =>
      rw [results, results, hresults, (Call.perform_matchesAt hc h (hevent f rfl)).1]
    | machine machine heap => exact hresults
    | created contract creator => exact hresults

end Comparison

theorem Snapshot.Tracked.isSome_view {s : Snapshot} (h : s.Tracked) {key : StateKey}
    (hwrites : s.effects.Writes key) (contents : StateKey → Option StoredValue) :
    (s.cache.view contents key).isSome := by
  obtain ⟨value, hvalue⟩ := hwrites
  rw [h.view, Effects.overlay, hvalue]
  rfl

/-- Two sessions over stores that serve steady contents and do not fail agree in their virtual
machines, their services and the block being persisted, and their snapshots show the same, no key
too large for a wire form, but for the storage of one contract. Then calls that are neither made
through a context of that contract nor its own destruction end alike in both: they succeed or fail
with the same errors, leave the same virtual machine and heap, make the same known and log the same
transforms, and the sessions still agree. -/
theorem Call.storage_isolation {σ τ : Type} [StateReader σ] [StateReader τ] {steady : σ → Prop}
    {contents : StateKey → Option StoredValue} {steady' : τ → Prop}
    {contents' : StateKey → Option StoredValue} (hstore : Serves steady contents)
    (hfaultless : Faultless steady) (hstore' : Serves steady' contents')
    (hfaultless' : Faultless steady') {s : Session σ} {t : Session τ}
    (hs : s.workspace.Coherent steady contents) (ht : t.workspace.Coherent steady' contents')
    (hsize : ∀ key, (s.shown contents key).isSome → WireWrite.size key ≤ Wire.maxBufferSize)
    (hsize' : ∀ key, (t.shown contents' key).isSome → WireWrite.size key ≤ Wire.maxBufferSize)
    {owner : ScriptHash} (hsame : s.AgreesBut owner t)
    (hpersisting : s.snapshot.persisting = t.snapshot.persisting)
    {events : List SessionEvent} (havoids : s.Avoids owner events) :
    s.results events = t.results events ∧
      (s.afterAll events).AgreesBut owner (t.afterAll events) ∧
      (∃ new, (s.afterAll events).service.notifications = s.service.notifications ++ new ∧
        (t.afterAll events).service.notifications = t.service.notifications ++ new) ∧
      ∃ more, (s.afterAll events).snapshot.effects = s.snapshot.effects ++ more ∧
        (t.afterAll events).snapshot.effects = t.snapshot.effects ++ more := by
  let c : Comparison σ τ :=
    ⟨owner, steady, contents, steady', contents', s.snapshot.effects, t.snapshot.effects⟩
  have hc : c.Reliable := ⟨hstore, hfaultless, hstore', hfaultless'⟩
  have halike : c.Alike s.workspace t.workspace := by
    refine ⟨hs, ht, fun key hkey => ?_, fun key hkey => ?_, hpersisting, [], ?_, ?_⟩
    · have hget := hsame.get key hkey
      rw [Snapshot.fst_run_get hstore hfaultless hs.faithful,
        Snapshot.fst_run_get hstore' hfaultless' ht.faithful] at hget
      exact Except.ok.inj hget
    · have hfits : ¬s.snapshot.effects.Writes key := fun hwrites =>
        Nat.not_lt.mpr (hsize key (hs.tracked.isSome_view hwrites contents)) hkey
      have hfits' : ¬t.snapshot.effects.Writes key := fun hwrites =>
        Nat.not_lt.mpr (hsize' key (ht.tracked.isSome_view hwrites contents')) hkey
      exact iff_of_false hfits hfits'
    · exact (List.append_nil _).symm
    · exact (List.append_nil _).symm
  have hst : c.AlikeSessions s.service.notifications t.service.notifications s t := by
    refine ⟨halike, hsame.trigger, hsame.config, hsame.created, hsame.machine, hsame.heap, [],
      ?_, ?_⟩
    · exact (List.append_nil _).symm
    · exact (List.append_nil _).symm
  obtain ⟨hresults, hafter⟩ := Comparison.alikeSessions_afterAll hc hst havoids
  exact ⟨hresults, hafter.agreesBut hc, hafter.notifications, hafter.workspace.effects⟩

/-- A session of the application with nothing read or changed yet. -/
def Session.starting (persisting : Option Block) (store : MemoryStore) : Session MemoryStore :=
  { Session.storing .application with
    snapshot := { Snapshot.new with persisting := persisting }, store := store }

namespace Session

variable (persisting : Option Block) (store : MemoryStore)

theorem coherent_starting :
    (starting persisting store).workspace.Coherent (· = store) store.get? :=
  ⟨⟨rfl, fun _ he => by cases he⟩, .new _ _ _⟩

variable {persisting store}

theorem agreesBut_starting {persisting' : Option Block} {store' : MemoryStore}
    (hfaultless : Faultless (· = store)) (hfaultless' : Faultless (· = store'))
    {owner : ScriptHash} (hsame : ∀ key : StateKey, ¬key.IsStorageOf owner →
      store.get? key = store'.get? key) :
    (starting persisting store).AgreesBut owner (starting persisting' store') := by
  refine ⟨rfl, rfl, fun _ => rfl, rfl, rfl, fun key hkey => ?_⟩
  rw [Snapshot.fst_run_get (MemoryStore.serves store) hfaultless
      (coherent_starting persisting store).faithful,
    Snapshot.fst_run_get (MemoryStore.serves store') hfaultless'
      (coherent_starting persisting' store').faithful]
  exact congrArg Except.ok (hsame key hkey)

end Session

def Session.neighbour : ScriptHash := ⟨⟨List.replicate 20 1, rfl⟩⟩

theorem Session.not_reaches_of_context {σ : Type} {s : Session σ} {id : Nat}
    {context : StorageContext} {rest : List StackValue} {owner : ScriptHash} {f : HostFunction}
    (hstack : s.machine.stack = .handle ⟨id, .storageContext context⟩ :: rest)
    (howner : context.scriptHash ≠ owner) (hf : f ≠ .contractDestroy) : ¬s.Reaches owner f := by
  intro hreaches
  cases hreaches with
  | context _ hstack' hobject howner' =>
    rw [hstack] at hstack'
    cases hstack'
    cases hobject
    exact howner howner'
  | destroy => exact hf rfl

/-- A contract stores two under its key one and gets it back, whether or not its neighbour has seven
under the same key. -/
theorem Call.storage_isolation_putGet :
    let context : HostObject := .storageContext ⟨default, false⟩
    let store := MemoryStore.ofPairs [(.contract default, .contract ⟨[], true, false, false, ""⟩)]
    let store' := store.apply ⟨.storage ⟨Session.neighbour, [1]⟩, .write (.storageItem ⟨[7]⟩)⟩
    let events : List SessionEvent := [.call .storagePut,
      .machine ⟨[.handle ⟨0, context⟩, .byteString [1]], default, none⟩ .empty, .call .storageGet]
    (Session.starting none store').results events = [.ok (), .ok ()] ∧
      ((Session.starting none store').afterAll events).machine.stack = [.byteString [2]] := by
  intro context store store' events
  have hget : ∀ key, store.get? key = if .contract default = key then
      some (.contract ⟨[], true, false, false, ""⟩) else none :=
    MemoryStore.get?_ofPairs_singleton _ _
  have hsize : ∀ key, (store.get? key).isSome → WireWrite.size key ≤ Wire.maxBufferSize := by
    intro key hkey
    rw [hget] at hkey
    split at hkey
    next heq =>
      subst heq
      decide
    next => cases hkey
  have hget' : ∀ key, store'.get? key =
      if .storage ⟨Session.neighbour, [1]⟩ = key then some (.storageItem ⟨[7]⟩)
      else store.get? key := by
    intro key
    rw [MemoryStore.get?_apply, Effects.overlay, Effects.lastChange?_singleton]
    by_cases hkey : .storage ⟨Session.neighbour, [1]⟩ = key <;> simp [hkey]
  have hsize' : ∀ key, (store'.get? key).isSome → WireWrite.size key ≤ Wire.maxBufferSize := by
    intro key hkey
    rw [hget'] at hkey
    split at hkey
    next heq =>
      subst heq
      decide
    next => exact hsize key hkey
  have hsame : ∀ key : StateKey, ¬key.IsStorageOf Session.neighbour →
      store.get? key = store'.get? key := by
    intro key hkey
    rw [hget', if_neg fun heq => hkey ⟨_, heq.symm, rfl⟩]
  have havoids : (Session.starting none store).Avoids Session.neighbour events := by
    refine ⟨?_, ?_, ?_, trivial⟩
    · rintro f ⟨⟩
      exact Session.not_reaches_of_context rfl (by decide) (by decide)
    · rintro f ⟨⟩
    · rintro f ⟨⟩
      exact Session.not_reaches_of_context rfl (by decide) (by decide)
  obtain ⟨hresults, hafter, -⟩ := storage_isolation (MemoryStore.serves _)
    (MemoryStore.faultless hsize) (MemoryStore.serves _) (MemoryStore.faultless hsize')
    (Session.coherent_starting _ _) (Session.coherent_starting _ _) hsize hsize'
    (Session.agreesBut_starting (MemoryStore.faultless hsize) (MemoryStore.faultless hsize') hsame)
    rfl havoids
  rw [← hresults, ← hafter.machine]
  exact ⟨rfl, rfl⟩

/-- While a block is persisted the time is that of the block, which no key shows. So two sessions
that agree in all else may tell different times. -/
theorem Call.getTime_of_persisting :
    let s := Session.starting none .empty
    let t := Session.starting (some default) .empty
    Serves (· = MemoryStore.empty) MemoryStore.empty.get? ∧ Faultless (· = MemoryStore.empty) ∧
      s.workspace.Coherent (· = MemoryStore.empty) MemoryStore.empty.get? ∧
      t.workspace.Coherent (· = MemoryStore.empty) MemoryStore.empty.get? ∧
      (∀ key, s.shown MemoryStore.empty.get? key = none) ∧
      (∀ key, t.shown MemoryStore.empty.get? key = none) ∧
      s.AgreesBut default t ∧ s.Avoids default [.call .runtimeGetTime] ∧
      s.results [.call .runtimeGetTime] = [.error .chainTipNotFound] ∧
      t.results [.call .runtimeGetTime] = [.ok ()] := by
  intro s t
  have hfaultless : Faultless (· = MemoryStore.empty) :=
    MemoryStore.faultless fun key hkey => by cases hkey
  have havoids : s.Avoids default [.call .runtimeGetTime] := by
    refine ⟨fun f hf => ?_, trivial⟩
    cases hf
    rintro ⟨hf, -, -, -⟩
    simp at hf
  exact ⟨MemoryStore.serves _, hfaultless, Session.coherent_starting _ _,
    Session.coherent_starting _ _, fun key => rfl, fun key => rfl,
    Session.agreesBut_starting hfaultless hfaultless fun key _ => rfl, havoids, rfl, rfl⟩

end ContractHost
