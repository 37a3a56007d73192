import Mathlib.Logic.Function.Basic
import ContractHost.Proofs.Host.Events
import ContractHost.Proofs.State.Pruning

/-!
# Contract storage as a map

Seen through storage contexts, the state is a map from storage keys to bytes. A call that stores
sets one entry of it, one that deletes clears one, a contract that destroys itself clears all its
own, and no other call changes any. What a call reads is the entry of that map, whatever is cached
and wherever the entry is kept.
-/

namespace ContractHost

abbrev Entries := StorageKey → Option Bytes

/-- The entry that the top operands name, by a context and a key, with what lies below them. -/
def Machine.addressed? (machine : Machine) : Option (StorageKey × List StackValue) :=
  match machine.stack with
  | .handle handle :: operand :: rest =>
    match handle.object.storageContext?, operand.bytes? with
    | some context, some key => some (context.storageKey key, rest)
    | _, _ => none
  | _ => none

example (handle : Handle) :
    let named := fun operand => (Machine.mk [.handle handle, operand] default none).addressed?
    named (.integer 1) = named (.byteString [1]) ∧
      named (.boolean true) = named (.byteString [1]) :=
  ⟨rfl, rfl⟩

theorem Machine.exists_of_addressed {machine : Machine} {key : StorageKey} {rest : List StackValue}
    (h : machine.addressed? = some (key, rest)) :
    ∃ handle operand context, machine.stack = .handle handle :: operand :: rest ∧
      handle.object = .storageContext context ∧ operand.bytes? = some key.key ∧
      context.scriptHash = key.scriptHash := by
  rw [addressed?] at h
  split at h
  next handle operand below hstack =>
    split at h
    next context bytes hcontext hbytes =>
      cases h
      refine ⟨handle, operand, context, hstack, ?_, hbytes, rfl⟩
      cases hobject : handle.object <;> rw [hobject] at hcontext <;> cases hcontext
      rfl
    next => cases h
  next => cases h

namespace Session

variable {σ : Type} (contents : StateKey → Option StoredValue)

def stored (s : Session σ) : Entries := fun key =>
  match s.shown contents (.storage key) with
  | some (.storageItem item) => some item.value
  | _ => none

def hasStorage (s : Session σ) : Bool :=
  match s.shown contents (.contract s.machine.scriptHash) with
  | some (.contract contract) => contract.hasStorage
  | _ => false

def entriesAfter (s : Session σ) (f : HostFunction) (entries : Entries) : Entries :=
  match f with
  | .storagePut =>
    match s.machine.addressed? with
    | some (key, value :: _) => Function.update entries key value.bytes?
    | _ => entries
  | .storageDelete =>
    match s.machine.addressed? with
    | some (key, _) => Function.update entries key none
    | none => entries
  | .contractDestroy =>
    if s.hasStorage contents then
      fun key => if key.scriptHash = s.machine.scriptHash then none else entries key
    else entries
  | _ => entries

section

variable {contents} {steady : σ → Prop} {s s' : Session σ} {entries : Entries}

theorem entriesAfter_put {key : StorageKey} {value : StackValue} {rest : List StackValue}
    (h : s.machine.addressed? = some (key, value :: rest)) :
    s.entriesAfter contents .storagePut entries = Function.update entries key value.bytes? := by
  simp [entriesAfter, h]

theorem entriesAfter_delete {key : StorageKey} {rest : List StackValue}
    (h : s.machine.addressed? = some (key, rest)) :
    s.entriesAfter contents .storageDelete entries = Function.update entries key none := by
  simp [entriesAfter, h]

theorem entriesAfter_of_ne {f : HostFunction} (hput : f ≠ .storagePut) (hdelete : f ≠ .storageDelete)
    (hdestroy : f ≠ .contractDestroy) :
    s.entriesAfter contents f entries = entries := by
  cases f <;> first | rfl | contradiction

theorem reaches_of_addressed {f : HostFunction}
    (hf : f = .storageGet ∨ f = .storagePut ∨ f = .storageDelete) {key : StorageKey}
    {rest : List StackValue} (h : s.machine.addressed? = some (key, rest)) :
    s.Reaches key.scriptHash f := by
  obtain ⟨handle, operand, context, hstack, hobject, -, howner⟩ := Machine.exists_of_addressed h
  exact .context hf hstack hobject howner

theorem reaches_of_entriesAfter_ne {f : HostFunction} {key : StorageKey}
    (h : s.entriesAfter contents f entries key ≠ entries key) : s.Reaches key.scriptHash f := by
  cases f with
  | storagePut =>
    rcases haddressed : s.machine.addressed? with _ | ⟨named, _ | ⟨value, rest⟩⟩
    · simp [entriesAfter, haddressed] at h
    · simp [entriesAfter, haddressed] at h
    · rw [entriesAfter_put haddressed] at h
      obtain rfl : key = named := by
        by_contra hkey
        exact h (Function.update_of_ne hkey _ _)
      exact reaches_of_addressed (.inr (.inl rfl)) haddressed
  | storageDelete =>
    rcases haddressed : s.machine.addressed? with _ | ⟨named, rest⟩
    · simp [entriesAfter, haddressed] at h
    · rw [entriesAfter_delete haddressed] at h
      obtain rfl : key = named := by
        by_contra hkey
        exact h (Function.update_of_ne hkey _ _)
      exact reaches_of_addressed (.inr (.inr rfl)) haddressed
  | contractDestroy =>
    rw [entriesAfter] at h
    split at h
    next =>
      by_cases howner : key.scriptHash = s.machine.scriptHash
      · exact .destroy howner.symm
      · exact absurd (if_neg howner) h
    next => exact absurd rfl h
  | _ => exact absurd rfl h

theorem Within.stored {keys : StateKey → Prop} (h : s.Within steady contents keys s')
    (hkeys : ∀ key, ¬keys (.storage key)) : s'.stored contents = s.stored contents := by
  funext key
  have hsame : s'.shown contents (.storage key) = s.shown contents (.storage key) :=
    h.workspace.view (.storage key) (hkeys key)
  rw [Session.stored, Session.stored, hsame]

theorem stored_eq_update {key : StorageKey} {value : Option Bytes}
    (hself : s'.shown contents (.storage key) = value.map fun bytes => .storageItem ⟨bytes⟩)
    (hother : ∀ other, .storage key ≠ other → s'.shown contents other = s.shown contents other) :
    s'.stored contents = Function.update (s.stored contents) key value := by
  refine Function.eq_update_iff.mpr ⟨?_, fun other hne => ?_⟩
  · rw [stored, hself]
    cases value <;> rfl
  · rw [stored, stored, hother _ fun hsame => hne (StateKey.storage.inj hsame).symm]

theorem stored_of_insertWrite {key : StorageKey} {value : Bytes}
    (h : s'.snapshot.cache = s.snapshot.cache.insertWrite (.storage key) (.storageItem ⟨value⟩)) :
    s'.stored contents = Function.update (s.stored contents) key (some value) := by
  refine stored_eq_update ?_ fun other hkey => ?_
  · rw [shown, h, Cache.view_insertWrite_self]
    rfl
  · rw [shown, shown, h, Cache.view_insertWrite _ hkey]

theorem stored_of_insertPrune {key : StorageKey}
    (h : s'.snapshot.cache = s.snapshot.cache.insertPrune (.storage key)) :
    s'.stored contents = Function.update (s.stored contents) key none := by
  refine stored_eq_update ?_ fun other hkey => ?_
  · rw [shown, h, Cache.view_insertPrune_self]
    rfl
  · rw [shown, shown, h, Cache.view_insertPrune _ hkey]

end

variable [StateReader σ]

/-- The entries after an event. A call that fails leaves them. -/
def entriesAfterEvent (s : Session σ) (entries : Entries) : SessionEvent → Entries
  | .call f =>
    if ((Call.perform f).run s).1.isOk then s.entriesAfter contents f entries else entries
  | .machine _ _ => entries
  | .created _ _ => entries

def follow (s : Session σ) (entries : Entries) : List SessionEvent → Entries
  | [] => entries
  | event :: events => (s.after event).follow (s.entriesAfterEvent contents entries event) events

end Session

namespace Call

open Session

variable {σ : Type} [StateReader σ] {steady : σ → Prop} {contents : StateKey → Option StoredValue}
  {s s' : Session σ}

section

variable (hstore : Serves steady contents) (hs : s.workspace.Coherent steady contents)

include hstore hs

theorem addressed_of_popWritable {context : StorageContext} {key : Bytes} {s₁ s₂ : Session σ}
    (hcontext : popWritableContext.run s = (.ok context, s₁))
    (hkey : popBytes.run s₁ = (.ok key, s₂)) :
    s.machine.addressed? = some (context.storageKey key, s₂.machine.stack) ∧
      s.Within steady contents (fun _ => False) s₂ := by
  obtain ⟨-, -, ⟨handle, hstack, hobject⟩, -⟩ := popWritableContext_ok hstore hs.faithful hcontext
  obtain ⟨operand, rest, hstack₁, hbytes, rfl⟩ := popBytes_ok hkey
  refine ⟨?_, IsTrans.trans _ _ _ ((popWritableContext_quiet hstore).run hcontext)
    (popBytes_quiet.run hkey)⟩
  rw [Machine.addressed?, hstack, hstack₁]
  simp [hobject, HostObject.storageContext?, hbytes]

theorem storagePut_ok (h : storagePut.run s = (.ok (), s')) :
    s'.stored contents = s.entriesAfter contents .storagePut (s.stored contents) := by
  obtain ⟨context, s₁, hcontext, hrest⟩ := exists_of_run_bind h
  obtain ⟨key, s₂, hkey, hrest⟩ := exists_of_run_bind hrest
  obtain ⟨haddressed, hquiet⟩ := addressed_of_popWritable hstore hs hcontext hkey
  obtain ⟨settings, s₃, hconfig, hrest⟩ := exists_of_run_bind hrest
  cases hconfig
  dsimp only at hrest
  split at hrest
  next => cases hrest
  next =>
    obtain ⟨value, s₄, hvalue, hwrite⟩ := exists_of_run_bind hrest
    obtain ⟨operand, rest, hstack, hbytes, -⟩ := popBytes_ok hvalue
    have hcache : s'.snapshot.cache =
        s₄.snapshot.cache.insertWrite (.storage (context.storageKey key)) (.storageItem ⟨value⟩) :=
      (congrArg (fun result => result.2.snapshot.cache) hwrite).symm
    have hsame : s₄.stored contents = s.stored contents :=
      (IsTrans.trans _ _ _ hquiet (popBytes_quiet.run hvalue)).stored fun _ => id
    rw [hstack] at haddressed
    rw [stored_of_insertWrite hcache, hsame, entriesAfter_put haddressed, hbytes]

theorem storageDelete_ok (h : storageDelete.run s = (.ok (), s')) :
    s'.stored contents = s.entriesAfter contents .storageDelete (s.stored contents) := by
  obtain ⟨context, s₁, hcontext, hrest⟩ := exists_of_run_bind h
  obtain ⟨key, s₂, hkey, hrest⟩ := exists_of_run_bind hrest
  obtain ⟨haddressed, hquiet⟩ := addressed_of_popWritable hstore hs hcontext hkey
  obtain ⟨item, s₃, hitem, hrest⟩ := exists_of_run_bind hrest
  have hread := Snapshot.getAs_quiet hstore StoredValue.toStorageItem
    (.storage (context.storageKey key))
  have hquiet₃ := IsTrans.trans _ _ _ hquiet ((onSnapshot_quiet hread).run hitem)
  have hsame : s₃.stored contents = s.stored contents := hquiet₃.stored fun _ => id
  rw [entriesAfter_delete haddressed]
  cases item with
  | some item =>
    have hcache : s'.snapshot.cache =
        s₃.snapshot.cache.insertPrune (.storage (context.storageKey key)) :=
      (congrArg (fun result => result.2.snapshot.cache) hrest).symm
    rw [stored_of_insertPrune hcache, hsame]
  | none =>
    -- there was nothing to delete
    cases hrest
    obtain ⟨hfound, -⟩ := onSnapshot_ok hitem
    have hnone := Snapshot.view_of_getAs_none hstore (hquiet.coherent hs).faithful
      (congrArg Prod.fst hfound)
    have hmissing : s.stored contents (context.storageKey key) = none := by
      have hshown : s₂.shown contents (.storage (context.storageKey key)) = none := hnone
      rw [← hquiet.stored fun _ => id, stored, hshown]
    rw [hsame]
    exact (Function.update_eq_self_iff.mpr hmissing.symm).symm

theorem contractDestroy_ok (h : contractDestroy.run s = (.ok (), s')) :
    s'.stored contents = s.entriesAfter contents .contractDestroy (s.stored contents) := by
  obtain ⟨hash, s₁, hhash, hrest⟩ := exists_of_run_bind h
  cases hhash
  obtain ⟨t, s₁, ht, hrest⟩ := exists_of_run_bind hrest
  cases ht
  dsimp only at hrest
  split at hrest
  next => cases hrest
  next =>
    obtain ⟨found, s₂, hfound, hrest⟩ := exists_of_run_bind hrest
    have hread := Snapshot.getAs_quiet hstore StoredValue.toContract
      (.contract s.machine.scriptHash)
    have hquiet : s.Within steady contents (fun _ => False) s₂ :=
      (onSnapshot_quiet hread).run hfound
    obtain ⟨hresult, -⟩ := onSnapshot_ok hfound
    rw [entriesAfter, hasStorage]
    cases found with
    | none =>
      have hnone : s.shown contents (.contract s.machine.scriptHash) = none :=
        Snapshot.view_of_getAs_none hstore hs.faithful (congrArg Prod.fst hresult)
      cases hrest
      rw [hnone, hquiet.stored fun _ => id]
      rfl
    | some contract =>
      have hcontract :
          s.shown contents (.contract s.machine.scriptHash) = some (.contract contract) :=
        Snapshot.readContract_shows hstore hs.faithful (congrArg Prod.fst hresult)
      obtain ⟨⟨⟩, s₃, hprune, hrest⟩ := exists_of_run_bind hrest
      have hgone : Moves (Within (σ := σ) steady contents (· = .contract s.machine.scriptHash))
          (onSnapshot (Snapshot.prune (.contract s.machine.scriptHash))) :=
        onSnapshot_within (Snapshot.prune_within rfl)
      have hwithin := IsTrans.trans _ _ _ ((onSnapshot_quiet hread).run hfound) (hgone.run hprune)
      have hsame := hwithin.stored fun key hkey => by cases hkey
      rw [hcontract]
      dsimp only
      split at hrest
      next hstorage =>
        rw [if_pos hstorage]
        obtain ⟨hpruned, -⟩ := onSnapshot_ok hrest
        funext key
        have hview : s'.shown contents (.storage key) =
            if key.scriptHash = s.machine.scriptHash then none
            else s₃.shown contents (.storage key) :=
          Snapshot.view_of_pruneStorage hstore (hwithin.coherent hs) hpruned key
        rw [← hsame, stored, stored, hview]
        by_cases howner : key.scriptHash = s.machine.scriptHash <;> simp [howner]
      next hstorage =>
        cases hrest
        rw [if_neg hstorage, hsame]

end

theorem storagePut_failsIn (hstore : Serves steady contents) {keys : StateKey → Prop} :
    FailsIn (Within (σ := σ) steady contents keys) storagePut := by
  refine .bind (popWritableContext_quiet hstore) fun context => .bind popBytes_quiet fun key =>
    .bind config_moves fun config => ?_
  dsimp only
  split
  · exact (Moves.throw _).failsIn
  · exact .bind popBytes_quiet fun value => .of_total fun s => ⟨(), rfl⟩

theorem storageDelete_failsIn (hstore : Serves steady contents) {keys : StateKey → Prop} :
    FailsIn (Within (σ := σ) steady contents keys) storageDelete := by
  refine .bind (popWritableContext_quiet hstore) fun context => .bind popBytes_quiet fun key =>
    .bind (onSnapshot_quiet (Snapshot.getAs_quiet hstore _ _)) fun item => ?_
  cases item with
  | some item => exact .of_total fun s => ⟨(), rfl⟩
  | none => exact (Moves.pure _).failsIn

theorem contractDestroy_failsIn (hstore : Serves steady contents) :
    FailsIn (Within (σ := σ) steady contents fun key => ∃ hash, key = .contract hash)
      contractDestroy := by
  refine .bind currentScriptHash_moves fun hash => .bind Moves.get fun t => ?_
  dsimp only
  split
  · exact (Moves.throw _).failsIn
  · refine .bind (onSnapshot_quiet (Snapshot.getAs_quiet hstore _ _)) fun found => ?_
    cases found with
    | none => exact (Moves.pure _).failsIn
    | some contract =>
      refine .bind (onSnapshot_within (Snapshot.prune_within ⟨hash, rfl⟩)) fun _ => ?_
      split
      · exact onSnapshot_failsIn (Snapshot.pruneStorage_failsIn hstore hash)
      · exact (Moves.pure _).failsIn

/-- The entries shown after a call are those of the map. -/
theorem stored_perform (hstore : Serves steady contents) (hs : s.workspace.Coherent steady contents)
    (f : HostFunction) :
    ((perform f).run s).2.stored contents =
      s.entriesAfterEvent contents (s.stored contents) (.call f) := by
  rw [entriesAfterEvent]
  by_cases hf : f = .storagePut ∨ f = .storageDelete ∨ f = .contractDestroy
  · cases hrun : (perform f).run s with
    | mk result s' =>
      cases result with
      | ok done =>
        cases done
        rcases hf with rfl | rfl | rfl
        · exact storagePut_ok hstore hs hrun
        · exact storageDelete_ok hstore hs hrun
        · exact contractDestroy_ok hstore hs hrun
      | error e =>
        have hfails : s.Within steady contents (fun key => ∃ hash, key = .contract hash) s' := by
          rcases hf with rfl | rfl | rfl
          · exact storagePut_failsIn hstore s e s' hrun
          · exact storageDelete_failsIn hstore s e s' hrun
          · exact contractDestroy_failsIn hstore s e s' hrun
        exact hfails.stored fun key ⟨hash, hkey⟩ => by cases hkey
  · obtain ⟨hput, hdelete, hdestroy⟩ := not_or.mp hf |>.imp id not_or.mp
    have hquiet : s.Within steady contents (fun _ => False) ((perform f).run s).2 :=
      perform_quiet hstore hput hdelete hdestroy s
    rw [hquiet.stored fun _ => id, entriesAfter_of_ne hput hdelete hdestroy, ite_self]

omit [StateReader σ] in
theorem push_ok {value : StackValue} (h : (push value).run s = (.ok (), s')) :
    s'.machine.stack = value :: s.machine.stack := by
  cases h
  rfl

theorem storageGet_ok (hstore : Serves steady contents) (hs : s.workspace.Coherent steady contents)
    (h : storageGet.run s = (.ok (), s')) :
    ∃ key rest, s.machine.addressed? = some (key, rest) ∧
      s'.machine.stack = .byteString ((s.stored contents key).getD []) :: rest := by
  obtain ⟨context, s₁, hcontext, hrest⟩ := exists_of_run_bind h
  obtain ⟨handle, below, hstack, hobject, hs₁⟩ := popStorageContext_ok hcontext
  have hpopped : s.Within steady contents (fun _ => False) s₁ :=
    (popObject_quiet _ _).run hcontext
  obtain ⟨⟨⟩, s₂, hvalid, hrest⟩ := exists_of_run_bind hrest
  obtain ⟨hmachine, -⟩ := requireValidContext_ok hstore (hpopped.coherent hs).faithful hvalid
  have hquiet := IsTrans.trans _ _ _ hpopped ((requireValidContext_quiet hstore context).run hvalid)
  obtain ⟨key, s₃, hkey, hrest⟩ := exists_of_run_bind hrest
  obtain ⟨operand, rest, hstack₂, hbytes, rfl⟩ := popBytes_ok hkey
  obtain ⟨found, s₄, hfound, hpush⟩ := exists_of_run_bind hrest
  obtain ⟨hread, hmachine₄⟩ := onSnapshot_ok hfound
  have hfaithful := (hquiet.coherent hs).faithful
  refine ⟨context.storageKey key, rest, ?_, ?_⟩
  · rw [hmachine, hs₁] at hstack₂
    change below = operand :: rest at hstack₂
    rw [Machine.addressed?, hstack, hstack₂]
    simp [hobject, HostObject.storageContext?, hbytes]
  · rw [← hquiet.stored fun _ => id, stored]
    cases found with
    | none =>
      have hshown : s₂.shown contents (.storage (context.storageKey key)) = none :=
        Snapshot.view_of_getAs_none hstore hfaithful (congrArg Prod.fst hread)
      rw [push_ok hpush, hshown, hmachine₄]
      rfl
    | some item =>
      have hshown : s₂.shown contents (.storage (context.storageKey key)) =
          some (.storageItem item) :=
        Snapshot.readStorageItem_shows hstore hfaithful (congrArg Prod.fst hread)
      rw [push_ok hpush, hshown, hmachine₄]
      rfl

end Call

namespace Session

variable {σ : Type} [StateReader σ] {steady : σ → Prop} {contents : StateKey → Option StoredValue}

theorem stored_after (hstore : Serves steady contents) {s : Session σ}
    (hs : s.workspace.Coherent steady contents) (event : SessionEvent) :
    (s.after event).stored contents =
      s.entriesAfterEvent contents (s.stored contents) event := by
  cases event with
  | call f => exact Call.stored_perform hstore hs f
  | machine machine heap => rfl
  | created contract creator => rfl

theorem stored_afterAll (hstore : Serves steady contents) {s : Session σ}
    (hs : s.workspace.Coherent steady contents) (events : List SessionEvent) :
    (s.afterAll events).workspace.Coherent steady contents ∧
      (s.afterAll events).stored contents = s.follow contents (s.stored contents) events := by
  induction events generalizing s with
  | nil => exact ⟨hs, rfl⟩
  | cons event events ih =>
    obtain ⟨hcoherent, hstored⟩ := ih (coherent_after hstore hs event)
    refine ⟨hcoherent, hstored.trans ?_⟩
    rw [stored_after hstore hs event]
    rfl

end Session

/-- Over a store of steady contents, and after any events from a session whose cache agrees with
store and log, a call that reads storage and succeeds pushes the entry that its context and key
name: what the map holds that starts with the entries shown and follows the successful calls, or the
empty byte string. An entry of that map changes only in a call through a context of its contract, or
when its contract destroys itself. -/
theorem Call.storage_map {σ : Type} [StateReader σ] {steady : σ → Prop}
    {contents : StateKey → Option StoredValue} (hstore : Serves steady contents) {s : Session σ}
    (hs : s.workspace.Coherent steady contents) (events : List SessionEvent) :
    let s' := s.afterAll events
    let entries := s.follow contents (s.stored contents) events
    (((perform .storageGet).run s').1 = .ok () →
      ∃ key rest, s'.machine.addressed? = some (key, rest) ∧
        ((perform .storageGet).run s').2.machine.stack =
          .byteString ((entries key).getD []) :: rest) ∧
    ∀ f key, s'.entriesAfterEvent contents entries (.call f) key ≠ entries key →
      s'.Reaches key.scriptHash f := by
  intro s' entries
  obtain ⟨hs', hstored⟩ := Session.stored_afterAll hstore hs events
  change s'.stored contents = entries at hstored
  refine ⟨fun hok => ?_, fun f key hne => ?_⟩
  · rw [← hstored]
    exact storageGet_ok hstore hs' (Prod.ext hok rfl)
  · rw [Session.entriesAfterEvent] at hne
    split at hne
    · exact Session.reaches_of_entriesAfter_ne hne
    · exact absurd rfl hne

/-- What is stored under the bytes of a key is read back under the same number, through another
context of the contract. -/
theorem Call.storage_map_readBack :
    let context : HostObject := .storageContext ⟨default, true⟩
    let s' := (Session.storing .application).afterAll
      [.call .storagePut, .machine ⟨[.handle ⟨1, context⟩, .integer 1], default, none⟩ .empty]
    ((perform .storageGet).run s').2.machine.stack = [.byteString [2]] := by
  intro context s'
  have hcoherent : (Session.storing .application).workspace.Coherent
      (· = (Session.storing .application).store) (Session.storing .application).store.get? :=
    ⟨⟨rfl, fun e he => by cases he⟩, .new _ _ _⟩
  obtain ⟨hget, -⟩ := storage_map (MemoryStore.serves _) hcoherent
    [.call .storagePut, .machine ⟨[.handle ⟨1, context⟩, .integer 1], default, none⟩ .empty]
  obtain ⟨key, rest, haddressed, hstack⟩ := hget rfl
  have hnamed : some (⟨default, [1]⟩, []) = some (key, rest) := haddressed
  cases hnamed
  exact hstack

end ContractHost
