import Mathlib.Logic.Relation
import ContractHost.Proofs.Host.Operands
import ContractHost.Proofs.State.Committing

/-!
# Who may write

A key changes in a call only if the call has the authority for it. Storing and deleting take a
trigger that permits writing and a context of a contract with storage that is not read-only, and
reach one key of that contract; destroying takes the application trigger and reaches the running
contract and its storage.
-/

namespace ContractHost

namespace Session

variable {σ : Type} (contents : StateKey → Option StoredValue)

/-- What a session shows under a key. -/
def shown (s : Session σ) (key : StateKey) : Option StoredValue :=
  s.snapshot.cache.view contents key

/-- The top operands are a context to write through and a key, under a trigger that permits it, and
the contract of the context is there and has storage. -/
structure Writable (s : Session σ) (context : StorageContext) (key : Bytes) : Prop where
  trigger : s.service.trigger.isMutating = true
  operands : ∃ handle operand rest, s.machine.stack = .handle handle :: operand :: rest ∧
    handle.object = .storageContext context ∧ operand.bytes? = some key
  notReadOnly : context.readOnly = false
  contract : ∃ contract, s.shown contents (.contract context.scriptHash) =
    some (.contract contract) ∧ contract.hasStorage = true

/-- The keys that a call of a host function may change. -/
inductive Permits (s : Session σ) : HostFunction → StateKey → Prop
  | put {context : StorageContext} {key : Bytes} (h : s.Writable contents context key)
      (hsize : key.length ≤ s.service.config.maxStorageKeySize.toNat) :
      Permits s .storagePut (.storage (context.storageKey key))
  | delete {context : StorageContext} {key : Bytes} (h : s.Writable contents context key) :
      Permits s .storageDelete (.storage (context.storageKey key))
  | destroyContract (h : s.service.trigger = .application) :
      Permits s .contractDestroy (.contract s.machine.scriptHash)
  | destroyStorage (h : s.service.trigger = .application) (key : StorageKey)
      (howner : key.scriptHash = s.machine.scriptHash) : Permits s .contractDestroy (.storage key)

end Session

namespace Call

open Session

variable {σ : Type}

theorem popStorageContext_ok {s s' : Session σ} {context : StorageContext}
    (h : popStorageContext.run s = (.ok context, s')) :
    ∃ handle rest, s.machine.stack = .handle handle :: rest ∧
      handle.object = .storageContext context ∧
      s' = { s with machine := { s.machine with stack := rest } } := by
  obtain ⟨handle, rest, hstack, hobject, hafter⟩ := popObject_ok h
  refine ⟨handle, rest, hstack, ?_, hafter⟩
  cases hkind : handle.object <;> rw [hkind] at hobject <;> cases hobject
  rfl

private theorem requireMutatingTrigger_ok {s s' : Session σ}
    (h : requireMutatingTrigger.run s = (.ok (), s')) :
    s' = s ∧ s.service.trigger.isMutating = true := by
  obtain ⟨t, middle, hget, hrest⟩ := exists_of_run_bind h
  cases hget
  dsimp only at hrest
  split at hrest
  next hmutating =>
    cases hrest
    exact ⟨rfl, hmutating⟩
  next => cases hrest

section

variable [StateReader σ] {steady : σ → Prop} {contents : StateKey → Option StoredValue}
  (hstore : Serves steady contents) {s s' : Session σ}
  (hs : s.workspace.Faithful steady contents)

include hstore hs

theorem requireValidContext_ok {context : StorageContext}
    (h : (requireValidContext context).run s = (.ok (), s')) :
    s'.machine = s.machine ∧ ∃ contract, s.shown contents (.contract context.scriptHash) =
      some (.contract contract) ∧ contract.hasStorage = true := by
  obtain ⟨valid, middle, hvalid, hrest⟩ := exists_of_run_bind h
  obtain ⟨found, middle', hfound, hresult⟩ := exists_of_run_bind hvalid
  obtain ⟨hread, hmachine⟩ := onSnapshot_ok hfound
  cases found with
  | none =>
    cases hresult
    cases hrest
  | some contract =>
    cases hresult
    have hcontract := Snapshot.readContract_shows hstore hs (congrArg Prod.fst hread)
    split at hrest
    next hstorage =>
      cases hrest
      exact ⟨hmachine, contract, hcontract, hstorage⟩
    next => cases hrest

theorem popWritableContext_ok {context : StorageContext}
    (h : popWritableContext.run s = (.ok context, s')) :
    s.service.trigger.isMutating = true ∧ context.readOnly = false ∧
      (∃ handle, s.machine.stack = .handle handle :: s'.machine.stack ∧
        handle.object = .storageContext context) ∧
      ∃ contract, s.shown contents (.contract context.scriptHash) = some (.contract contract) ∧
        contract.hasStorage = true := by
  obtain ⟨⟨⟩, middle, htrigger, hrest⟩ := exists_of_run_bind h
  obtain ⟨hsame, hmutating⟩ := requireMutatingTrigger_ok htrigger
  subst hsame
  obtain ⟨popped, after, hpop, hrest⟩ := exists_of_run_bind hrest
  obtain ⟨handle, rest, hstack, hobject, hafter⟩ := popStorageContext_ok hpop
  have hs' : after.workspace.Faithful steady contents := by
    rw [hafter]
    exact hs
  split at hrest
  next => cases hrest
  next hreadOnly =>
    obtain ⟨⟨⟩, last, hvalid, hresult⟩ := exists_of_run_bind hrest
    obtain ⟨hmachine, hcontract⟩ := requireValidContext_ok hstore hs' hvalid
    cases hresult
    rw [hafter] at hmachine hcontract
    refine ⟨hmutating, by simpa using hreadOnly, ⟨handle, ?_, hobject⟩, hcontract⟩
    rw [hmachine]
    exact hstack

theorem storagePut_within :
    s.Within steady contents (s.Permits contents .storagePut) (storagePut.run s).2 := by
  refine related_bind (popWritableContext_quiet hstore s) fun context s₁ hcontext h₁ => ?_
  obtain ⟨htrigger, hwritable, ⟨handle, hstack, hobject⟩, hcontract⟩ :=
    popWritableContext_ok hstore hs hcontext
  refine related_bind (IsTrans.trans _ _ _ h₁ (popBytes_quiet s₁)) fun key s₂ hkey h₂ => ?_
  obtain ⟨operand, rest, hstack₁, hbytes, -⟩ := popBytes_ok hkey
  refine related_bind (IsTrans.trans _ _ _ h₂ (config_moves s₂)) fun config s₃ hconfig h₃ => ?_
  cases hconfig
  dsimp only
  split
  · exact h₃
  next hsize =>
    refine related_bind (IsTrans.trans _ _ _ h₃ (popBytes_quiet s₂)) fun value s₄ _ h₄ => ?_
    have hauthority : s.Writable contents context key :=
      ⟨htrigger, ⟨handle, operand, rest, by rw [hstack, hstack₁], hobject, hbytes⟩, hwritable,
        hcontract⟩
    rw [h₂.config, Nat.not_lt] at hsize
    have hpermits := Permits.put hauthority hsize
    exact IsTrans.trans _ _ _ h₄ (onSnapshot_within (Snapshot.write_within hpermits _) s₄)

theorem storageDelete_within :
    s.Within steady contents (s.Permits contents .storageDelete) (storageDelete.run s).2 := by
  refine related_bind (popWritableContext_quiet hstore s) fun context s₁ hcontext h₁ => ?_
  obtain ⟨htrigger, hwritable, ⟨handle, hstack, hobject⟩, hcontract⟩ :=
    popWritableContext_ok hstore hs hcontext
  refine related_bind (IsTrans.trans _ _ _ h₁ (popBytes_quiet s₁)) fun key s₂ hkey h₂ => ?_
  obtain ⟨operand, rest, hstack₁, hbytes, -⟩ := popBytes_ok hkey
  have hread := Snapshot.getAs_quiet hstore StoredValue.toStorageItem
    (.storage (context.storageKey key))
  refine related_bind (IsTrans.trans _ _ _ h₂ (onSnapshot_quiet hread s₂)) fun item s₃ _ h₃ => ?_
  cases item with
  | none => exact h₃
  | some item =>
    have hauthority : s.Writable contents context key :=
      ⟨htrigger, ⟨handle, operand, rest, by rw [hstack, hstack₁], hobject, hbytes⟩, hwritable,
        hcontract⟩
    have hpermits := Permits.delete hauthority
    exact IsTrans.trans _ _ _ h₃ (onSnapshot_within (Snapshot.prune_within hpermits) s₃)

theorem destroy_within {hash : ScriptHash} {keys : StateKey → Prop}
    (hcontract : s.service.trigger = .application → keys (.contract hash))
    (hstorage : s.service.trigger = .application →
      ∀ key : StorageKey, key.scriptHash = hash → keys (.storage key)) :
    s.Within steady contents keys ((destroy hash).run s).2 := by
  refine related_bind (Moves.get s) fun t s₁ ht h₁ => ?_
  cases ht
  dsimp only
  split
  · exact h₁
  next htrigger =>
    have htrigger := Decidable.not_not.mp htrigger
    have hread := Snapshot.getAs_quiet hstore StoredValue.toContract (.contract hash)
    refine related_bind (onSnapshot_quiet hread s) fun found s₂ _ h₂ => ?_
    cases found with
    | none => exact h₂
    | some contract =>
      refine related_bind (IsTrans.trans _ _ _ h₂
        (onSnapshot_within (Snapshot.prune_within (hcontract htrigger)) s₂)) fun _ s₃ _ h₃ => ?_
      split
      · rw [run_onSnapshot]
        have hpruned := Snapshot.pruneStorage_within hstore (hstorage htrigger)
          (h₃.workspace.faithful hs).steady
        exact IsTrans.trans _ _ _ h₃ ⟨hpruned, rfl, rfl⟩
      · exact h₃

theorem contractDestroy_within :
    s.Within steady contents (s.Permits contents .contractDestroy) (contractDestroy.run s).2 := by
  refine related_bind (currentScriptHash_moves s) fun hash s₁ hhash _ => ?_
  cases hhash
  exact destroy_within hstore hs .destroyContract .destroyStorage

/-- A call of any host function changes only the keys that it permits. -/
theorem perform_within (f : HostFunction) :
    s.Within steady contents (s.Permits contents f) ((perform f).run s).2 := by
  by_cases hput : f = .storagePut
  · subst hput
    exact storagePut_within hstore hs
  by_cases hdelete : f = .storageDelete
  · subst hdelete
    exact storageDelete_within hstore hs
  by_cases hdestroy : f = .contractDestroy
  · subst hdestroy
    exact contractDestroy_within hstore hs
  · exact perform_quiet hstore hput hdelete hdestroy s

end

end Call

namespace Session

variable {σ : Type} {steady : σ → Prop} {contents : StateKey → Option StoredValue}

theorem Within.mono {keys keys' : StateKey → Prop} {s s' : Session σ}
    (h : s.Within steady contents keys s') (hkeys : ∀ key, keys key → keys' key) :
    s.Within steady contents keys' s' := by
  obtain ⟨more, hmore, hmem⟩ := h.workspace.changes
  refine ⟨⟨h.workspace.faithful, h.workspace.tracked, fun key hkey => ?_, more, hmore,
    fun t ht => ?_⟩,
    h.trigger, h.config⟩
  · exact h.workspace.view key fun hin => hkey (hkeys key hin)
  · exact hkeys t.key (hmem t ht)

theorem Permits.isMutating {s : Session σ} {f : HostFunction} {key : StateKey}
    (h : s.Permits contents f key) : s.service.trigger.isMutating = true := by
  cases h with
  | put h _ | delete h => exact h.trigger
  | destroyContract h | destroyStorage h => rw [h]; rfl

theorem Permits.eq_storage {s : Session σ} {f : HostFunction} {key : StateKey}
    (h : s.Permits contents f key) (htrigger : s.service.trigger ≠ .application) :
    ∃ storageKey, key = .storage storageKey := by
  cases h with
  | put | delete => exact ⟨_, rfl⟩
  | destroyContract h | destroyStorage h => exact absurd h htrigger

variable [StateReader σ]

/-- What may happen in a session: a host function is called, the virtual machine goes on by itself,
or the creation of a contract is recorded. -/
inductive Step (s : Session σ) : Session σ → Prop
  | call (f : HostFunction) : Step s ((Call.perform f).run s).2
  | machine (machine : Machine) (heap : Heap) : Step s { s with machine := machine, heap := heap }
  | created (contract creator : ScriptHash) : Step s (s.recordCreated contract creator)

def Run : Session σ → Session σ → Prop := Relation.ReflTransGen Step

theorem Step.within (hstore : Serves steady contents) {s s' : Session σ} (h : s.Step s')
    (hs : s.workspace.Faithful steady contents) :
    s.Within steady contents (fun key => ∃ f, s.Permits contents f key) s' := by
  cases h with
  | call f => exact (Call.perform_within hstore hs f).mono fun key hkey => ⟨f, hkey⟩
  | machine machine heap => exact .of_eq rfl rfl rfl
  | created contract creator => exact .of_eq rfl rfl rfl

/-- A run changes only keys that its calls permit, under the trigger that it started with. -/
theorem Run.within (hstore : Serves steady contents) {s s' : Session σ} (hrun : s.Run s')
    (hs : s.workspace.Faithful steady contents) {keys : StateKey → Prop}
    (hkeys : ∀ middle : Session σ, middle.service.trigger = s.service.trigger →
      ∀ f key, middle.Permits contents f key → keys key) :
    s.Within steady contents keys s' := by
  induction hrun with
  | refl => exact refl s
  | tail _ hstep ih =>
    have hwithin := hstep.within hstore (ih.workspace.faithful hs)
    exact IsTrans.trans _ _ _ ih
      (hwithin.mono fun key ⟨f, hpermits⟩ => hkeys _ ih.trigger f key hpermits)

theorem Run.forall_changes (hstore : Serves steady contents) {s s' : Session σ} (hrun : s.Run s')
    (hs : s.workspace.Faithful steady contents) (hempty : s.snapshot.effects = [])
    (keys : StateKey → Prop)
    (hkeys : ∀ middle : Session σ, middle.service.trigger = s.service.trigger →
      ∀ f key, middle.Permits contents f key → keys key) :
    ∀ t ∈ s'.snapshot.effects.changes, keys t.key := by
  intro t ht
  obtain ⟨more, hmore, hmem⟩ := (hrun.within hstore hs hkeys).workspace.changes
  have hnew : s'.snapshot.effects.changes = s.snapshot.effects.changes ++ more := hmore
  rw [hnew, hempty] at ht
  exact hmem t ht

end Session

/-- Wherever a session has come to over a store of steady contents, a key that shows another value
after a call is one that the call permits: only storing, deleting and destroying permit any. If
nothing was logged at the start, a trigger that does not permit writing never lets a write or prune
into the log, so that a commit changes nothing; and only the application trigger lets in more than
storage keys. -/
theorem Call.write_authority {σ : Type} [StateReader σ] {steady : σ → Prop}
    {contents : StateKey → Option StoredValue} (hstore : Serves steady contents) {s s' : Session σ}
    (hs : s.workspace.Faithful steady contents) (hrun : s.Run s') :
    (∀ f key before after,
      ((Snapshot.get key).run s'.workspace).1 = .ok before →
      ((Snapshot.get key).run ((perform f).run s').2.workspace).1 = .ok after →
      before ≠ after → s'.Permits contents f key) ∧
    (s.snapshot.effects = [] →
      (s.service.trigger.isMutating = false → s'.snapshot.effects.changes = [] ∧
        ∀ base : MemoryStore, base.applyAll s'.snapshot.effects = base) ∧
      (s.service.trigger ≠ .application →
        ∀ t ∈ s'.snapshot.effects.changes, ∃ key, t.key = .storage key)) := by
  have hs' : s'.workspace.Faithful steady contents := by
    have hany : s.Within steady contents (fun _ => True) s' :=
      hrun.within hstore hs fun _ _ _ _ _ => trivial
    exact hany.workspace.faithful hs
  refine ⟨fun f key before after hbefore hafter hne => ?_, fun hempty => ⟨?_, ?_⟩⟩
  · have hcall := perform_within hstore hs' f
    have hshown := Snapshot.get_shows hstore hs' hbefore
    have hshown' := Snapshot.get_shows hstore (hcall.workspace.faithful hs') hafter
    refine Classical.byContradiction fun hkey => hne ?_
    rw [hshown, hshown']
    exact (hcall.workspace.view key hkey).symm
  · intro htrigger
    have hnothing : ∀ t ∈ s'.snapshot.effects.changes, False := by
      refine hrun.forall_changes hstore hs hempty (fun _ => False)
        fun middle hsame f key hpermits => ?_
      have hmutating := hpermits.isMutating
      rw [hsame, htrigger] at hmutating
      cases hmutating
    have hnone := List.eq_nil_iff_forall_not_mem.mpr hnothing
    exact ⟨hnone, MemoryStore.applyAll_of_changes_eq_nil hnone⟩
  · intro htrigger
    refine hrun.forall_changes hstore hs hempty (fun key => ∃ storageKey, key = .storage storageKey)
      fun middle hsame f key hpermits => ?_
    exact hpermits.eq_storage (by rwa [hsame])

/-- A contract with storage, and a call about to store the value two under its key one. -/
def Session.storing (trigger : Trigger) : Session MemoryStore where
  service := .new trigger default .session
  snapshot := .new
  store := .ofPairs [(.contract default, .contract ⟨[], true, false, false, ""⟩)]
  machine := ⟨[.handle ⟨0, .storageContext ⟨default, false⟩⟩, .byteString [1], .byteString [2]],
    default, none⟩
  heap := .empty
  delivered := []
  released := []

theorem Call.write_authority_storing :
    (Session.storing .application).Permits (Session.storing .application).store.get? .storagePut
      (.storage ⟨default, [1]⟩) ∧
    ((perform .storagePut).run (Session.storing .verification)).2.snapshot.effects.changes = [] := by
  have hfresh : ∀ trigger, (Session.storing trigger).workspace.Faithful
      (· = (Session.storing trigger).store) (Session.storing trigger).store.get? :=
    fun trigger => ⟨rfl, fun e he => by cases he⟩
  constructor
  · have hauthority := write_authority (MemoryStore.serves _) (hfresh .application)
      Relation.ReflTransGen.refl
    exact hauthority.1 .storagePut (.storage ⟨default, [1]⟩) none (some (.storageItem ⟨[2]⟩))
      rfl rfl (by decide)
  · have hauthority := write_authority (MemoryStore.serves _) (hfresh .verification)
      (Relation.ReflTransGen.single (.call .storagePut))
    exact ((hauthority.2 rfl).1 rfl).1

end ContractHost
