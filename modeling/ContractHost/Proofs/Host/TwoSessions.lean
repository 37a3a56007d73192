import ContractHost.Proofs.Host.Events
import ContractHost.Proofs.State.TwoSnapshots

/-!
# Two sessions that differ in the storage of one contract

Most host functions look at keys that are not storage keys, or at no key at all. Called in two
sessions that are alike but for the storage of one contract, they end alike. Each is put together
from parts that do.
-/

namespace ContractHost

/-- Two sessions that differ only in hidden keys, in what was logged and made known before, and in
where their events go and what they release. -/
structure Comparison.AlikeSessions {σ τ : Type} (c : Comparison σ τ)
    (before before' : List Notification) (s : Session σ) (t : Session τ) : Prop where
  workspace : c.Alike s.workspace t.workspace
  trigger : s.service.trigger = t.service.trigger
  config : s.service.config = t.service.config
  created : ∀ contract : ScriptHash, s.service.created[contract]? = t.service.created[contract]?
  machine : s.machine = t.machine
  heap : s.heap = t.heap
  notifications : ∃ new, s.service.notifications = before ++ new ∧
    t.service.notifications = before' ++ new

namespace Call

variable {σ τ α β : Type} {c : Comparison σ τ} {before before' : List Notification}

theorem onSnapshot_matches {step : SnapshotM σ α} {step' : SnapshotM τ α}
    (h : Matches c.Alike step step') :
    Matches (c.AlikeSessions before before') (onSnapshot step) (onSnapshot step') := by
  intro s t hst
  obtain ⟨hresult, hworkspace⟩ := h s.workspace t.workspace hst.workspace
  rw [MatchesAt, run_onSnapshot, run_onSnapshot, hresult]
  exact ⟨rfl, { hst with workspace := hworkspace }⟩

theorem onHeap_matches (step : Heap → α × Heap) :
    Matches (c.AlikeSessions before before') (onHeap step) (onHeap step) := by
  refine .modifyGet fun s t hst => ?_
  dsimp only
  rw [hst.heap]
  exact ⟨rfl, { hst with heap := rfl }⟩

theorem setStack_matches (stack : List StackValue) :
    Matches (c.AlikeSessions before before') (setStack stack) (setStack stack) := by
  refine .modifyGet fun s t hst => ⟨rfl, { hst with machine := ?_ }⟩
  dsimp only
  rw [hst.machine]

theorem push_matches (value : StackValue) :
    Matches (c.AlikeSessions before before') (push value) (push value) := by
  refine .modifyGet fun s t hst => ⟨rfl, { hst with machine := ?_ }⟩
  dsimp only
  rw [hst.machine]

theorem pushObject_matches (object : HostObject) :
    Matches (c.AlikeSessions before before') (pushObject object) (pushObject object) :=
  (onHeap_matches _).bind push_matches

theorem pushFound_matches (found : Option HostObject) :
    Matches (c.AlikeSessions before before') (pushFound found) (pushFound found) := by
  cases found with
  | some object => exact pushObject_matches object
  | none => exact push_matches _

theorem currentScriptHash_matches :
    Matches (c.AlikeSessions before before') currentScriptHash currentScriptHash := by
  refine .get_bind fun s t hst => ?_
  rw [hst.machine]
  exact Matches.pure _ s t hst

theorem config_matches : Matches (c.AlikeSessions before before') config config := by
  refine .get_bind fun s t hst => ?_
  rw [hst.config]
  exact Matches.pure _ s t hst

theorem pop_matches : Matches (c.AlikeSessions before before') pop pop := by
  refine .get_bind fun s t hst => ?_
  rw [hst.machine]
  split
  · exact Matches.throw _ s t hst
  · exact (setStack_matches _).bind (fun _ => .pure _) s t hst

theorem popBytes_matches : Matches (c.AlikeSessions before before') popBytes popBytes := by
  refine pop_matches.bind fun value => ?_
  split
  · exact .pure _
  · exact .throw _

theorem popInteger_matches : Matches (c.AlikeSessions before before') popInteger popInteger := by
  refine pop_matches.bind fun value => ?_
  split
  · exact .pure _
  · exact .throw _

theorem popHandle_matches : Matches (c.AlikeSessions before before') popHandle popHandle := by
  refine pop_matches.bind fun value => ?_
  split
  · exact .pure _
  · exact .throw _

theorem expectObject_matches (kind : ObjectKind) (accessor : HostObject → Option α)
    (handle : Handle) :
    Matches (c.AlikeSessions before before') (expectObject kind accessor handle)
      (expectObject kind accessor handle) := by
  unfold expectObject
  split
  · exact .pure _
  · exact .throw _

theorem popObject_matches (kind : ObjectKind) (accessor : HostObject → Option α) :
    Matches (c.AlikeSessions before before') (do expectObject kind accessor (← popHandle))
      (do expectObject kind accessor (← popHandle)) :=
  popHandle_matches.bind fun handle => expectObject_matches kind accessor handle

theorem fixedOperand_matches (n : Nat) (operand : SizedOperand) (bytes : Bytes) :
    Matches (c.AlikeSessions before before') (fixedOperand n operand bytes)
      (fixedOperand n operand bytes) := by
  unfold fixedOperand
  split
  · exact .pure _
  · exact .throw _

theorem deliver_matches (event : HostEvent) :
    Matches (c.AlikeSessions before before') (deliver event) (deliver event) := by
  refine .modifyGet fun s t hst => ⟨rfl, ?_⟩
  cases hs : s.service.sink <;> cases ht : t.service.sink <;> simp only [hs, ht] <;>
    exact { hst with }

private theorem note_matches (notification : Notification) :
    Matches (c.AlikeSessions before before')
      (modify fun s => { s with service :=
        { s.service with notifications := s.service.notifications ++ [notification] } } : Call σ Unit)
      (modify fun t => { t with service :=
        { t.service with notifications := t.service.notifications ++ [notification] } } :
          Call τ Unit) := by
  refine .modifyGet fun s t hst => ⟨rfl, ?_⟩
  obtain ⟨new, hs, ht⟩ := hst.notifications
  refine { hst with notifications := ⟨new ++ [notification], ?_, ?_⟩ }
  · rw [← List.append_assoc, ← hs]
  · rw [← List.append_assoc, ← ht]

theorem notify_matches : Matches (c.AlikeSessions before before') notify notify := by
  refine pop_matches.bind fun state => .get_bind fun s t hst => ?_
  rw [hst.machine]
  exact (deliver_matches _).bind (fun _ => note_matches _) s t hst

theorem log_matches : Matches (c.AlikeSessions before before') log log := by
  refine popBytes_matches.bind fun bytes => .get_bind fun s t hst => ?_
  rw [hst.machine]
  exact deliver_matches _ s t hst

theorem serialize_matches : Matches (c.AlikeSessions before before') serialize serialize := by
  refine pop_matches.bind fun value => .get_bind fun s t hst => ?_
  rw [hst.heap]
  refine config_matches.bind (fun config => ?_) s t hst
  split
  · exact push_matches _
  · exact .throw _

private theorem setHeap_matches (heap : Heap) :
    Matches (c.AlikeSessions before before') (modify fun s => { s with heap := heap } : Call σ Unit)
      (modify fun t => { t with heap := heap } : Call τ Unit) :=
  .modifyGet fun _ _ hst => ⟨rfl, { hst with heap := rfl }⟩

theorem deserialize_matches : Matches (c.AlikeSessions before before') deserialize deserialize := by
  refine popBytes_matches.bind fun bytes => config_matches.bind fun config =>
    .get_bind fun s t hst => ?_
  rw [hst.heap]
  split
  · exact (setHeap_matches _).bind (fun _ => push_matches _) s t hst
  · exact Matches.throw _ s t hst

theorem headerField_matches (value : Header → StackValue) :
    Matches (c.AlikeSessions before before') (do push (value (← popHeader)))
      (do push (value (← popHeader))) :=
  (popObject_matches _ _).bind fun _ => push_matches _

theorem transactionCount_matches :
    Matches (c.AlikeSessions before before') transactionCount transactionCount :=
  (popObject_matches _ _).bind fun _ => push_matches _

theorem transactionHash_matches :
    Matches (c.AlikeSessions before before') transactionHash transactionHash :=
  (popObject_matches _ _).bind fun _ => push_matches _

theorem blockTransactions_matches :
    Matches (c.AlikeSessions before before') blockTransactions blockTransactions := by
  refine (popObject_matches _ _).bind fun block => config_matches.bind fun config => ?_
  dsimp only
  split
  · exact .throw _
  · exact (Matches.mapM (fun object => onHeap_matches _) _).bind fun handles =>
      (onHeap_matches _).bind fun value => push_matches value

theorem blockTransaction_matches :
    Matches (c.AlikeSessions before before') blockTransaction blockTransaction := by
  refine popHandle_matches.bind fun handle => popInteger_matches.bind fun index =>
    (expectObject_matches _ _ _).bind fun block => ?_
  split
  · exact pushObject_matches _
  · exact .throw _

theorem newContext_matches (readOnly : Bool) :
    Matches (c.AlikeSessions before before') (newContext readOnly) (newContext readOnly) :=
  currentScriptHash_matches.bind fun _ => pushObject_matches _

theorem contextAsReadOnly_matches :
    Matches (c.AlikeSessions before before') contextAsReadOnly contextAsReadOnly := by
  refine popHandle_matches.bind fun handle => (expectObject_matches _ _ _).bind fun context => ?_
  split
  · exact push_matches _
  · exact pushObject_matches _

theorem contractContext_matches :
    Matches (c.AlikeSessions before before') contractContext contractContext := by
  refine (popObject_matches _ _).bind fun contract => currentScriptHash_matches.bind fun caller =>
    Matches.bind (.get_bind fun s t hst => ?_) fun context => pushObject_matches _
  rw [hst.created]
  split
  · exact Matches.pure _ s t hst
  · exact Matches.throw _ s t hst

theorem accountOf_matches (operand : Bytes) :
    Matches (c.AlikeSessions before before') (accountOf operand) (accountOf operand) := by
  unfold accountOf
  split
  · split
    · exact .pure _
    · exact .throw _
  · exact (fixedOperand_matches _ _ _).bind fun _ => .pure _

theorem trigger_matches : Matches (c.AlikeSessions before before') trigger trigger := by
  refine .get_bind fun s t hst => ?_
  rw [hst.trigger]
  exact push_matches _ s t hst

theorem requireMutatingTrigger_matches :
    Matches (c.AlikeSessions before before') requireMutatingTrigger requireMutatingTrigger := by
  refine .get_bind fun s t hst => ?_
  rw [hst.trigger]
  dsimp only
  split
  · exact Matches.pure _ s t hst
  · exact Matches.throw _ s t hst

section

variable [StateReader σ] [StateReader τ] (hc : c.Reliable)

include hc

theorem blockHashOf_matches (operand : Bytes) :
    Matches (c.AlikeSessions before before') (blockHashOf operand) (blockHashOf operand) := by
  unfold blockHashOf
  split
  · dsimp only
    split
    · exact onSnapshot_matches (Snapshot.getAs_matches hc _ (c.not_hidden rfl))
    · exact .throw _
  · exact (fixedOperand_matches _ _ _).bind fun _ => .pure _

theorem getHeight_matches : Matches (c.AlikeSessions before before') getHeight getHeight := by
  refine (onSnapshot_matches (Snapshot.getAs_matches hc _ (c.not_hidden rfl))).bind fun tip => ?_
  split
  · exact push_matches _
  · exact .throw _

theorem getByBlockHash_matches {lookUp : BlockHash → SnapshotM σ (Option HostObject)}
    {lookUp' : BlockHash → SnapshotM τ (Option HostObject)}
    (h : ∀ hash, Matches c.Alike (lookUp hash) (lookUp' hash)) :
    Matches (c.AlikeSessions before before') (getByBlockHash lookUp) (getByBlockHash lookUp') := by
  refine popBytes_matches.bind fun operand => (blockHashOf_matches hc operand).bind fun hash => ?_
  split
  · exact pushFound_matches _
  · exact (onSnapshot_matches (h _)).bind fun found => pushFound_matches found

theorem getHeader_matches : Matches (c.AlikeSessions before before') getHeader getHeader :=
  getByBlockHash_matches hc fun _ =>
    (Snapshot.getAs_matches hc _ (c.not_hidden rfl)).bind fun _ => .pure _

theorem getBlock_matches : Matches (c.AlikeSessions before before') getBlock getBlock :=
  getByBlockHash_matches hc fun _ =>
    (Snapshot.readBlock_matches hc (c.not_hidden rfl)).bind fun _ => .pure _

theorem findTransaction_matches :
    Matches (c.AlikeSessions before before') findTransaction findTransaction :=
  popBytes_matches.bind fun _ => (fixedOperand_matches _ _ _).bind fun _ =>
    onSnapshot_matches (Snapshot.getAs_matches hc _ (c.not_hidden rfl))

theorem getTransaction_matches :
    Matches (c.AlikeSessions before before') getTransaction getTransaction :=
  (findTransaction_matches hc).bind fun _ => pushFound_matches _

theorem getTransactionHeight_matches :
    Matches (c.AlikeSessions before before') getTransactionHeight getTransactionHeight := by
  refine (findTransaction_matches hc).bind fun state => ?_
  split
  · exact push_matches _
  · exact push_matches _

theorem getContract_matches : Matches (c.AlikeSessions before before') getContract getContract :=
  popBytes_matches.bind fun _ => (fixedOperand_matches _ _ _).bind fun _ =>
    (onSnapshot_matches (Snapshot.getAs_matches hc _ (c.not_hidden rfl))).bind fun _ =>
      pushFound_matches _

theorem time_matches : Matches (c.AlikeSessions before before') time time := by
  refine .get_bind fun s t hst => ?_
  have hpersisting : s.snapshot.persisting = t.snapshot.persisting := hst.workspace.persisting
  rw [hpersisting]
  split
  · exact Matches.pure _ s t hst
  · refine (onSnapshot_matches (Snapshot.getAs_matches hc _ (c.not_hidden rfl))).bind
      (fun tip => ?_) s t hst
    split
    · exact .throw _
    · refine (onSnapshot_matches (Snapshot.getAs_matches hc _ (c.not_hidden rfl))).bind
        fun header => ?_
      split
      · exact .throw _
      · exact config_matches.bind fun _ => .pure _

theorem getTime_matches : Matches (c.AlikeSessions before before') getTime getTime :=
  (time_matches hc).bind fun _ => push_matches _

theorem witnesses_matches (container : ScriptContainer) :
    Matches (c.AlikeSessions before before') (witnesses container) (witnesses container) := by
  cases container with
  | transaction transaction => exact .pure _
  | block block =>
    dsimp only [witnesses]
    split
    · exact .pure _
    · refine (onSnapshot_matches (Snapshot.getAs_matches hc _ (c.not_hidden rfl))).bind
        fun parent => ?_
      split
      · exact .pure _
      · exact .throw _

theorem checkWitness_matches :
    Matches (c.AlikeSessions before before') checkWitness checkWitness := by
  refine popBytes_matches.bind fun operand => (accountOf_matches operand).bind fun account =>
    .get_bind fun s t hst => ?_
  rw [hst.machine]
  split
  · exact Matches.throw _ s t hst
  · exact ((witnesses_matches hc _).bind fun _ => .pure _).bind (fun _ => push_matches _) s t hst

theorem requireValidContext_matches (context : StorageContext) :
    Matches (c.AlikeSessions before before') (requireValidContext context)
      (requireValidContext context) := by
  have hvalid : Matches (c.AlikeSessions before before') (isValidContext context)
      (isValidContext context) := by
    refine (onSnapshot_matches (Snapshot.getAs_matches hc _ (c.not_hidden rfl))).bind
      fun contract => ?_
    split
    · exact .pure _
    · exact .pure _
  refine hvalid.bind fun valid => ?_
  split
  · exact .pure _
  · exact .throw _

/-- Host functions other than those for storage entries, and destroying, end alike. -/
theorem perform_matches {f : HostFunction} (hget : f ≠ .storageGet) (hput : f ≠ .storagePut)
    (hdelete : f ≠ .storageDelete) (hdestroy : f ≠ .contractDestroy) :
    Matches (c.AlikeSessions before before') (perform f) (perform f) := by
  cases f with
  | storageGet => exact absurd rfl hget
  | storagePut => exact absurd rfl hput
  | storageDelete => exact absurd rfl hdelete
  | contractDestroy => exact absurd rfl hdestroy
  | runtimePlatform => exact push_matches _
  | runtimeGetTrigger => exact trigger_matches
  | runtimeCheckWitness => exact checkWitness_matches hc
  | runtimeNotify => exact notify_matches
  | runtimeLog => exact log_matches
  | runtimeGetTime => exact getTime_matches hc
  | runtimeSerialize => exact serialize_matches
  | runtimeDeserialize => exact deserialize_matches
  | blockchainGetHeight => exact getHeight_matches hc
  | blockchainGetHeader => exact getHeader_matches hc
  | blockchainGetBlock => exact getBlock_matches hc
  | blockchainGetTransaction => exact getTransaction_matches hc
  | blockchainGetTransactionHeight => exact getTransactionHeight_matches hc
  | blockchainGetContract => exact getContract_matches hc
  | headerGetIndex => exact headerField_matches _
  | headerGetHash => exact headerField_matches _
  | headerGetPrevHash => exact headerField_matches _
  | headerGetTimestamp => exact headerField_matches _
  | blockGetTransactionCount => exact transactionCount_matches
  | blockGetTransactions => exact blockTransactions_matches
  | blockGetTransaction => exact blockTransaction_matches
  | transactionGetHash => exact transactionHash_matches
  | contractGetStorageContext => exact contractContext_matches
  | storageGetContext => exact newContext_matches _
  | storageGetReadOnlyContext => exact newContext_matches _
  | storageContextAsReadOnly => exact contextAsReadOnly_matches

end

end Call

end ContractHost
