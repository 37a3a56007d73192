import ContractHost.Host.Invoke
import ContractHost.Proofs.State.View

/-!
# What calls are put together from

A host function takes operands off the stack, looks keys up, and pushes what it makes. A relation
that holds between a session and whatever becomes of it by such parts holds however the function
ends. The functions that store, delete and destroy also change the state, and two raise events.
-/

namespace ContractHost

namespace Session

variable {σ : Type}

def workspace (s : Session σ) : Workspace σ := ⟨s.snapshot, s.store⟩

def onWorkspace (s : Session σ) (w : Workspace σ) : Session σ :=
  { s with snapshot := w.snapshot, store := w.store }

/-- The relation holds whatever becomes of the snapshot and its store, if that is related. -/
structure Reading (R : Session σ → Session σ → Prop) (Q : Workspace σ → Workspace σ → Prop) :
    Prop where
  onWorkspace : ∀ s w, Q s.workspace w → R s (s.onWorkspace w)

/-- The relation also holds whatever becomes of the virtual machine and the heap. -/
structure Working (R : Session σ → Session σ → Prop) (Q : Workspace σ → Workspace σ → Prop) : Prop
    extends Reading R Q where
  onMachine : ∀ s machine heap, R s { s with machine := machine, heap := heap }

end Session

namespace Call

open Session

variable {σ α : Type}

theorem run_get (s : Session σ) : (MonadState.get : Call σ (Session σ)).run s = (.ok s, s) := rfl

theorem run_config (s : Session σ) : config.run s = (.ok s.service.config, s) := rfl

theorem run_onSnapshot (step : SnapshotM σ α) (s : Session σ) :
    (onSnapshot step).run s =
      ((step.run s.workspace).1.mapError .storage,
        { s with
          snapshot := (step.run s.workspace).2.snapshot
          store := (step.run s.workspace).2.store }) := by
  unfold workspace
  rw [onSnapshot, run_bind, run_modifyGet]
  rcases step.run ⟨s.snapshot, s.store⟩ with ⟨e | a, w⟩ <;> rfl

variable {R : Session σ → Session σ → Prop} {Q : Workspace σ → Workspace σ → Prop}

theorem onSnapshot_moves (h : Reading R Q) {step : SnapshotM σ α} (hstep : Moves Q step) :
    Moves R (onSnapshot step) := by
  intro s
  rw [run_onSnapshot]
  exact h.onWorkspace s _ (hstep s.workspace)

theorem readAs_moves [StateReader σ] [IsPreorder (Workspace σ) Q] (h : Reading R Q)
    (hget : ∀ key, Moves Q (Snapshot.get key : SnapshotM σ _))
    (convert : StoredValue → Except TypeMismatch α) (key : StateKey) :
    Moves R (onSnapshot (Snapshot.getAs convert key)) :=
  onSnapshot_moves h (Snapshot.getAs_moves (hget key) convert)

theorem onHeap_moves (h : Working R Q) (step : Heap → α × Heap) :
    Moves R (onHeap step : Call σ α) :=
  .modifyGet fun s => h.onMachine s s.machine _

theorem setStack_moves (h : Working R Q) (stack : List StackValue) :
    Moves R (setStack stack : Call σ Unit) :=
  .modifyGet fun s => h.onMachine s _ s.heap

theorem push_moves (h : Working R Q) (value : StackValue) : Moves R (push value : Call σ Unit) :=
  .modifyGet fun s => h.onMachine s _ s.heap

variable [IsPreorder (Session σ) R]

/-! ## Checks -/

theorem config_moves : Moves R (config : Call σ EngineConfig) := Moves.get.bind fun _ => .pure _

theorem currentScriptHash_moves : Moves R (currentScriptHash : Call σ ScriptHash) :=
  Moves.get.bind fun _ => .pure _

theorem expectObject_moves (kind : ObjectKind) (accessor : HostObject → Option α)
    (handle : Handle) : Moves R (expectObject kind accessor handle : Call σ α) := by
  unfold expectObject
  split
  · exact .pure _
  · exact .throw _

theorem fixedOperand_moves (n : Nat) (operand : SizedOperand) (bytes : Bytes) :
    Moves R (fixedOperand n operand bytes : Call σ (FixedBytes n)) := by
  unfold fixedOperand
  split
  · exact .pure _
  · exact .throw _

theorem accountOf_moves (operand : Bytes) : Moves R (accountOf operand : Call σ ScriptHash) := by
  unfold accountOf
  split
  · split
    · exact .pure _
    · exact .throw _
  · exact (fixedOperand_moves _ _ _).bind fun _ => .pure _

theorem requireMutatingTrigger_moves : Moves R (requireMutatingTrigger : Call σ Unit) := by
  refine Moves.get.bind fun s => ?_
  dsimp only
  split
  · exact .pure _
  · exact .throw _

theorem contextForCreator_moves (contract : ContractState) (caller : ScriptHash) :
    Moves R (contextForCreator contract caller : Call σ StorageContext) := by
  refine Moves.get.bind fun s => ?_
  split
  · exact .pure _
  · exact .throw _

section

variable [StateReader σ] [IsPreorder (Workspace σ) Q] (h : Reading R Q)
  (hget : ∀ key, Moves Q (Snapshot.get key : SnapshotM σ _))

include h hget

theorem blockHashOf_moves (operand : Bytes) : Moves R (blockHashOf operand : Call σ _) := by
  unfold blockHashOf
  split
  · dsimp only
    split
    · exact readAs_moves h hget _ _
    · exact .throw _
  · exact (fixedOperand_moves _ _ _).bind fun _ => .pure _

theorem time_moves : Moves R (time : Call σ UInt64) := by
  refine Moves.get.bind fun s => ?_
  split
  · exact .pure _
  · refine (readAs_moves h hget _ _).bind fun tip => ?_
    split
    · exact .throw _
    · refine (readAs_moves h hget _ _).bind fun header => ?_
      split
      · exact .throw _
      · exact config_moves.bind fun _ => .pure _

theorem witnesses_moves (container : ScriptContainer) :
    Moves R (witnesses container : Call σ _) := by
  cases container with
  | transaction transaction => exact .pure _
  | block block =>
    dsimp only [witnesses]
    split
    · exact .pure _
    · refine (readAs_moves h hget _ _).bind fun parent => ?_
      split
      · exact .pure _
      · exact .throw _

theorem requireValidContext_moves (context : StorageContext) :
    Moves R (requireValidContext context : Call σ Unit) := by
  refine Moves.bind ((readAs_moves h hget _ _).bind fun contract => ?_) fun valid => ?_
  · split
    · exact .pure _
    · exact .pure _
  · split
    · exact .pure _
    · exact .throw _

end

/-! ## Operands and results -/

section

variable (h : Working R Q)

include h

theorem pushObject_moves (object : HostObject) : Moves R (pushObject object : Call σ Unit) :=
  (onHeap_moves h _).bind (push_moves h)

theorem pushFound_moves (found : Option HostObject) : Moves R (pushFound found : Call σ Unit) := by
  cases found with
  | some object => exact pushObject_moves h object
  | none => exact push_moves h _

theorem pop_moves : Moves R (pop : Call σ StackValue) := by
  refine Moves.get.bind fun s => ?_
  split
  · exact .throw _
  · exact (setStack_moves h _).bind fun _ => .pure _

theorem popBytes_moves : Moves R (popBytes : Call σ Bytes) := by
  refine (pop_moves h).bind fun value => ?_
  split
  · exact .pure _
  · exact .throw _

theorem popInteger_moves : Moves R (popInteger : Call σ Int) := by
  refine (pop_moves h).bind fun value => ?_
  split
  · exact .pure _
  · exact .throw _

theorem popHandle_moves : Moves R (popHandle : Call σ Handle) := by
  refine (pop_moves h).bind fun value => ?_
  split
  · exact .pure _
  · exact .throw _

theorem popObject_moves (kind : ObjectKind) (accessor : HostObject → Option α) :
    Moves R (do expectObject kind accessor (← popHandle) : Call σ α) :=
  (popHandle_moves h).bind fun handle => expectObject_moves kind accessor handle

/-! ## Host functions -/

theorem serialize_moves : Moves R (serialize : Call σ Unit) := by
  refine (pop_moves h).bind fun value => Moves.get.bind fun s => config_moves.bind fun config => ?_
  split
  · exact push_moves h _
  · exact .throw _

theorem deserialize_moves : Moves R (deserialize : Call σ Unit) := by
  refine (popBytes_moves h).bind fun bytes => config_moves.bind fun config =>
    Moves.get.bind fun s => ?_
  split
  · exact Moves.bind (.modifyGet fun s => h.onMachine s s.machine _) fun _ => push_moves h _
  · exact .throw _

theorem headerField_moves (value : Header → StackValue) :
    Moves R (do push (value (← popHeader)) : Call σ Unit) :=
  (popObject_moves h _ _).bind fun _ => push_moves h _

theorem transactionCount_moves : Moves R (transactionCount : Call σ Unit) :=
  (popObject_moves h _ _).bind fun _ => push_moves h _

theorem transactionHash_moves : Moves R (transactionHash : Call σ Unit) :=
  (popObject_moves h _ _).bind fun _ => push_moves h _

theorem blockTransactions_moves : Moves R (blockTransactions : Call σ Unit) := by
  refine (popObject_moves h _ _).bind fun block => config_moves.bind fun config => ?_
  dsimp only
  split
  · exact .throw _
  · exact (Moves.mapM (fun object => onHeap_moves h _) _).bind fun handles =>
      (onHeap_moves h _).bind fun value => push_moves h value

theorem blockTransaction_moves : Moves R (blockTransaction : Call σ Unit) := by
  refine (popHandle_moves h).bind fun handle => (popInteger_moves h).bind fun index =>
    (expectObject_moves _ _ _).bind fun block => ?_
  split
  · exact pushObject_moves h _
  · exact .throw _

theorem newContext_moves (readOnly : Bool) : Moves R (newContext readOnly : Call σ Unit) :=
  currentScriptHash_moves.bind fun _ => pushObject_moves h _

theorem contextAsReadOnly_moves : Moves R (contextAsReadOnly : Call σ Unit) := by
  refine (popHandle_moves h).bind fun handle => (expectObject_moves _ _ _).bind fun context => ?_
  split
  · exact push_moves h _
  · exact pushObject_moves h _

theorem contractContext_moves : Moves R (contractContext : Call σ Unit) :=
  (popObject_moves h _ _).bind fun contract => currentScriptHash_moves.bind fun caller =>
    (contextForCreator_moves contract caller).bind fun _ => pushObject_moves h _

variable [StateReader σ] [IsPreorder (Workspace σ) Q]
  (hget : ∀ key, Moves Q (Snapshot.get key : SnapshotM σ _))

include hget

theorem getHeight_moves : Moves R (getHeight : Call σ Unit) := by
  refine (readAs_moves h.toReading hget _ _).bind fun tip => ?_
  split
  · exact push_moves h _
  · exact .throw _

theorem getByBlockHash_moves {lookUp : BlockHash → SnapshotM σ (Option HostObject)}
    (hlookUp : ∀ hash, Moves Q (lookUp hash)) :
    Moves R (getByBlockHash lookUp : Call σ Unit) := by
  refine (popBytes_moves h).bind fun operand =>
    (blockHashOf_moves h.toReading hget operand).bind fun hash => ?_
  split
  · exact pushFound_moves h _
  · exact (onSnapshot_moves h.toReading (hlookUp _)).bind fun found => pushFound_moves h found

theorem getHeader_moves : Moves R (getHeader : Call σ Unit) :=
  getByBlockHash_moves h hget fun _ => (Snapshot.getAs_moves (hget _) _).bind fun _ => .pure _

theorem getBlock_moves : Moves R (getBlock : Call σ Unit) :=
  getByBlockHash_moves h hget fun _ => (Snapshot.readBlock_moves (hget _)).bind fun _ => .pure _

theorem findTransaction_moves : Moves R (findTransaction : Call σ _) :=
  (popBytes_moves h).bind fun _ => (fixedOperand_moves _ _ _).bind fun _ =>
    readAs_moves h.toReading hget _ _

theorem getTransaction_moves : Moves R (getTransaction : Call σ Unit) :=
  (findTransaction_moves h hget).bind fun _ => pushFound_moves h _

theorem getTransactionHeight_moves : Moves R (getTransactionHeight : Call σ Unit) := by
  refine (findTransaction_moves h hget).bind fun state => ?_
  split
  · exact push_moves h _
  · exact push_moves h _

theorem getContract_moves : Moves R (getContract : Call σ Unit) :=
  (popBytes_moves h).bind fun _ => (fixedOperand_moves _ _ _).bind fun _ =>
    (readAs_moves h.toReading hget _ _).bind fun _ => pushFound_moves h _

theorem getTime_moves : Moves R (getTime : Call σ Unit) :=
  (time_moves h.toReading hget).bind fun _ => push_moves h _

theorem checkWitness_moves : Moves R (checkWitness : Call σ Unit) := by
  refine (popBytes_moves h).bind fun operand => (accountOf_moves operand).bind fun account =>
    Moves.get.bind fun s => ?_
  split
  · exact .throw _
  · exact ((witnesses_moves h.toReading hget _).bind fun _ => .pure _).bind fun _ =>
      push_moves h _

theorem popWritableContext_moves : Moves R (popWritableContext : Call σ StorageContext) := by
  refine requireMutatingTrigger_moves.bind fun _ => (popObject_moves h _ _).bind fun context => ?_
  split
  · exact .throw _
  · exact (requireValidContext_moves h.toReading hget context).bind fun _ => .pure _

theorem storageGet_moves : Moves R (storageGet : Call σ Unit) := by
  refine (popObject_moves h _ _).bind fun context =>
    (requireValidContext_moves h.toReading hget context).bind fun _ =>
      (popBytes_moves h).bind fun key => (readAs_moves h.toReading hget _ _).bind fun item => ?_
  split
  · exact push_moves h _
  · exact push_moves h _

end

end Call

def HostFunction.acting : List HostFunction :=
  [.runtimeNotify, .runtimeLog, .storagePut, .storageDelete, .contractDestroy]

open Session in
/-- All other functions are put together from operands, lookups and results. -/
theorem Call.perform_moves {σ : Type} [StateReader σ] {R : Session σ → Session σ → Prop}
    {Q : Workspace σ → Workspace σ → Prop} [IsPreorder (Session σ) R] [IsPreorder (Workspace σ) Q]
    (h : Working R Q) (hget : ∀ key, Moves Q (Snapshot.get key : SnapshotM σ _))
    {f : HostFunction} (hf : f ∉ HostFunction.acting) : Moves R (perform f : Call σ Unit) := by
  cases f with
  | runtimeNotify | runtimeLog | storagePut | storageDelete | contractDestroy =>
    exact absurd (by decide) hf
  | runtimePlatform => exact push_moves h _
  | runtimeGetTrigger => exact Moves.get.bind fun _ => push_moves h _
  | runtimeCheckWitness => exact checkWitness_moves h hget
  | runtimeGetTime => exact getTime_moves h hget
  | runtimeSerialize => exact serialize_moves h
  | runtimeDeserialize => exact deserialize_moves h
  | blockchainGetHeight => exact getHeight_moves h hget
  | blockchainGetHeader => exact getHeader_moves h hget
  | blockchainGetBlock => exact getBlock_moves h hget
  | blockchainGetTransaction => exact getTransaction_moves h hget
  | blockchainGetTransactionHeight => exact getTransactionHeight_moves h hget
  | blockchainGetContract => exact getContract_moves h hget
  | headerGetIndex | headerGetHash | headerGetPrevHash | headerGetTimestamp =>
    exact headerField_moves h _
  | blockGetTransactionCount => exact transactionCount_moves h
  | blockGetTransactions => exact blockTransactions_moves h
  | blockGetTransaction => exact blockTransaction_moves h
  | transactionGetHash => exact transactionHash_moves h
  | contractGetStorageContext => exact contractContext_moves h
  | storageGetContext | storageGetReadOnlyContext => exact newContext_moves h _
  | storageGet => exact storageGet_moves h hget
  | storageContextAsReadOnly => exact contextAsReadOnly_moves h

end ContractHost
