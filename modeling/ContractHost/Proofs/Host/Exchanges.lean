import ContractHost.Proofs.Host.Footprint

/-!
# What each function takes and gives

Each host function is put together from taking operands, checking and reading, with what shows at
the end.
-/

namespace ContractHost

namespace Call

open Session

variable {σ : Type} {R : Workspace σ → Workspace σ → Prop} {new : HostObject → Prop}

theorem deliver_frame (event : HostEvent) (s : Session σ) :
    ∃ s', (deliver event).run s = (.ok (), s') ∧
      s'.machine = s.machine ∧ s'.heap = s.heap ∧ s'.service = s.service := by
  refine ⟨_, rfl, ?_⟩
  dsimp only
  split <;> exact ⟨rfl, rfl, rfl⟩

theorem run_newHandles (objects : List HostObject) (s : Session σ) :
    ∃ values count, (newHandles objects).run s =
        (.ok values, { s with heap := { s.heap with handleCount := count } }) ∧
      ∀ handle, .handle handle ∈ values → handle.object ∈ objects := by
  induction objects generalizing s with
  | nil => exact ⟨[], s.heap.handleCount, rfl, fun _ h => by cases h⟩
  | cons object objects ih =>
    obtain ⟨values, count, hrun, hvalues⟩ := ih { s with heap := (s.heap.newHandle object).2 }
    refine ⟨.handle ⟨s.heap.handleCount, object⟩ :: values, count, ?_, fun handle hmem => ?_⟩
    · rw [newHandles, List.mapM_cons]
      change (newHandles objects >>= fun values =>
        (pure (.handle ⟨s.heap.handleCount, object⟩ :: values) : Call σ _)).run
          { s with heap := (s.heap.newHandle object).2 } = _
      rw [run_bind_ok hrun]
      rfl
    · rcases List.mem_cons.mp hmem with heq | hmem
      · cases heq
        exact List.mem_cons_self
      · exact List.mem_cons_of_mem _ (hvalues handle hmem)

theorem deliver_ends (event : HostEvent) : Ends R new 0 0 (deliver event : Call σ Unit) := by
  refine .of_total fun s => ?_
  obtain ⟨s', hrun, hmachine, hheap, hservice⟩ := deliver_frame event s
  exact ⟨(), s', hrun, .of_eq (congrArg Machine.stack hmachine) hheap hservice⟩

theorem onSnapshot_ends {step : SnapshotM σ Unit} (h : ∀ w, ∃ a, (step.run w).1 = .ok a) :
    Ends R new 0 0 (onSnapshot step) := by
  refine .of_total fun s => ?_
  obtain ⟨a, ha⟩ := h s.workspace
  have hrun : (onSnapshot step).run s = (.ok a, ((onSnapshot step).run s).2) := by
    rw [run_onSnapshot, ha]
    rfl
  rw [hrun, run_onSnapshot]
  exact ⟨a, _, rfl, .of_eq rfl rfl rfl⟩

variable [IsPreorder (Workspace σ) R]

theorem notify_ends : Ends R new 1 0 (notify : Call σ Unit) where
  failed := failsIn_after 1 0 pop_pops.failed fun s value s' hpop =>
    ⟨pop_pops.done s value s' hpop, .of_total fun _ => ⟨(), rfl⟩⟩
  done s a s' hrun := by
    obtain ⟨value, popped, hpop, hrest⟩ := exists_of_run_bind hrun
    obtain ⟨rest, hstack, rfl⟩ := pop_ok hpop
    obtain ⟨_, _, hget, hrest⟩ := exists_of_run_bind hrest
    cases hget
    obtain ⟨_, delivered, hdeliver, hmodify⟩ := exists_of_run_bind hrest
    obtain ⟨_, hrun', hmachine, hheap, hservice⟩ := deliver_frame _ _
    cases hrun'.symm.trans hdeliver
    cases hmodify
    have hcreated := congrArg Service.created hservice
    refine ⟨by rw [hstack]; exact Nat.le_add_left 1 _, ⟨[], rfl, ?_⟩, hcreated,
      fun handle hholds => .inl ?_⟩
    · rw [hstack]
      exact congrArg Machine.stack hmachine
    · cases hholds with
      | stack hmem =>
        dsimp only at hmem
        rw [hmachine] at hmem
        exact .stack (hstack ▸ List.mem_cons_of_mem _ hmem)
      | heap h =>
        dsimp only at h
        rw [hheap] at h
        exact .heap h
      | noted hmem hstate =>
        dsimp only at hmem
        rw [hservice] at hmem
        rcases List.mem_append.mp hmem with hmem | hlast
        · exact .noted hmem hstate
        · cases List.mem_singleton.mp hlast
          cases hstate
          exact .stack (hstack ▸ List.mem_cons_self)

theorem log_ends : Ends R new 1 0 (log : Call σ Unit) :=
  .after_pop popBytes_pops fun _ => .after_check Moves.get fun _ => deliver_ends _

theorem serialize_ends : Ends R new 1 1 (serialize : Call σ Unit) := by
  refine .after_pop pop_pops fun value => .after_check Moves.get fun s =>
    .after_check config_moves fun config => ?_
  split
  · exact push_ends nofun
  · exact .throw _

theorem deserialize_ends : Ends R new 1 1 (deserialize : Call σ Unit) := by
  refine .after_pop popBytes_pops fun bytes => .after_check config_moves fun config =>
    ⟨?_, fun s a s' hrun => ?_⟩
  · refine failsIn_after 0 0 (failsIn_of_check Moves.get 0) fun s t s' hget =>
      ⟨Moves.get.run hget, ?_⟩
    split
    · exact .of_total fun _ => ⟨(), rfl⟩
    · exact failsIn_of_check (Moves.throw _) 0
  · obtain ⟨t, middle, hget, hrest⟩ := exists_of_run_bind hrun
    cases hget
    split at hrest
    next value heap hdecode =>
      cases hrest
      obtain ⟨hvalue, hheap⟩ := StackValue.decode_plain hdecode
      exact .of_push rfl (fun handle heq => absurd heq.symm (hvalue handle))
        (fun handle hholds => .inl (hheap handle hholds)) rfl
    next => cases hrest

theorem headerField_ends {value : Header → StackValue}
    (h : ∀ header handle, .handle handle ≠ value header) :
    Ends R new 1 1 (do push (value (← popHeader)) : Call σ Unit) :=
  .after_pop (popObject_pops _ _) fun header =>
    push_ends fun handle heq => absurd heq (h header handle)

theorem transactionCount_ends : Ends R new 1 1 (transactionCount : Call σ Unit) :=
  .after_pop (popObject_pops _ _) fun _ => push_ends nofun

theorem transactionHash_ends : Ends R new 1 1 (transactionHash : Call σ Unit) :=
  .after_pop (popObject_pops _ _) fun _ => push_ends nofun

theorem blockTransactions_ends (hnew : ∀ transaction, new (.transaction transaction)) :
    Ends R new 1 1 (blockTransactions : Call σ Unit) := by
  refine .after_pop (popObject_pops _ _) fun block => .after_check config_moves fun config => ?_
  dsimp only
  split
  · exact .throw _
  · refine .of_total fun s => ?_
    obtain ⟨values, count, hrun, hvalues⟩ :=
      run_newHandles (block.transactions.map .transaction) s
    rw [run_bind_ok hrun]
    refine ⟨(), _, rfl, .of_push rfl nofun (fun handle hholds => ?_) rfl⟩
    obtain ⟨container, hmem⟩ := hholds
    rcases Heap.mem_children_newSequence hmem with hmem | hmem
    · exact .inl ⟨container, hmem⟩
    · obtain ⟨transaction, -, heq⟩ := List.mem_map.mp (hvalues handle hmem)
      exact .inr (heq ▸ hnew transaction)

theorem blockTransaction_ends (hnew : ∀ transaction, new (.transaction transaction)) :
    Ends R new 2 1 (blockTransaction : Call σ Unit) := by
  refine .after_pop popHandle_pops fun handle => .after_pop popInteger_pops fun index =>
    .after_check (expectObject_moves _ _ _) fun block => ?_
  split
  · exact pushObject_ends (hnew _)
  · exact .throw _

theorem newContext_ends (hnew : ∀ context, new (.storageContext context)) (readOnly : Bool) :
    Ends R new 0 1 (newContext readOnly : Call σ Unit) :=
  .after_check (Moves.get.bind fun _ => .pure _) fun _ => pushObject_ends (hnew _)

theorem contextAsReadOnly_ends (hnew : ∀ context, new (.storageContext context)) :
    Ends R new 1 1 (contextAsReadOnly : Call σ Unit) := by
  refine .after_pop popHandle_pops fun handle => ?_
  -- The operand may be pushed again, so what its check found out about it is kept.
  rw [expectObject]
  cases hcontext : handle.object.storageContext? with
  | none => exact .after_check_of (Moves.throw _) fun s context s' hrun => by cases hrun
  | some context =>
    obtain ⟨id, object⟩ := handle
    cases object <;> cases hcontext
    refine .after_check (Moves.pure _) fun context => ?_
    split
    · exact push_ends fun handle heq => by cases heq; exact hnew _
    · exact pushObject_ends (hnew _)

theorem contractContext_ends (hnew : ∀ context, new (.storageContext context)) :
    Ends R new 1 1 (contractContext : Call σ Unit) := by
  refine .after_pop (popObject_pops _ _) fun contract =>
    .after_check (Moves.get.bind fun _ => .pure _) fun caller =>
      .after_check (Moves.get.bind fun s => ?_) fun context => pushObject_ends (hnew context)
  split
  · exact .pure _
  · exact .throw _

section

variable [StateReader σ] (hget : ∀ key, Moves R (Snapshot.get key : SnapshotM σ _))

include hget

theorem getHeight_ends : Ends R new 0 1 (getHeight : Call σ Unit) := by
  refine .after_check (readAs_moves reading_popped hget _ _) fun tip => ?_
  split
  · exact push_ends nofun
  · exact .throw _

theorem getByBlockHash_ends {lookUp : BlockHash → SnapshotM σ (Option HostObject)}
    (hlookUp : ∀ hash, Moves R (lookUp hash))
    (hnew : ∀ hash w object w', (lookUp hash).run w = (.ok (some object), w') → new object) :
    Ends R new 1 1 (getByBlockHash lookUp : Call σ Unit) := by
  refine .after_pop popBytes_pops fun operand =>
    .after_check (blockHashOf_moves reading_popped hget operand) fun hash => ?_
  split
  · exact pushFound_ends nofun
  · refine .after_check_of (onSnapshot_moves reading_popped (hlookUp _)) fun s found s' hrun => ?_
    refine pushFound_ends fun object hobject => ?_
    cases hobject
    exact hnew _ _ _ _ (onSnapshot_ok hrun).1

theorem getHeader_ends (hnew : ∀ header, new (.header header)) :
    Ends R new 1 1 (getHeader : Call σ Unit) := by
  refine getByBlockHash_ends hget
    (fun _ => (Snapshot.getAs_moves (hget _) _).bind fun _ => .pure _)
    fun hash w object w' hrun => ?_
  obtain ⟨header, _, -, hmap⟩ := exists_of_run_bind hrun
  obtain ⟨header, -, rfl⟩ := Option.map_eq_some_iff.mp (Except.ok.inj (Prod.mk.inj hmap).1)
  exact hnew header

theorem getBlock_ends (hnew : ∀ block, new (.block block)) :
    Ends R new 1 1 (getBlock : Call σ Unit) := by
  refine getByBlockHash_ends hget
    (fun _ => (Snapshot.readBlock_moves (hget _)).bind fun _ => .pure _)
    fun hash w object w' hrun => ?_
  obtain ⟨block, _, -, hmap⟩ := exists_of_run_bind hrun
  obtain ⟨block, -, rfl⟩ := Option.map_eq_some_iff.mp (Except.ok.inj (Prod.mk.inj hmap).1)
  exact hnew block

theorem findTransaction_pops : Pops R (findTransaction : Call σ _) :=
  popBytes_pops.check fun _ => (fixedOperand_moves _ _ _).bind fun _ =>
    readAs_moves reading_popped hget _ _

theorem getTransaction_ends (hnew : ∀ transaction, new (.transaction transaction)) :
    Ends R new 1 1 (getTransaction : Call σ Unit) :=
  .after_pop (findTransaction_pops hget) fun state => pushFound_ends fun object hobject => by
    obtain ⟨found, -, rfl⟩ := Option.map_eq_some_iff.mp hobject
    exact hnew _

theorem getTransactionHeight_ends : Ends R new 1 1 (getTransactionHeight : Call σ Unit) := by
  refine .after_pop (findTransaction_pops hget) fun state => ?_
  split
  · exact push_ends nofun
  · exact push_ends nofun

theorem getContract_ends (hnew : ∀ contract, new (.contract contract)) :
    Ends R new 1 1 (getContract : Call σ Unit) := by
  refine .after_pop popBytes_pops fun _ => .after_check (fixedOperand_moves _ _ _) fun _ =>
    .after_check (readAs_moves reading_popped hget _ _) fun contract =>
      pushFound_ends fun object hobject => ?_
  obtain ⟨found, -, rfl⟩ := Option.map_eq_some_iff.mp hobject
  exact hnew found

theorem getTime_ends : Ends R new 0 1 (getTime : Call σ Unit) :=
  .after_check (time_moves reading_popped hget) fun _ => push_ends nofun

theorem checkWitness_ends : Ends R new 1 1 (checkWitness : Call σ Unit) := by
  refine .after_pop popBytes_pops fun operand =>
    .after_check (accountOf_moves operand) fun account => .after_check Moves.get fun s => ?_
  split
  · exact .throw _
  · exact .after_check ((witnesses_moves reading_popped hget _).bind fun _ => .pure _) fun _ =>
      push_ends nofun

theorem popWritableContext_pops : Pops R (popWritableContext : Call σ StorageContext) := by
  refine .after_check requireMutatingTrigger_moves fun _ =>
    (popObject_pops _ _).check fun context => ?_
  split
  · exact .throw _
  · exact (requireValidContext_moves reading_popped hget context).bind fun _ => .pure _

theorem storageGet_ends : Ends R new 2 1 (storageGet : Call σ Unit) := by
  refine .after_pop (popObject_pops _ _) fun context =>
    .after_check (requireValidContext_moves reading_popped hget context) fun _ =>
      .after_pop popBytes_pops fun key =>
        .after_check (readAs_moves reading_popped hget _ _) fun item => ?_
  split
  · exact push_ends nofun
  · exact push_ends nofun

theorem storagePut_ends : Ends R new 3 0 (storagePut : Call σ Unit) := by
  refine .after_pop (popWritableContext_pops hget) fun context =>
    .after_pop popBytes_pops fun key => .after_check config_moves fun config => ?_
  dsimp only
  split
  · exact .throw _
  · exact .after_pop popBytes_pops fun value => onSnapshot_ends fun _ => ⟨(), rfl⟩

theorem storageDelete_ends : Ends R new 2 0 (storageDelete : Call σ Unit) := by
  refine .after_pop (popWritableContext_pops hget) fun context =>
    .after_pop popBytes_pops fun key =>
      .after_check (readAs_moves reading_popped hget _ _) fun item => ?_
  split
  · exact onSnapshot_ends fun _ => ⟨(), rfl⟩
  · exact .of_check (.pure _)

end

theorem contractDestroy_ends [StateReader σ] (hall : ∀ w w', R w w') :
    Ends R new 0 0 (contractDestroy : Call σ Unit) := by
  have hsnapshot : ∀ {α : Type} (step : SnapshotM σ α), Moves (Popped R 0) (onSnapshot step) :=
    fun step => onSnapshot_moves reading_popped fun w => hall w _
  refine .of_check ((Moves.get.bind fun _ => .pure _).bind fun hash => Moves.get.bind fun s => ?_)
  dsimp only
  split
  · exact .throw _
  · refine (hsnapshot _).bind fun contract => ?_
    split
    · exact .pure _
    · refine (hsnapshot _).bind fun _ => ?_
      split
      · exact hsnapshot _
      · exact .pure _

end Call

/-- Unless the function destroys, nothing has changed but which values read are kept. -/
def HostFunction.Spares {σ : Type} (f : HostFunction) (w w' : Workspace σ) : Prop :=
  f ≠ .contractDestroy → w.Quiet (fun _ => False) (fun _ => none) w'

instance {σ : Type} (f : HostFunction) : IsPreorder (Workspace σ) f.Spares where
  refl w _ := Std.Refl.refl w
  trans _ _ _ hab hbc hf := IsTrans.trans _ _ _ (hab hf) (hbc hf)

/-- Every host function takes its operands, gives its results and makes the handles it makes. -/
theorem Call.perform_ends {σ : Type} [StateReader σ] (f : HostFunction) :
    Ends f.Spares (fun object => f.makes = some object.kind) f.operandCount f.resultCount
      (perform f : Call σ Unit) := by
  have hget : ∀ key, Moves f.Spares (Snapshot.get key : SnapshotM σ _) :=
    fun key w _ => Snapshot.get_quiet .never key w
  cases f with
  | runtimePlatform => exact push_ends nofun
  | runtimeGetTrigger => exact .after_check Moves.get fun _ => push_ends nofun
  | runtimeCheckWitness => exact checkWitness_ends hget
  | runtimeNotify => exact notify_ends
  | runtimeLog => exact log_ends
  | runtimeGetTime => exact getTime_ends hget
  | runtimeSerialize => exact serialize_ends
  | runtimeDeserialize => exact deserialize_ends
  | blockchainGetHeight => exact getHeight_ends hget
  | blockchainGetHeader => exact getHeader_ends hget fun _ => rfl
  | blockchainGetBlock => exact getBlock_ends hget fun _ => rfl
  | blockchainGetTransaction => exact getTransaction_ends hget fun _ => rfl
  | blockchainGetTransactionHeight => exact getTransactionHeight_ends hget
  | blockchainGetContract => exact getContract_ends hget fun _ => rfl
  | headerGetIndex => exact headerField_ends nofun
  | headerGetHash => exact headerField_ends nofun
  | headerGetPrevHash => exact headerField_ends nofun
  | headerGetTimestamp => exact headerField_ends nofun
  | blockGetTransactionCount => exact transactionCount_ends
  | blockGetTransactions => exact blockTransactions_ends fun _ => rfl
  | blockGetTransaction => exact blockTransaction_ends fun _ => rfl
  | transactionGetHash => exact transactionHash_ends
  | contractDestroy => exact contractDestroy_ends fun _ _ h => absurd rfl h
  | contractGetStorageContext => exact contractContext_ends fun _ => rfl
  | storageGetContext => exact newContext_ends (fun _ => rfl) _
  | storageGetReadOnlyContext => exact newContext_ends (fun _ => rfl) _
  | storageGet => exact storageGet_ends hget
  | storagePut => exact storagePut_ends hget
  | storageDelete => exact storageDelete_ends hget
  | storageContextAsReadOnly => exact contextAsReadOnly_ends fun _ => rfl

end ContractHost
