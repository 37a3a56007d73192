import ContractHost.Proofs.Host.Assembly
import ContractHost.Proofs.State.Within

/-!
# Calls that change nothing in the state

Most host functions only read the state. Each is put together from operands, lookups and pushes,
none of which changes what any key shows, the log, or the trigger and the settings of the service.
-/

namespace ContractHost

namespace Session

variable {σ : Type}

section

variable (steady : σ → Prop) (contents : StateKey → Option StoredValue)

/-- A session in which only the given keys have changed, under the same trigger and settings. -/
structure Within (keys : StateKey → Prop) (s s' : Session σ) : Prop where
  workspace : s.workspace.Within steady contents keys s'.workspace
  trigger : s'.service.trigger = s.service.trigger
  config : s'.service.config = s.service.config

instance (keys : StateKey → Prop) : IsPreorder (Session σ) (Within steady contents keys) where
  refl _ := ⟨refl _, rfl, rfl⟩
  trans _ _ _ hab hbc := ⟨IsTrans.trans _ _ _ hab.workspace hbc.workspace,
    hbc.trigger.trans hab.trigger, hbc.config.trans hab.config⟩

end

variable {steady : σ → Prop} {contents : StateKey → Option StoredValue} {keys : StateKey → Prop}

theorem Within.of_eq {s s' : Session σ} (hw : s'.workspace = s.workspace)
    (ht : s'.service.trigger = s.service.trigger) (hc : s'.service.config = s.service.config) :
    Within steady contents keys s s' :=
  ⟨hw ▸ refl _, ht, hc⟩

theorem Within.coherent {s s' : Session σ} (h : s.Within steady contents keys s')
    (hs : s.workspace.Coherent steady contents) : s'.workspace.Coherent steady contents :=
  ⟨h.workspace.faithful hs.faithful, h.workspace.tracked hs.tracked⟩

theorem working_within :
    Working (Within (σ := σ) steady contents keys) (Workspace.Within steady contents keys) where
  onWorkspace _ _ h := ⟨h, rfl, rfl⟩
  onMachine _ _ _ := .of_eq rfl rfl rfl

end Session

namespace Call

open Session

variable {σ α : Type} {steady : σ → Prop} {contents : StateKey → Option StoredValue}
  {keys : StateKey → Prop}

theorem onSnapshot_within {step : SnapshotM σ α}
    (h : Moves (Workspace.Within steady contents keys) step) :
    Moves (Within steady contents keys) (onSnapshot step) :=
  onSnapshot_moves working_within.toReading h

theorem onSnapshot_failsIn {step : SnapshotM σ α}
    (h : FailsIn (Workspace.Within steady contents keys) step) :
    FailsIn (Within steady contents keys) (onSnapshot step) := by
  intro s error s' hrun
  rw [run_onSnapshot] at hrun
  obtain ⟨hresult, rfl⟩ := Prod.mk.inj hrun
  cases hstep : step.run s.workspace with
  | mk result w' =>
    rw [hstep] at hresult
    cases result with
    | error e => exact ⟨h s.workspace e w' hstep, rfl, rfl⟩
    | ok a => cases hresult

theorem onSnapshot_quiet {step : SnapshotM σ α}
    (h : Moves (Workspace.Quiet steady contents) step) :
    Moves (Within steady contents keys) (onSnapshot step) :=
  onSnapshot_within fun w => (h w).within

theorem popBytes_quiet : Moves (Within (σ := σ) steady contents keys) popBytes :=
  popBytes_moves working_within

theorem popObject_quiet (kind : ObjectKind) (accessor : HostObject → Option α) :
    Moves (Within (σ := σ) steady contents keys)
      (do expectObject kind accessor (← popHandle)) :=
  popObject_moves working_within kind accessor

theorem deliver_quiet (event : HostEvent) :
    Moves (Within (σ := σ) steady contents keys) (deliver event) := by
  refine .modifyGet fun s => ?_
  dsimp only
  split
  · exact .of_eq rfl rfl rfl
  · exact refl s

theorem notify_quiet : Moves (Within (σ := σ) steady contents keys) notify :=
  (pop_moves working_within).bind fun _ => Moves.get.bind fun _ => (deliver_quiet _).bind fun _ =>
    .modifyGet fun _ => .of_eq rfl rfl rfl

theorem log_quiet : Moves (Within (σ := σ) steady contents keys) log :=
  popBytes_quiet.bind fun _ => Moves.get.bind fun _ => deliver_quiet _

section

variable [StateReader σ] (hstore : Serves steady contents)

include hstore

theorem get_within (key : StateKey) :
    Moves (Workspace.Within steady contents keys) (Snapshot.get key : SnapshotM σ _) :=
  fun w => (Snapshot.get_quiet hstore key w).within

theorem requireValidContext_quiet (context : StorageContext) :
    Moves (Within (σ := σ) steady contents keys) (requireValidContext context) :=
  requireValidContext_moves working_within.toReading (get_within hstore) context

theorem popWritableContext_quiet :
    Moves (Within (σ := σ) steady contents keys) popWritableContext :=
  popWritableContext_moves working_within (get_within hstore)

/-- Host functions other than those that store, delete and destroy change no key. -/
theorem perform_quiet {f : HostFunction} (hput : f ≠ .storagePut) (hdelete : f ≠ .storageDelete)
    (hdestroy : f ≠ .contractDestroy) :
    Moves (Within (σ := σ) steady contents keys) (perform f) := by
  by_cases hnotify : f = .runtimeNotify
  · subst hnotify
    exact notify_quiet
  by_cases hlog : f = .runtimeLog
  · subst hlog
    exact log_quiet
  · refine perform_moves working_within (get_within hstore) ?_
    simp [HostFunction.acting, hput, hdelete, hdestroy, hnotify, hlog]

end

end Call

end ContractHost
