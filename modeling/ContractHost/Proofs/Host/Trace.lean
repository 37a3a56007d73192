import ContractHost.Proofs.Host.Operations

/-!
# The notification log

Two host functions raise an event each, and nothing else does. Over any course of a service the
notification log and the sink get the events of the calls that succeed, in the order of the calls,
and the log keeps what it has.
-/

namespace ContractHost

namespace HostEvent

def notification? : HostEvent → Option Notification
  | notify notification => some notification
  | log _ => none

def message? : HostEvent → Option LogMessage
  | notify _ => none
  | log message => some message

end HostEvent

/-- The event that a call of a function raises if it succeeds: what is on top of the stack is made
known or logged, for the contract that runs and on behalf of its container. -/
def HostFunction.event? (f : HostFunction) (machine : Machine) : Option HostEvent :=
  match f with
  | .runtimeNotify => machine.stack.head?.map fun payload =>
    .notify ⟨machine.container, machine.scriptHash, payload⟩
  | .runtimeLog => (machine.stack.head?.bind StackValue.bytes?).map fun bytes =>
    .log ⟨machine.container, machine.scriptHash, Text.lossy bytes⟩
  | _ => none

/-- What may be done with a service: besides what may be done with its session, functions are called
by name and method hash, changes are committed, and resources are registered and released. -/
inductive ServiceAction
  | operation (operation : SessionOperation)
  | callByName (name : String)
  | callByMethodHash (hash : UInt32)
  | commit
  | register (resource : String)
  | dispose

def ServiceAction.called? : ServiceAction → Option HostFunction
  | operation (.event (.call f)) => some f
  | callByName name => HostFunction.ofName? name
  | callByMethodHash hash => HostFunction.ofMethodHash? hash
  | _ => none

namespace Session

section

variable {σ : Type}

/-- No event has been raised. -/
structure Silent (s s' : Session σ) : Prop where
  notifications : s'.service.notifications = s.service.notifications
  sink : s'.service.sink = s.service.sink
  delivered : s'.delivered = s.delivered

instance : IsPreorder (Session σ) Silent where
  refl _ := ⟨rfl, rfl, rfl⟩
  trans _ _ _ h h' := ⟨h'.notifications.trans h.notifications, h'.sink.trans h.sink,
    h'.delivered.trans h.delivered⟩

/-- The events have been raised: all have come to the sink of the session, if that is installed, and
the notifications to the log. -/
structure Raises (events : List HostEvent) (s s' : Session σ) : Prop where
  notifications : s'.service.notifications =
    s.service.notifications ++ events.filterMap HostEvent.notification?
  sink : s'.service.sink = s.service.sink
  delivered : s'.delivered = s.delivered ++
    match s.service.sink with
    | .session => events
    | .hostLog => []

variable {s s' s'' : Session σ}

theorem Silent.raises (h : s.Silent s') : s.Raises [] s' where
  notifications := h.notifications.trans (List.append_nil _).symm
  sink := h.sink
  delivered := by
    rw [h.delivered]
    split <;> exact (List.append_nil _).symm

theorem Raises.trans {events more : List HostEvent} (h : s.Raises events s')
    (h' : s'.Raises more s'') : s.Raises (events ++ more) s'' where
  notifications := by
    rw [h'.notifications, h.notifications, List.filterMap_append, List.append_assoc]
  sink := h'.sink.trans h.sink
  delivered := by
    rw [h'.delivered, h.delivered, h.sink, List.append_assoc]
    cases s.service.sink <;> rfl

theorem working_silent : Working (Silent (σ := σ)) fun _ _ => True where
  onWorkspace _ _ _ := ⟨rfl, rfl, rfl⟩
  onMachine _ _ _ := ⟨rfl, rfl, rfl⟩

end

end Session

namespace Call

open Session

section

variable {σ α : Type}

theorem onSnapshot_silent (step : SnapshotM σ α) : Moves Silent (onSnapshot step) :=
  onSnapshot_moves working_silent.toReading fun _ => trivial

local instance : IsPreorder (Workspace σ) fun _ _ => True where
  refl _ := trivial
  trans _ _ _ _ _ := trivial

variable [StateReader σ]

theorem destroy_silent (hash : ScriptHash) : Moves Silent (destroy hash : Call σ Unit) := by
  refine Moves.get.bind fun s => ?_
  dsimp only
  split
  · exact .throw _
  · refine (onSnapshot_silent _).bind fun contract => ?_
    split
    · exact .pure _
    · refine (onSnapshot_silent _).bind fun _ => ?_
      split
      · exact onSnapshot_silent _
      · exact .pure _

theorem storagePut_silent : Moves Silent (storagePut : Call σ Unit) := by
  refine (popWritableContext_moves working_silent fun _ _ => trivial).bind fun context =>
    (popBytes_moves working_silent).bind fun key => config_moves.bind fun config => ?_
  dsimp only
  split
  · exact .throw _
  · exact (popBytes_moves working_silent).bind fun _ => onSnapshot_silent _

theorem storageDelete_silent : Moves Silent (storageDelete : Call σ Unit) := by
  refine (popWritableContext_moves working_silent fun _ _ => trivial).bind fun context =>
    (popBytes_moves working_silent).bind fun key => (onSnapshot_silent _).bind fun item => ?_
  split
  · exact onSnapshot_silent _
  · exact .pure _

/-- No other function raises an event, whether it succeeds or not. -/
theorem perform_silent {f : HostFunction} (hnotify : f ≠ .runtimeNotify) (hlog : f ≠ .runtimeLog) :
    Moves Silent (perform f : Call σ Unit) := by
  by_cases hput : f = .storagePut
  · subst hput
    exact storagePut_silent
  by_cases hdelete : f = .storageDelete
  · subst hdelete
    exact storageDelete_silent
  by_cases hdestroy : f = .contractDestroy
  · subst hdestroy
    exact currentScriptHash_moves.bind destroy_silent
  · refine perform_moves working_silent (fun _ _ => trivial) ?_
    simp [HostFunction.acting, hnotify, hlog, hput, hdelete, hdestroy]

end

section

variable {σ : Type} {s : Session σ}

theorem run_deliver (event : HostEvent) (s : Session σ) :
    (deliver event).run s = (.ok (), { s with delivered := s.delivered ++
      match s.service.sink with
      | .session => [event]
      | .hostLog => [] }) := by
  change (Except.ok (), match s.service.sink with
    | .session => { s with delivered := s.delivered ++ [event] }
    | .hostLog => s) = _
  split
  · rfl
  · rw [List.append_nil]

theorem notify_raises {payload : StackValue} {rest : List StackValue}
    (hstack : s.machine.stack = payload :: rest) :
    (notify.run s).1 = .ok () ∧
      s.Raises [.notify ⟨s.machine.container, s.machine.scriptHash, payload⟩] (notify.run s).2 := by
  rw [notify, run_bind_ok (run_pop hstack), run_bind_ok (run_get _), run_bind_ok (run_deliver _ _)]
  exact ⟨rfl, rfl, rfl, rfl⟩

theorem log_raises {operand : StackValue} {rest : List StackValue} {bytes : Bytes}
    (hstack : s.machine.stack = operand :: rest) (hbytes : operand.bytes? = some bytes) :
    (log.run s).1 = .ok () ∧
      s.Raises [.log ⟨s.machine.container, s.machine.scriptHash, Text.lossy bytes⟩]
        (log.run s).2 := by
  rw [log, run_bind_ok (run_popBytes hstack hbytes), run_bind_ok (run_get _), run_deliver]
  exact ⟨rfl, (List.append_nil _).symm, rfl, rfl⟩

theorem notify_fails (hstack : s.machine.stack = []) :
    notify.run s = (.error .stackUnderflow, s) := by
  rw [notify, run_bind_error (run_pop_nil hstack)]

theorem log_fails (hbytes : s.machine.stack.head?.bind StackValue.bytes? = none) :
    (∃ e, (log.run s).1 = .error e) ∧ s.Silent (log.run s).2 := by
  have hpop := popBytes_moves working_silent s
  cases hrun : popBytes.run s with
  | mk result s' =>
    rw [hrun] at hpop
    rw [log, run_bind, hrun]
    cases result with
    | error e => exact ⟨⟨e, rfl⟩, hpop⟩
    | ok bytes =>
      obtain ⟨operand, rest, hstack, hfound, -⟩ := popBytes_ok hrun
      rw [hstack] at hbytes
      cases hfound.symm.trans hbytes

end

end Call

namespace Session

variable {σ : Type} [StateReader σ] {s : Session σ}

theorem invoke_notify (s : Session σ) :
    (s.invoke .runtimeNotify).1 = (HostFunction.runtimeNotify.event? s.machine).isSome ∧
      s.Raises (HostFunction.runtimeNotify.event? s.machine).toList
        (s.invoke .runtimeNotify).2 := by
  change (Call.notify.run s).1.isOk = _ ∧ s.Raises _ (Call.notify.run s).2
  rw [HostFunction.event?]
  cases hstack : s.machine.stack with
  | nil =>
    rw [Call.notify_fails hstack]
    exact ⟨rfl, (refl s : s.Silent s).raises⟩
  | cons payload rest =>
    obtain ⟨hok, hraises⟩ := Call.notify_raises hstack
    rw [hok]
    exact ⟨rfl, hraises⟩

theorem invoke_log (s : Session σ) :
    (s.invoke .runtimeLog).1 = (HostFunction.runtimeLog.event? s.machine).isSome ∧
      s.Raises (HostFunction.runtimeLog.event? s.machine).toList (s.invoke .runtimeLog).2 := by
  change (Call.log.run s).1.isOk = _ ∧ s.Raises _ (Call.log.run s).2
  rw [HostFunction.event?]
  cases hbytes : s.machine.stack.head?.bind StackValue.bytes? with
  | none =>
    obtain ⟨⟨e, he⟩, hsilent⟩ := Call.log_fails hbytes
    rw [he]
    exact ⟨rfl, hsilent.raises⟩
  | some bytes =>
    obtain ⟨operand, htop, hbytes⟩ := Option.bind_eq_some_iff.mp hbytes
    obtain ⟨rest, hstack⟩ := List.head?_eq_some_iff.mp htop
    obtain ⟨hok, hraises⟩ := Call.log_raises hstack hbytes
    rw [hok]
    exact ⟨rfl, hraises⟩

/-- What a call of a function raises: its event if it succeeds, and else nothing. -/
def raisedByCall (s : Session σ) (f : HostFunction) : List HostEvent :=
  if (s.invoke f).1 then (f.event? s.machine).toList else []

theorem raisedByCall_eq {f : HostFunction}
    (h : (s.invoke f).1 = (f.event? s.machine).isSome) :
    s.raisedByCall f = (f.event? s.machine).toList := by
  rw [raisedByCall, h]
  cases f.event? s.machine <;> rfl

theorem invoke_raises (s : Session σ) (f : HostFunction) :
    s.Raises (s.raisedByCall f) (s.invoke f).2 := by
  by_cases hnotify : f = .runtimeNotify
  · subst hnotify
    rw [raisedByCall_eq s.invoke_notify.1]
    exact s.invoke_notify.2
  by_cases hlog : f = .runtimeLog
  · subst hlog
    rw [raisedByCall_eq s.invoke_log.1]
    exact s.invoke_log.2
  · -- The other functions have no event, so it does not matter whether they succeed.
    have hnone : f.event? s.machine = none := by
      cases f <;> first | contradiction | rfl
    rw [raisedByCall, hnone, Option.toList_none, ite_self]
    exact (Call.perform_silent hnotify hlog s).raises

section

variable [StateCommitter σ]

def afterAction (s : Session σ) : ServiceAction → Session σ
  | .operation operation => s.afterOperation operation
  | .callByName name => (s.invokeByName name).2
  | .callByMethodHash hash => (s.invokeByMethodHash hash).2
  | .commit => (Call.commit.run s).2
  | .register resource => s.register resource
  | .dispose => s.dispose

def afterActions (s : Session σ) (actions : List ServiceAction) : Session σ :=
  actions.foldl afterAction s

theorem afterActions_append (s : Session σ) (earlier later : List ServiceAction) :
    s.afterActions (earlier ++ later) = (s.afterActions earlier).afterActions later :=
  List.foldl_append

def raisedBy (s : Session σ) (action : ServiceAction) : List HostEvent :=
  match action.called? with
  | some f => s.raisedByCall f
  | none => []

/-- The events of the calls that succeed, in the order of the calls. -/
def trace (s : Session σ) : List ServiceAction → List HostEvent
  | [] => []
  | action :: actions => s.raisedBy action ++ (s.afterAction action).trace actions

theorem afterAction_of_called? {action : ServiceAction} {f : HostFunction}
    (h : action.called? = some f) : s.afterAction action = (s.invoke f).2 := by
  match action, h with
  | .operation (.event (.call _)), rfl => rfl
  | .callByName name, h =>
    have h : HostFunction.ofName? name = some f := h
    rw [afterAction, invokeByName, Call.performByName, h]
    rfl
  | .callByMethodHash hash, h =>
    have h : HostFunction.ofMethodHash? hash = some f := h
    rw [afterAction, invokeByMethodHash, Call.performByMethodHash, h]
    rfl

theorem afterAction_silent {action : ServiceAction} (h : action.called? = none) :
    s.Silent (s.afterAction action) := by
  match action, h with
  | .operation (.event (.machine _ _)), _ => exact ⟨rfl, rfl, rfl⟩
  | .operation (.event (.created _ _)), _ => exact ⟨rfl, rfl, rfl⟩
  | .operation (.ask _), _ => exact ⟨rfl, rfl, rfl⟩
  | .operation (.destroy hash), _ => exact Call.destroy_silent hash s
  | .callByName name, h =>
    have h : HostFunction.ofName? name = none := h
    rw [afterAction, invokeByName, Call.performByName, h]
    exact refl s
  | .callByMethodHash hash, h =>
    have h : HostFunction.ofMethodHash? hash = none := h
    rw [afterAction, invokeByMethodHash, Call.performByMethodHash, h]
    exact refl s
  | .commit, _ => exact Call.onSnapshot_silent _ s
  | .register _, _ => exact ⟨rfl, rfl, rfl⟩
  | .dispose, _ => exact ⟨rfl, rfl, rfl⟩

theorem afterAction_raises (s : Session σ) (action : ServiceAction) :
    s.Raises (s.raisedBy action) (s.afterAction action) := by
  rw [raisedBy]
  cases h : action.called? with
  | none => exact (afterAction_silent h).raises
  | some f =>
    rw [afterAction_of_called? h]
    exact s.invoke_raises f

theorem afterActions_raises (s : Session σ) (actions : List ServiceAction) :
    s.Raises (s.trace actions) (s.afterActions actions) := by
  induction actions generalizing s with
  | nil => exact (refl s : s.Silent s).raises
  | cons action actions ih =>
    have hfirst := s.afterAction_raises action
    exact hfirst.trans (ih (s.afterAction action))

/-- Whatever is done with a service, the notification log grows by the notifications of the calls
that succeed, one each and in their order, and loses none. A sink gets the same notifications, and
besides just the messages of the calls that log with success; those enter no log. -/
theorem notifications_are_trace (s : Session σ) (actions : List ServiceAction) :
    (s.afterActions actions).service.notifications =
        s.service.notifications ++ (s.trace actions).filterMap HostEvent.notification? ∧
    (s.service.sink = .session →
      (s.afterActions actions).delivered = s.delivered ++ s.trace actions ∧
      (s.afterActions actions).delivered.filterMap HostEvent.message? =
        s.delivered.filterMap HostEvent.message? ++
          (s.trace actions).filterMap HostEvent.message? ∧
      (s.service.notifications = s.delivered.filterMap HostEvent.notification? →
        (s.afterActions actions).service.notifications =
          (s.afterActions actions).delivered.filterMap HostEvent.notification?)) ∧
    (∀ earlier later, actions = earlier ++ later →
      (s.afterActions earlier).service.notifications <+:
        (s.afterActions actions).service.notifications) ∧
    ∀ t : Session σ,
      (t.invoke .runtimeNotify).1 = (HostFunction.runtimeNotify.event? t.machine).isSome ∧
      (t.invoke .runtimeLog).1 = (HostFunction.runtimeLog.event? t.machine).isSome ∧
      (t.invoke .runtimeLog).2.service.notifications = t.service.notifications := by
  have hraises := s.afterActions_raises actions
  refine ⟨hraises.notifications, fun hsink => ?_, ?_, fun t => ?_⟩
  · have hdelivered : (s.afterActions actions).delivered = s.delivered ++ s.trace actions := by
      rw [hraises.delivered, hsink]
    refine ⟨hdelivered, ?_, fun hagree => ?_⟩
    · rw [hdelivered, List.filterMap_append]
    · rw [hraises.notifications, hdelivered, List.filterMap_append, hagree]
  · rintro earlier later rfl
    have hlater := (s.afterActions earlier).afterActions_raises later
    rw [afterActions_append]
    exact ⟨_, hlater.notifications.symm⟩
  · refine ⟨t.invoke_notify.1, t.invoke_log.1, ?_⟩
    rw [t.invoke_log.2.notifications, HostFunction.event?]
    cases t.machine.stack.head?.bind StackValue.bytes? <;> exact List.append_nil _

end

def speaking : Session MemoryStore where
  service := .new .application default .session
  snapshot := .new
  store := .empty
  machine := ⟨[.integer 7, .byteString [0x68, 0x69]], default, none⟩
  heap := .empty
  delivered := []
  released := []

/-- A notification and a message are told, and a call without an operand is not. -/
theorem notifications_are_trace_speaking :
    let actions : List ServiceAction := [.operation (.event (.call .runtimeNotify)),
      .operation (.event (.call .runtimeLog)), .operation (.event (.call .runtimeNotify)),
      .dispose, .commit]
    speaking.service.sink = .session ∧
    speaking.service.notifications = speaking.delivered.filterMap HostEvent.notification? ∧
    (speaking.afterActions actions).service.notifications = [⟨none, default, .integer 7⟩] ∧
    (speaking.afterActions actions).delivered =
      [.notify ⟨none, default, .integer 7⟩, .log ⟨none, default, "hi"⟩] ∧
    (speaking.afterActions actions).service.notifications =
      (speaking.afterActions actions).delivered.filterMap HostEvent.notification? ∧
    (speaking.afterActions (actions.take 2)).service.notifications <+:
      (speaking.afterActions actions).service.notifications := by
  intro actions
  obtain ⟨hlog, hsink, hparts, -⟩ := speaking.notifications_are_trace actions
  have htrace : speaking.trace actions =
      [.notify ⟨none, default, .integer 7⟩, .log ⟨none, default, "hi"⟩] := by decide +kernel
  obtain ⟨hdelivered, -, hagree⟩ := hsink rfl
  rw [htrace] at hlog hdelivered
  have hactions : actions = actions.take 2 ++ actions.drop 2 :=
    (List.take_append_drop 2 actions).symm
  exact ⟨rfl, rfl, hlog, hdelivered, hagree rfl, hparts _ _ hactions⟩

end Session

end ContractHost
