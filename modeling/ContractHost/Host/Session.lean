import ContractHost.Host.Error
import ContractHost.Settings.Engine
import ContractHost.State.Lookup
import ContractHost.Value.Heap

/-!
# Sessions

A session is one execution and all that its host calls can see and change: the service with its
notification log, the snapshot and its store, the virtual machine, the heap of containers, and
what went out to the event sink.
-/

namespace ContractHost

/-- What a script runs on behalf of. -/
inductive ScriptContainer
  | transaction (transaction : Transaction)
  | block (block : Block)
deriving DecidableEq, Inhabited

/-- A value that a contract made known. -/
structure Notification where
  container : Option ScriptContainer
  scriptHash : ScriptHash
  state : StackValue
deriving DecidableEq

/-- A message that a contract wrote. -/
structure LogMessage where
  container : Option ScriptContainer
  scriptHash : ScriptHash
  message : String
deriving DecidableEq

inductive HostEvent
  | notify (notification : Notification)
  | log (message : LogMessage)
deriving DecidableEq

/-- Where events go: to the session, or to the log of the host, which is not modelled. -/
inductive EventSink
  | session
  | hostLog
deriving DecidableEq

structure Service where
  trigger : Trigger
  config : EngineConfig
  sink : EventSink
  /-- The names of resources to release when the service ends, in the order of registration. -/
  resources : List String
  /-- Contracts created in this execution, with their creators. -/
  created : Std.TreeMap ScriptHash ScriptHash
  notifications : List Notification

/-- What the host sees of the virtual machine. The top of the stack comes first. -/
structure Machine where
  stack : List StackValue
  scriptHash : ScriptHash
  container : Option ScriptContainer

structure Session (σ : Type) where
  service : Service
  snapshot : Snapshot
  store : σ
  machine : Machine
  heap : Heap
  /-- The events that reached the sink of the session. -/
  delivered : List HostEvent
  /-- The names of released resources. -/
  released : List String

/-- A step of a session. What it did before it failed stays done. -/
abbrev Call (σ : Type) := ExceptT HostError (StateM (Session σ))

namespace Service

def new (trigger : Trigger) (config : EngineConfig) (sink : EventSink) : Service :=
  ⟨trigger, config, sink, [], ∅, []⟩

def display (s : Service) : String :=
  let pairs := s.created.toList.map fun (contract, creator) =>
    s!"{contract.tagged}: {creator.tagged}"
  "StandardService \x7b trigger: " ++ s.trigger.name ++ ", config: " ++ s.config.display ++
    ", contracts_created: \x7b" ++ ", ".intercalate pairs ++ "\x7d, notifications: " ++
    toString s.notifications.length ++ " \x7d"

end Service

namespace Session

variable {σ : Type}

/-- Notes that a contract was created, which lets its creator have its storage context. -/
def recordCreated (contract creator : ScriptHash) (s : Session σ) : Session σ :=
  { s with service := { s.service with created := s.service.created.insert contract creator } }

def register (resource : String) (s : Session σ) : Session σ :=
  { s with service := { s.service with resources := s.service.resources ++ [resource] } }

/-- Releases all resources in the order of registration, each once. -/
def dispose (s : Session σ) : Session σ :=
  { s with
    released := s.released ++ s.service.resources
    service := { s.service with resources := [] } }

/-- Ends the service and starts another one with its own snapshot on the same store. -/
def restart (service : Service) (snapshot : Snapshot) (s : Session σ) : Session σ :=
  { s.dispose with service := service, snapshot := snapshot }

end Session

namespace Call

variable {σ : Type}

def onSnapshot {α : Type} (step : SnapshotM σ α) : Call σ α := do
  let result ← modifyGet fun s =>
    let (result, w) := step.run ⟨s.snapshot, s.store⟩
    (result, { s with snapshot := w.snapshot, store := w.store })
  match result with
  | .ok a => return a
  | .error e => throw (.storage e)

def onHeap {α : Type} (step : Heap → α × Heap) : Call σ α :=
  modifyGet fun s =>
    let (a, heap) := step s.heap
    (a, { s with heap := heap })

def setStack (stack : List StackValue) : Call σ Unit :=
  modify fun s => { s with machine := { s.machine with stack := stack } }

def push (value : StackValue) : Call σ Unit :=
  modify fun s => { s with machine := { s.machine with stack := value :: s.machine.stack } }

def pushObject (object : HostObject) : Call σ Unit := do
  push (← onHeap fun heap => heap.newHandle object)

/-- Pushes a new handle to what a lookup found, or an empty byte string. -/
def pushFound (found : Option HostObject) : Call σ Unit :=
  match found with
  | some object => pushObject object
  | none => push (.byteString [])

def currentScriptHash : Call σ ScriptHash := return (← get).machine.scriptHash

def config : Call σ EngineConfig := return (← get).service.config

def commit [StateCommitter σ] : Call σ Unit := onSnapshot Snapshot.commit

end Call

end ContractHost
