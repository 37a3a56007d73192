import ContractHost.Proofs.Host.Authority

/-!
# What happens in a session

A session is driven from outside: contract code calls host functions, the virtual machine goes on
by itself in between, and the creation of contracts is recorded. Its course is a list of such
events, whatever their order and whether the calls succeed.
-/

namespace ContractHost

/-- What a session is made to do next. -/
inductive SessionEvent
  | call (f : HostFunction)
  | machine (machine : Machine) (heap : Heap)
  | created (contract creator : ScriptHash)

namespace Session

variable {σ : Type}

/-- A call is made through a context of a contract, or it is the contract destroying itself. -/
inductive Reaches (s : Session σ) (owner : ScriptHash) : HostFunction → Prop
  | context {f : HostFunction} (hf : f = .storageGet ∨ f = .storagePut ∨ f = .storageDelete)
      {handle : Handle} {rest : List StackValue} (hstack : s.machine.stack = .handle handle :: rest)
      {context : StorageContext} (hobject : handle.object = .storageContext context)
      (howner : context.scriptHash = owner) : Reaches s owner f
  | destroy (howner : s.machine.scriptHash = owner) : Reaches s owner .contractDestroy

variable [StateReader σ]

def after (s : Session σ) : SessionEvent → Session σ
  | .call f => ((Call.perform f).run s).2
  | .machine machine heap => { s with machine := machine, heap := heap }
  | .created contract creator => s.recordCreated contract creator

def afterAll (s : Session σ) (events : List SessionEvent) : Session σ := events.foldl after s

theorem step_after (s : Session σ) (event : SessionEvent) : s.Step (s.after event) := by
  cases event with
  | call f => exact .call f
  | machine machine heap => exact .machine machine heap
  | created contract creator => exact .created contract creator

variable {steady : σ → Prop} {contents : StateKey → Option StoredValue}

theorem coherent_after (hstore : Serves steady contents) {s : Session σ}
    (hs : s.workspace.Coherent steady contents) (event : SessionEvent) :
    (s.after event).workspace.Coherent steady contents :=
  ((s.step_after event).within hstore hs.faithful).coherent hs

end Session

end ContractHost
