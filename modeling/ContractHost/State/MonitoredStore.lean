import ContractHost.State.Store

/-!
# A monitored store

A store that counts how often it is read and fails where it is told to. A read that fails counts
too; a commit that fails changes nothing.
-/

namespace ContractHost

/-- Which operations fail. -/
structure Faults where
  read : Bool
  keys : Bool
  commit : Bool
deriving DecidableEq, Inhabited

structure MonitoredStore where
  store : MemoryStore
  faults : Faults
  reads : Nat

namespace MonitoredStore

def ofStore (store : MemoryStore) : MonitoredStore := ⟨store, ⟨false, false, false⟩, 0⟩

instance : Inhabited MonitoredStore := ⟨ofStore .empty⟩

instance : StateReader MonitoredStore where
  read key m :=
    (if m.faults.read then .error .poisoned else .ok (m.store.get? key),
      { m with reads := m.reads + 1 })
  keysUnder stem m :=
    (if m.faults.keys then .error (.wire .outOfMemory) else m.store.keysUnder stem, m)

instance : StateCommitter MonitoredStore where
  commit effects m :=
    if m.faults.commit then (.error .poisoned, m)
    else (.ok (), { m with store := m.store.applyAll effects })

end MonitoredStore

end ContractHost
