import ContractHost.Host.Invoke
import ContractHost.Proofs.Host.Operands
import ContractHost.Proofs.State.Answering

/-!
# Whom a witness check accepts

An operand names an account by its hash or by a public key, and the two are checked alike. Of a
transaction the signers are witnesses, of a block the account that its parent names, and nobody
else is: where the check cannot tell, it fails and pushes nothing.
-/

namespace ContractHost

/-- A value under a key is buffered, or in the store and neither pruned nor overwritten. -/
inductive Cache.Has (stored : StateKey → Except StoreError (Option StoredValue)) (c : Cache)
    (key : StateKey) (value : StoredValue) : Prop
  | buffered (hpruned : c.isPruned key = false) (hwritten : find? c.writes key = some value)
  | base (hpruned : c.isPruned key = false) (hwritten : find? c.writes key = none)
      (hstored : stored key = .ok (some value))

namespace Session

variable {σ : Type} [StateReader σ]

end Session

namespace Call

section

variable {σ : Type} {s : Session σ} {bytes : Bytes}

variable [StateReader σ] {operand : StackValue} {account : ScriptHash} {w : Workspace σ}

end

end Call

def BlockHash.ones : BlockHash := ⟨⟨⟨List.replicate 32 1, rfl⟩⟩⟩

/-- An execution on behalf of a block whose parent is buffered. -/
def Session.verifying : Session MemoryStore where
  service := .new .verification default .session
  snapshot := { Snapshot.new with cache :=
    { Snapshot.newCache with writes := [(.block .ones, .block default)] } }
  store := .empty
  machine := ⟨[], default, some (.block ⟨{ (default : Header) with prevHash := .ones }, []⟩)⟩
  heap := .empty
  delivered := []
  released := []

end ContractHost
