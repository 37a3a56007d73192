import ContractHost.Host.Operand

/-!
# Witnesses

A transaction is witnessed by its signers. A block is witnessed by the account that its parent's
header names for the next block; a first block has no witness.
-/

namespace ContractHost.Call

variable {σ : Type} [StateReader σ]

/-- The accounts that witness a container, in order and each once. -/
def witnesses (container : ScriptContainer) : Call σ (List ScriptHash) :=
  match container with
  | .transaction transaction =>
    return (Std.TreeSet.ofList transaction.signers compare).toList
  | .block block => do
    if block.header.isGenesis then return []
    else match ← onSnapshot (Snapshot.readHeader block.header.prevHash) with
      | some parent => return [parent.nextConsensus]
      | none => throw (.headerNotFound block.header.prevHash)

def isWitnessedBy (container : ScriptContainer) (account : ScriptHash) : Call σ Bool := do
  return (← witnesses container).contains account

/-- The account that an operand names: by its hash, or by a public key. -/
def accountOf (operand : Bytes) : Call σ ScriptHash :=
  if operand.length = PublicKey.length then
    match PublicKey.ofBytes operand with
    | .ok key => return key.scriptHash
    | .error e => throw (.invalidPublicKey e)
  else do
    return ⟨← fixedOperand 20 .hashOrPublicKey operand⟩

def checkWitness : Call σ Unit := do
  let account ← accountOf (← popBytes)
  match (← get).machine.container with
  | none => throw .noScriptContainer
  | some container => push (.boolean (← isWitnessedBy container account))

end ContractHost.Call
