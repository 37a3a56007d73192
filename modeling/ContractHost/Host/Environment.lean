import ContractHost.Host.Operand
import ContractHost.Value.Decoder
import ContractHost.Value.Encoder

/-!
# The environment of a script

What a script learns of its execution, the events it raises, and the binary form of its values.
-/

namespace ContractHost.Call

variable {σ : Type}

def platformName : String := "HALCYON"

def platform : Call σ Unit := push (.byteString (Text.utf8 platformName))

def trigger : Call σ Unit := do
  push (.integer (← get).service.trigger.value.toNat)

def deliver (event : HostEvent) : Call σ Unit :=
  modify fun s =>
    match s.service.sink with
    | .session => { s with delivered := s.delivered ++ [event] }
    | .hostLog => s

/-- Pops a value, makes it known, and keeps it in the notification log. -/
def notify : Call σ Unit := do
  let state ← pop
  let machine := (← get).machine
  let notification : Notification := ⟨machine.container, machine.scriptHash, state⟩
  deliver (.notify notification)
  modify fun s =>
    { s with service :=
      { s.service with notifications := s.service.notifications ++ [notification] } }

/-- Pops a message and writes it, malformed UTF-8 replaced. -/
def log : Call σ Unit := do
  let message := Text.lossy (← popBytes)
  let machine := (← get).machine
  deliver (.log ⟨machine.container, machine.scriptHash, message⟩)

/-- The time of the execution: that of the block being persisted, or else one block interval after
the tip. -/
def time [StateReader σ] : Call σ UInt64 := do
  match (← get).snapshot.persisting with
  | some block => return block.header.timestamp
  | none =>
    match ← onSnapshot Snapshot.readChainTip with
    | none => throw .chainTipNotFound
    | some tip =>
      match ← onSnapshot (Snapshot.readHeader tip.hash) with
      | none => throw (.headerNotFound tip.hash)
      | some header =>
        let seconds := header.timestamp.toNat + (← config).secondsPerBlock.toNat
        return UInt64.ofNat (min seconds 0xFFFFFFFFFFFFFFFF)

def getTime [StateReader σ] : Call σ Unit := do
  push (.integer (← time).toNat)

def serialize : Call σ Unit := do
  let value ← pop
  match value.encode (← get).heap (← config).limits with
  | .ok bytes => push (.byteString bytes)
  | .error e => throw (.encode e)

def deserialize : Call σ Unit := do
  let bytes ← popBytes
  match StackValue.decode (← config).limits bytes (← get).heap with
  | .ok (value, heap) =>
    modify fun s => { s with heap := heap }
    push value
  | .error e => throw (.decode e)

end ContractHost.Call
