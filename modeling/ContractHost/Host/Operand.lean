import ContractHost.Host.Session

/-!
# Operands

Operands come off the evaluation stack and are converted as the call needs them. An operand that
does not fit has been popped all the same.
-/

namespace ContractHost.Call

variable {σ : Type}

def pop : Call σ StackValue := do
  match (← get).machine.stack with
  | [] => throw .stackUnderflow
  | value :: rest =>
    setStack rest
    return value

def popBytes : Call σ Bytes := do
  let value ← pop
  match value.bytes? with
  | some bytes => return bytes
  | none => throw (.unexpectedOperand .byteString value.type)

def popInteger : Call σ Int := do
  let value ← pop
  match value.integer? with
  | some n => return n
  | none => throw (.unexpectedOperand .integer value.type)

def popHandle : Call σ Handle := do
  let value ← pop
  match value.handle? with
  | some handle => return handle
  | none => throw (.unexpectedOperand .handle value.type)

/-- What a handle refers to, which must be of one kind. -/
def expectObject {α : Type} (kind : ObjectKind) (accessor : HostObject → Option α)
    (handle : Handle) : Call σ α :=
  match accessor handle.object with
  | some a => return a
  | none => throw (.unexpectedHandle kind handle.object.kind)

def popHeader : Call σ Header := do
  expectObject .header HostObject.header? (← popHandle)

def popBlock : Call σ Block := do
  expectObject .block HostObject.block? (← popHandle)

def popTransaction : Call σ Transaction := do
  expectObject .transaction HostObject.transaction? (← popHandle)

def popContract : Call σ ContractState := do
  expectObject .contract HostObject.contract? (← popHandle)

def popStorageContext : Call σ StorageContext := do
  expectObject .storageContext HostObject.storageContext? (← popHandle)

def fixedOperand (n : Nat) (operand : SizedOperand) (bytes : Bytes) : Call σ (FixedBytes n) :=
  match FixedBytes.ofBytes? n bytes with
  | some f => return f
  | none => throw (.invalidOperandLength operand bytes.length)

end ContractHost.Call
