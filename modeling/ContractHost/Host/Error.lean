import ContractHost.Ledger.PublicKey
import ContractHost.Ledger.Trigger
import ContractHost.State.Snapshot
import ContractHost.Value.Format

/-!
# Why a call fails

Contract code sees only that a call failed; the cause is for those who run it.
-/

namespace ContractHost

/-- The operands that must have one of a few lengths. -/
inductive SizedOperand
  | hashOrPublicKey
  | heightOrHash
  | transactionHash
  | scriptHash
deriving DecidableEq

def SizedOperand.name : SizedOperand → String
  | hashOrPublicKey => "hash or public key"
  | heightOrHash => "height or hash"
  | transactionHash => "transaction hash"
  | scriptHash => "script hash"

inductive HostError
  | storage (error : SnapshotError)
  | encode (error : EncodeError)
  | decode (error : DecodeError)
  | stackUnderflow
  | unexpectedOperand (expected found : ValueType)
  | unexpectedHandle (expected found : ObjectKind)
  | invalidOperandLength (operand : SizedOperand) (length : Nat)
  | invalidHeight
  | invalidPublicKey (error : PublicKeyError)
  | indexOutOfRange (count : Nat)
  | tooManyElements (count max : Nat)
  | keyTooLarge (size max : Nat)
  | triggerNotPermitted (trigger : Trigger)
  | readOnlyContext
  | invalidStorageContext (contract : ScriptHash)
  | notContractCreator (contract caller : ScriptHash)
  | noScriptContainer
  | chainTipNotFound
  | headerNotFound (hash : BlockHash)
  | unknownFunction (name : String)
  | unknownMethodHash (hash : UInt32)
deriving DecidableEq

def HostError.code : HostError → String
  | storage error => s!"Storage/{error.code}"
  | encode error => s!"Encode/{error.code}"
  | decode error => s!"Decode/{error.code}"
  | stackUnderflow => "StackUnderflow"
  | unexpectedOperand _ _ => "UnexpectedOperand"
  | unexpectedHandle _ _ => "UnexpectedHandle"
  | invalidOperandLength _ _ => "InvalidOperandLength"
  | invalidHeight => "InvalidHeight"
  | invalidPublicKey error => s!"InvalidPublicKey/{error.code}"
  | indexOutOfRange _ => "IndexOutOfRange"
  | tooManyElements _ _ => "TooManyElements"
  | keyTooLarge _ _ => "KeyTooLarge"
  | triggerNotPermitted _ => "TriggerNotPermitted"
  | readOnlyContext => "ReadOnlyContext"
  | invalidStorageContext _ => "InvalidStorageContext"
  | notContractCreator _ _ => "NotContractCreator"
  | noScriptContainer => "NoScriptContainer"
  | chainTipNotFound => "ChainTipNotFound"
  | headerNotFound _ => "HeaderNotFound"
  | unknownFunction _ => "UnknownFunction"
  | unknownMethodHash _ => "UnknownMethodHash"

def HostError.message : HostError → String
  | storage error => s!"Storage error: {error.message}"
  | encode error => s!"Serialization error: {error.message}"
  | decode error => s!"Deserialization error: {error.message}"
  | stackUnderflow => "Evaluation stack underflow"
  | unexpectedOperand expected found => s!"Expected {expected.name} operand, found {found.name}"
  | unexpectedHandle expected found => s!"Expected {expected.name} handle, found {found.name}"
  | invalidOperandLength operand length => s!"Invalid {operand.name} operand length: {length}"
  | invalidHeight => "Invalid block height"
  | invalidPublicKey error => s!"Invalid public key: {error.message}"
  | indexOutOfRange count => s!"Transaction index out of range for a block of {count} transactions"
  | tooManyElements count max => s!"{count} elements exceed maximum {max}"
  | keyTooLarge size max => s!"Storage key of {size} bytes exceeds maximum {max}"
  | triggerNotPermitted trigger => s!"Not permitted under trigger {trigger.name}"
  | readOnlyContext => "Storage context is read-only"
  | invalidStorageContext contract => s!"Invalid storage context for {contract.display}"
  | notContractCreator contract caller =>
    s!"{contract.display} was not created by {caller.display}"
  | noScriptContainer => "No script container"
  | chainTipNotFound => "Chain tip not found"
  | headerNotFound hash => s!"Header {hash.display} not found"
  | unknownFunction name => s!"Unknown interop function: {name}"
  | unknownMethodHash hash =>
    "Unknown interop method hash: 0x" ++ toHex (littleEndian 4 hash.toNat).reverse

instance : Failure HostError := ⟨HostError.code, HostError.message⟩

end ContractHost
