import ContractHost.Ledger.Hashes

/-!
# Public keys

A compressed public key owns the account named by the hash of its redeem script, which pushes the
key and checks one signature against it.
-/

namespace ContractHost

inductive PublicKeyError
  | invalidLength (length : Nat)
  | invalidLead (byte : UInt8)
deriving DecidableEq

def PublicKeyError.code : PublicKeyError → String
  | invalidLength _ => "InvalidLength"
  | invalidLead _ => "InvalidPrefix"

def PublicKeyError.message : PublicKeyError → String
  | invalidLength length => s!"expected 33 bytes, got {length}"
  | invalidLead byte => "invalid compressed point prefix 0x" ++ toHex [byte]

instance : Failure PublicKeyError := ⟨PublicKeyError.code, PublicKeyError.message⟩

/-- A compressed point: a byte `02` or `03` and 32 bytes. -/
structure PublicKey where
  raw : FixedBytes 33
deriving DecidableEq

namespace PublicKey

def length : Nat := 33

def ofBytes (bytes : Bytes) : Except PublicKeyError PublicKey :=
  match FixedBytes.ofBytes? 33 bytes with
  | none => .error (.invalidLength bytes.length)
  | some raw =>
    let lead := raw.bytes.headD 0
    if lead = 0x02 ∨ lead = 0x03 then .ok ⟨raw⟩ else .error (.invalidLead lead)

def bytes (key : PublicKey) : Bytes := key.raw.bytes

/-- Pushes the 33 key bytes and checks a signature. -/
def redeemScript (key : PublicKey) : Bytes := 0x21 :: (key.bytes ++ [0xAC])

def scriptHash (key : PublicKey) : ScriptHash := ScriptHash.ofScript key.redeemScript

def display (key : PublicKey) : String := key.raw.hex

def tagged (key : PublicKey) : String := s!"PublicKey({key.display})"

end PublicKey

end ContractHost
