/-!
# Triggers

The reason why a script runs decides whether its calls may change the state.
-/

namespace ContractHost

inductive Trigger
  | verification
  | verificationR
  | application
  | applicationR
deriving DecidableEq, Inhabited

namespace Trigger

def all : List Trigger := [verification, verificationR, application, applicationR]

def name : Trigger → String
  | verification => "Verification"
  | verificationR => "VerificationR"
  | application => "Application"
  | applicationR => "ApplicationR"

/-- The number that contract code sees. -/
def value : Trigger → UInt8
  | verification => 0x00
  | verificationR => 0x01
  | application => 0x10
  | applicationR => 0x11

def ofValue? (n : Nat) : Option Trigger := all.find? fun t => t.value.toNat == n

def isMutating : Trigger → Bool
  | application | applicationR => true
  | verification | verificationR => false

end Trigger

end ContractHost
