/-!
# Failures

What a failed operation reports: a code that programs match on, and a sentence for people.
-/

namespace ContractHost

class Failure (ε : Type) where
  /-- A short name of the cause; that of a wrapped error follows a slash. -/
  code : ε → String
  message : ε → String

end ContractHost
