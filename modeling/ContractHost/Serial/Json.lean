import ContractHost.Bytes

/-!
# JSON forms

Records are objects with exactly their fields, and may be given as arrays of the fields in order.
A value of one of several kinds is an object with the name of its kind as the only field. Numbers
are integers in range; byte strings are arrays of numbers.
-/

namespace ContractHost

/-- A JSON document. Numbers with a fraction or an exponent are kept apart, since no form here has
them. -/
inductive Json
  | null
  | bool (b : Bool)
  | integer (n : Int)
  | fraction
  | string (s : String)
  | array (items : List Json)
  | object (fields : List (String × Json))
deriving Inhabited

namespace Json

/-- The values of the named fields, in order, of an object that has these fields and no others, or
of an array of that many values. -/
def fields? (names : List String) : Json → Option (List Json)
  | object fields =>
    if fields.length = names.length then names.mapM fun name => fields.lookup name else none
  | array items => if items.length = names.length then some items else none
  | _ => none

def string? : Json → Option String
  | string s => some s
  | _ => none

def below? (bound : Nat) : Json → Option Nat
  | integer n => if 0 ≤ n ∧ n < bound then some n.toNat else none
  | _ => none

/-- The name of the kind and the value of a tagged value; a name alone has no value. -/
def tagged? : Json → Option (String × Option Json)
  | string name => some (name, none)
  | object [(name, value)] => some (name, some value)
  | _ => none

end Json

/-- Types with a JSON form. -/
class JsonForm (α : Type) where
  toJson : α → Json
  ofJson? : Json → Option α

namespace JsonForm

variable {α : Type}

instance : JsonForm Bool where
  toJson := .bool
  ofJson?
    | .bool b => some b
    | _ => none

instance : JsonForm String where
  toJson := .string
  ofJson? := Json.string?

instance : JsonForm UInt8 where
  toJson n := .integer n.toNat
  ofJson? j := (j.below? UInt8.size).map UInt8.ofNat

instance : JsonForm UInt32 where
  toJson n := .integer n.toNat
  ofJson? j := (j.below? UInt32.size).map UInt32.ofNat

instance : JsonForm UInt64 where
  toJson n := .integer n.toNat
  ofJson? j := (j.below? UInt64.size).map UInt64.ofNat

instance [JsonForm α] : JsonForm (List α) where
  toJson xs := .array (xs.map toJson)
  ofJson?
    | .array items => items.mapM ofJson?
    | _ => none

instance (n : Nat) : JsonForm (FixedBytes n) where
  toJson f := .string f.hex
  ofJson? j := do FixedBytes.ofBytes? n (← ofHex? (← j.string?))

end JsonForm

end ContractHost
