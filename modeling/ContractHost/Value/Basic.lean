import ContractHost.Ledger.Chain
import ContractHost.Ledger.Contract
import ContractHost.Value.Integer

/-!
# Values of the evaluation stack

Byte strings, booleans and integers are plain data. Arrays, structs and maps are references to
containers, which are shared and may contain themselves. A handle is a reference to an object of
the host that contract code cannot look into.
-/

namespace ContractHost

inductive ObjectKind
  | header
  | block
  | transaction
  | contract
  | storageContext
deriving DecidableEq

def ObjectKind.name : ObjectKind → String
  | header => "Header"
  | block => "Block"
  | transaction => "Transaction"
  | contract => "Contract"
  | storageContext => "StorageContext"

/-- What a handle may refer to. -/
inductive HostObject
  | header (header : Header)
  | block (block : Block)
  | transaction (transaction : Transaction)
  | contract (contract : ContractState)
  | storageContext (context : StorageContext)
deriving DecidableEq, Inhabited

namespace HostObject

def kind : HostObject → ObjectKind
  | header _ => .header
  | block _ => .block
  | transaction _ => .transaction
  | contract _ => .contract
  | storageContext _ => .storageContext

/-- The header, also that of a block. -/
def header? : HostObject → Option Header
  | header h => some h
  | block b => some b.header
  | _ => none

def block? : HostObject → Option Block
  | block b => some b
  | _ => none

def transaction? : HostObject → Option Transaction
  | transaction t => some t
  | _ => none

def contract? : HostObject → Option ContractState
  | contract c => some c
  | _ => none

def storageContext? : HostObject → Option StorageContext
  | storageContext c => some c
  | _ => none

end HostObject

/-- A reference to a host object. Two handles are the same if they have the same number, however
equal their objects are. -/
structure Handle where
  id : Nat
  object : HostObject
deriving DecidableEq, Inhabited

/-- Where the elements of an array or a struct are held. -/
abbrev SequenceRef := Nat

/-- Where the pairs of a map are held. -/
abbrev MapRef := Nat

/-- The identity of a container. -/
inductive ContainerId
  | sequence (ref : SequenceRef)
  | map (ref : MapRef)
deriving DecidableEq, Hashable

inductive ValueType
  | byteString
  | boolean
  | integer
  | handle
  | array
  | struct
  | map
deriving DecidableEq

def ValueType.name : ValueType → String
  | byteString => "ByteString"
  | boolean => "Boolean"
  | integer => "Integer"
  | handle => "Handle"
  | array => "Array"
  | struct => "Struct"
  | map => "Map"

inductive StackValue
  | byteString (bytes : Bytes)
  | boolean (flag : Bool)
  | integer (value : Int)
  | handle (handle : Handle)
  | array (items : SequenceRef)
  | struct (items : SequenceRef)
  | map (pairs : MapRef)
deriving DecidableEq, Inhabited

namespace StackValue

def type : StackValue → ValueType
  | byteString _ => .byteString
  | boolean _ => .boolean
  | integer _ => .integer
  | handle _ => .handle
  | array _ => .array
  | struct _ => .struct
  | map _ => .map

/-- Plain data as a byte string: `true` is the byte one, `false` is empty, and integers have their
shortest form. -/
def bytes? : StackValue → Option Bytes
  | byteString bytes => some bytes
  | boolean flag => some (if flag then [1] else [])
  | integer value => some (TwosComplement.write value)
  | _ => none

/-- Plain data as an integer; byte strings are read in two's complement. -/
def integer? : StackValue → Option Int
  | byteString bytes => some (TwosComplement.read bytes)
  | boolean flag => some (if flag then 1 else 0)
  | integer value => some value
  | _ => none

def handle? : StackValue → Option Handle
  | handle h => some h
  | _ => none

def container? : StackValue → Option ContainerId
  | array ref | struct ref => some (.sequence ref)
  | map ref => some (.map ref)
  | _ => none

/-- The equality of map keys: plain data by value within its type, references by identity. -/
def keyEq : StackValue → StackValue → Bool
  | byteString a, byteString b => a == b
  | boolean a, boolean b => a == b
  | integer a, integer b => a == b
  | handle a, handle b => a.id == b.id
  | array a, array b => a == b
  | struct a, struct b => a == b
  | map a, map b => a == b
  | _, _ => false

end StackValue

end ContractHost
