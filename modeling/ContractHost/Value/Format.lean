import ContractHost.Wire.VarInt
import ContractHost.Value.Heap

/-!
# The binary form of stack values

A value is a tag byte and its contents: a framed payload, one byte, or a count and that many
values, for a map that many pairs. Handles have no binary form. Limits bound the size of what is
written and the counts that are read.
-/

namespace ContractHost

inductive ValueTag
  | byteString
  | boolean
  | integer
  | array
  | struct
  | map
deriving DecidableEq

namespace ValueTag

def all : List ValueTag := [byteString, boolean, integer, array, struct, map]

def byte : ValueTag → UInt8
  | byteString => 0x00
  | boolean => 0x01
  | integer => 0x02
  | array => 0x80
  | struct => 0x81
  | map => 0x82

def name : ValueTag → String
  | byteString => "ByteString"
  | boolean => "Boolean"
  | integer => "Integer"
  | array => "Array"
  | struct => "Struct"
  | map => "Map"

def ofNat? (n : Nat) : Option ValueTag := all.find? fun t => t.byte.toNat == n

def ofByte? (b : UInt8) : Option ValueTag := ofNat? b.toNat

end ValueTag

/-- Bounds on values, as machine words. -/
structure ValueLimits where
  maxItemSize : UInt64
  maxArraySize : UInt64
deriving DecidableEq

namespace ValueLimits

def default : ValueLimits := ⟨1024 * 1024, 1024⟩

instance : Inhabited ValueLimits := ⟨default⟩

end ValueLimits

inductive EncodeError
  | cyclicStructure
  | unsupportedType
  | itemTooLarge (size max : Nat)
deriving DecidableEq

def EncodeError.code : EncodeError → String
  | cyclicStructure => "CyclicStructure"
  | unsupportedType => "UnsupportedType"
  | itemTooLarge _ _ => "ItemTooLarge"

def EncodeError.message : EncodeError → String
  | cyclicStructure => "cyclic structure"
  | unsupportedType => "unsupported type"
  | itemTooLarge size max => s!"encoded size {size} exceeds maximum {max}"

instance : Failure EncodeError := ⟨EncodeError.code, EncodeError.message⟩

inductive DecodeError
  | malformedData
  | tooManyElements (count max : Nat)
  | unexpectedEnd
deriving DecidableEq

namespace DecodeError

def code : DecodeError → String
  | malformedData => "MalformedData"
  | tooManyElements _ _ => "TooManyElements"
  | unexpectedEnd => "UnexpectedEof"

def message : DecodeError → String
  | malformedData => "malformed data"
  | tooManyElements count max => s!"container of {count} elements exceeds maximum {max}"
  | unexpectedEnd => "unexpected end of input"

instance : Failure DecodeError := ⟨code, message⟩

/-- Bytes that run out are an unexpected end; any other fault of the wire form is malformed data. -/
def ofWire : WireError → DecodeError
  | .earlyEnd => unexpectedEnd
  | _ => malformedData

end DecodeError

end ContractHost
