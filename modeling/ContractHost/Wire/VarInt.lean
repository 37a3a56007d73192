import ContractHost.Wire.Basic

/-!
# Variable-length integers

Numbers below `FD` are one byte. Larger ones are a marker `FD`, `FE` or `FF` and the number in
two, four or eight bytes. The writer takes the shortest form; the reader accepts all of them. A
byte payload is framed by its length.
-/

namespace ContractHost

namespace VarInt

def size (n : Nat) : Nat :=
  if n < 0xFD then 1 else if n ≤ 0xFFFF then 3 else if n ≤ 0xFFFFFFFF then 5 else 9

/-- The shortest form of a number below `2 ^ 64`. -/
def write (n : Nat) : Bytes :=
  if n < 0xFD then littleEndian 1 n
  else if n ≤ 0xFFFF then 0xFD :: littleEndian 2 n
  else if n ≤ 0xFFFFFFFF then 0xFE :: littleEndian 4 n
  else 0xFF :: littleEndian 8 n

/-- The number that a first byte and what follows it stand for, in any of the four forms. -/
def readAfter (marker : UInt8) : WireReader Nat :=
  if marker = 0xFD then Wire.readNat 2
  else if marker = 0xFE then Wire.readNat 4
  else if marker = 0xFF then Wire.readNat 8
  else return marker.toNat

def read (max : Nat) : WireReader Nat := do
  let marker ← Wire.readByte
  let value ← readAfter marker
  if max < value then throw (.exceededMaximum max value) else return value

theorem takesFront_readAfter (marker : UInt8) : Wire.TakesFront (readAfter marker) := by
  unfold readAfter
  split
  · exact .readNat 2
  split
  · exact .readNat 4
  split
  · exact .readNat 8
  · exact .pure _

theorem takesFront_read (max : Nat) : Wire.TakesFront (read max) := by
  refine .bind .readByte fun marker => .bind (takesFront_readAfter marker) fun value => ?_
  split
  · exact .error _
  · exact .pure _

end VarInt

namespace VarBytes

/-- The longest payload a reader of the wire format accepts. -/
def maxLength : Nat := 0x01000000

def size (payload : Bytes) : Nat := VarInt.size payload.length + payload.length

def write (payload : Bytes) : Bytes := VarInt.write payload.length ++ payload

def read (max : Nat) : WireReader Bytes := do
  let length ← VarInt.read max
  Wire.split length

theorem takesFront_read (max : Nat) : Wire.TakesFront (read max) :=
  .bind (VarInt.takesFront_read max) .split

end VarBytes

instance : WireWrite String where
  size text := VarBytes.size (Text.utf8 text)
  encode text := VarBytes.write (Text.utf8 text)
  toBytes text := .ok (VarBytes.write (Text.utf8 text))

instance : WireRead String where
  read := do
    match Text.ofUtf8? (← VarBytes.read VarBytes.maxLength) with
    | some text => return text
    | none => throw .formatting

end ContractHost
