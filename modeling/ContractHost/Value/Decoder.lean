import ContractHost.Value.Format

/-!
# Reading stack values

Reading has two steps. The first takes tokens off the bytes, in pre-order, until every container
that was opened has its declared children. The second goes through the tokens from the last to
the first and builds each container from the values behind it. Bytes after the value are ignored.
-/

namespace ContractHost

inductive ContainerKind
  | array
  | struct
  | map
deriving DecidableEq

inductive ValueToken
  | byteString (bytes : Bytes)
  | boolean (flag : Bool)
  | integer (value : Int)
  | container (kind : ContainerKind) (count : Nat)
deriving DecidableEq

/-- How many values follow a token as its children. -/
def ValueToken.childCount : ValueToken → Nat
  | container .map count => 2 * count
  | container _ count => count
  | _ => 0

namespace Decoder

abbrev Reader (α : Type) := StateT Bytes (Except DecodeError) α

/-- A step of the wire reader, with its faults in the terms of values. -/
def ofWire {α : Type} (reader : WireReader α) : Reader α := fun bytes =>
  match reader.run bytes with
  | .ok result => .ok result
  | .error e => .error (.ofWire e)

def readCount (maxArraySize : Nat) : Reader Nat := do
  let count ← ofWire (VarInt.read 0xFFFFFFFFFFFFFFFF)
  if maxArraySize < count then throw (.tooManyElements count maxArraySize) else return count

def readContents (maxArraySize : Nat) : ValueTag → Reader ValueToken
  | .byteString => return .byteString (← ofWire (VarBytes.read VarBytes.maxLength))
  | .boolean => return .boolean ((← ofWire Wire.readByte) != 0)
  | .integer => return .integer (TwosComplement.read (← ofWire (VarBytes.read VarBytes.maxLength)))
  | .array => return .container .array (← readCount maxArraySize)
  | .struct => return .container .struct (← readCount maxArraySize)
  | .map => return .container .map (← readCount maxArraySize)

/-- What follows a tag byte; a byte that is no tag has nothing after it. -/
def readTagged (maxArraySize : Nat) : Option ValueTag → Reader ValueToken
  | some tag => readContents maxArraySize tag
  | none => throw .malformedData

def readToken (maxArraySize : Nat) : Reader ValueToken := do
  let b ← ofWire Wire.readByte
  readTagged maxArraySize (ValueTag.ofByte? b)

theorem takesFront_ofWire {α : Type} {reader : WireReader α} (h : Wire.TakesFront reader) :
    Wire.TakesFront (ofWire reader) := by
  intro bytes value rest hr
  simp only [ofWire, StateT.run] at hr
  split at hr
  next heq => injection hr with hr; subst hr; exact h _ _ _ heq
  next => cases hr

theorem takesFront_readCount (maxArraySize : Nat) : Wire.TakesFront (readCount maxArraySize) := by
  refine .bind (takesFront_ofWire (VarInt.takesFront_read _)) fun count => ?_
  split
  · exact .error _
  · exact .pure _

theorem takesFront_readContents (maxArraySize : Nat) (tag : ValueTag) :
    Wire.TakesFront (readContents maxArraySize tag) := by
  cases tag with
  | byteString | integer =>
    exact .bind (takesFront_ofWire (VarBytes.takesFront_read _)) fun _ => .pure _
  | boolean => exact .bind (takesFront_ofWire .readByte) fun _ => .pure _
  | array | struct | map => exact .bind (takesFront_readCount _) fun _ => .pure _

theorem takesFront_readTagged (maxArraySize : Nat) (tag : Option ValueTag) :
    Wire.TakesFront (readTagged maxArraySize tag) := by
  cases tag with
  | none => exact .error _
  | some tag => exact takesFront_readContents _ tag

theorem length_lt_of_readToken {maxArraySize : Nat} {bytes rest : Bytes} {token : ValueToken}
    (h : (readToken maxArraySize).run bytes = .ok (token, rest)) :
    rest.length < bytes.length := by
  cases bytes with
  | nil => cases h
  | cons b bytes =>
    exact Nat.lt_succ_of_le (takesFront_readTagged _ (ValueTag.ofByte? b) _ _ _ h).length_le

/-- The number of pending values is kept below this. -/
def pendingBound : Nat := UInt64.size

/-- The values that become pending with a token. They are counted in 64 bits, in which twice the
count of a map may wrap. -/
def newlyPending (token : ValueToken) : Nat := token.childCount % pendingBound

/-- Takes tokens off the bytes until no value is pending. The tokens come last one first. -/
def readTokens (maxArraySize : Nat) (pending : Nat) (tokens : List ValueToken) (bytes : Bytes) :
    Except DecodeError (List ValueToken) :=
  match pending with
  | 0 => .ok tokens
  | pending + 1 =>
    match h : (readToken maxArraySize).run bytes with
    | .error e => .error e
    | .ok (token, rest) =>
      have := length_lt_of_readToken h
      if pendingBound ≤ pending + newlyPending token then .error .malformedData
      else readTokens maxArraySize (pending + newlyPending token) (token :: tokens) rest
termination_by bytes.length

/-- The tokens of one value at the front of the bytes, last one first. -/
def flatten (maxArraySize : Nat) (bytes : Bytes) : Except DecodeError (List ValueToken) :=
  readTokens maxArraySize 1 [] bytes

def takeValues (count : Nat) (built : List StackValue) :
    Except DecodeError (List StackValue × List StackValue) :=
  let front := built.take count
  if front.length = count then .ok (front, built.drop count) else .error .malformedData

/-- Builds a map from keys and values in turn; a key that is there already is malformed data. -/
def buildMap (m : StackMap) : List StackValue → Except DecodeError StackMap
  | [] => .ok m
  | [_] => .error .malformedData
  | key :: value :: rest =>
    match m.insert key value with
    | (none, m) => buildMap m rest
    | (some _, _) => .error .malformedData

/-- Builds the value a token stands for from the values behind it, which `built` holds first one
first, and puts it before what is left of them. -/
def build (token : ValueToken) (built : List StackValue) (heap : Heap) :
    Except DecodeError (List StackValue × Heap) := do
  match token with
  | .byteString bytes => return (.byteString bytes :: built, heap)
  | .boolean flag => return (.boolean flag :: built, heap)
  | .integer value => return (.integer value :: built, heap)
  | .container kind _ =>
    let (items, rest) ← takeValues token.childCount built
    let (value, heap) ← match kind with
      | .array => pure (heap.newArray items)
      | .struct => pure (heap.newStruct items)
      | .map => do
        let pairs ← buildMap .empty items
        pure (heap.newMap pairs)
    return (value :: rest, heap)

def rebuild (built : List StackValue) (heap : Heap) :
    List ValueToken → Except DecodeError (List StackValue × Heap)
  | [] => .ok (built, heap)
  | token :: tokens =>
    match build token built heap with
    | .error e => .error e
    | .ok (built, heap) => rebuild built heap tokens

def reconstruct (tokens : List ValueToken) (heap : Heap) :
    Except DecodeError (StackValue × Heap) :=
  match rebuild [] heap tokens with
  | .error e => .error e
  | .ok ([value], heap) => .ok (value, heap)
  | .ok _ => .error .malformedData

end Decoder

/-- The value at the front of the bytes, its containers new in the heap. -/
def StackValue.decode (limits : ValueLimits) (bytes : Bytes) (heap : Heap) :
    Except DecodeError (StackValue × Heap) :=
  match Decoder.flatten limits.maxArraySize.toNat bytes with
  | .error e => .error e
  | .ok tokens => Decoder.reconstruct tokens heap

end ContractHost
