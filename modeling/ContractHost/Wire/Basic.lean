import ContractHost.Failure
import ContractHost.Text.Utf8

/-!
# Wire format

Values travel as self-delimiting byte strings. Writing announces its size first; reading takes a
value off the front and hands back the rest.
-/

namespace ContractHost

inductive WireError
  | earlyEnd
  | formatting
  | leftOver
  | outOfMemory
  | exceededMaximum (max found : Nat)
deriving DecidableEq

namespace WireError

def code : WireError → String
  | earlyEnd => "EarlyEndOfStream"
  | formatting => "Formatting"
  | leftOver => "LeftOverBytes"
  | outOfMemory => "OutOfMemory"
  | exceededMaximum _ _ => "ExceededMaximum"

def message : WireError → String
  | earlyEnd => "Deserialization error: early end of stream"
  | formatting => "Deserialization error: formatting"
  | leftOver => "Deserialization error: left-over bytes"
  | outOfMemory => "Serialization error: out of memory"
  | exceededMaximum max found => s!"Deserialization error: value {found} exceeds maximum {max}"

instance : Failure WireError := ⟨code, message⟩

end WireError

/-- Takes a value off the front of a byte string. -/
abbrev WireReader (α : Type) := StateT Bytes (Except WireError) α

/-- Types with a wire form. `toBytes` may refuse a value whose size no buffer can hold. -/
class WireWrite (α : Type) where
  size : α → Nat
  encode : α → Bytes
  toBytes : α → Except WireError Bytes

/-- Types that can be taken off the front of a byte string. -/
class WireRead (α : Type) where
  read : WireReader α

namespace Wire

variable {α : Type}

/-- The longest byte string a buffer is made for. -/
def maxBufferSize : Nat := 0xFFFFFFFF

/-- An empty buffer for `size` bytes, refused when they are more than a buffer may hold. -/
def allocate (size : Nat) : Except WireError Bytes :=
  if maxBufferSize < size then .error .outOfMemory else .ok []

def append [WireWrite α] (buffer : Bytes) (value : α) : Bytes :=
  buffer ++ WireWrite.encode value

/-- The wire form in a new buffer of the announced size. -/
def intoBuffer (size : α → Nat) (encode : α → Bytes) (value : α) : Except WireError Bytes := do
  let buffer ← allocate (size value)
  return buffer ++ encode value

def serialize [WireWrite α] (value : α) : Except WireError Bytes := WireWrite.toBytes value

def split (n : Nat) : WireReader Bytes := fun bytes =>
  let head := bytes.take n
  if head.length = n then .ok (head, bytes.drop n) else .error .earlyEnd

theorem split_eq (n : Nat) (bytes : Bytes) :
    split n bytes =
      if n ≤ bytes.length then .ok (bytes.take n, bytes.drop n) else .error .earlyEnd := by
  unfold split
  simp only [List.length_take, Nat.min_def]
  by_cases h : n ≤ bytes.length
  · simp [h]
  · have : bytes.length ≠ n := by omega
    simp [h, this]

theorem split_eq_ok {n : Nat} {bytes head rest : Bytes}
    (h : split n bytes = .ok (head, rest)) : head.length = n ∧ bytes = head ++ rest := by
  rw [split_eq] at h
  split at h
  next hn =>
    injection h with h
    injection h with h₁ h₂
    subst h₁ h₂
    exact ⟨List.length_take_of_le hn, (List.take_append_drop n bytes).symm⟩
  next => cases h

def readByte : WireReader UInt8
  | [] => .error .earlyEnd
  | b :: rest => .ok (b, rest)

def readNat (width : Nat) : WireReader Nat := do
  return ofLittleEndian (← split width)

/-- Reads a value that takes up the whole byte string. -/
def deserialize [WireRead α] (bytes : Bytes) : Except WireError α := do
  let (value, rest) ← WireRead.read.run bytes
  if rest.isEmpty then return value else throw .leftOver

/-- Readers that hand back an end of the bytes they were given. -/
def TakesFront {ε α : Type} (reader : StateT Bytes (Except ε) α) : Prop :=
  ∀ bytes value rest, reader.run bytes = .ok (value, rest) → rest <:+ bytes

namespace TakesFront

variable {ε β : Type}

theorem pure (a : α) : TakesFront (pure a : StateT Bytes (Except ε) α) := by
  intro bytes value rest h
  cases h
  exact List.suffix_refl _

theorem error (e : ε) : TakesFront (throw e : StateT Bytes (Except ε) α) := by
  intro bytes value rest h
  cases h

theorem bind {reader : StateT Bytes (Except ε) α} {next : α → StateT Bytes (Except ε) β}
    (hr : TakesFront reader) (hn : ∀ a, TakesFront (next a)) : TakesFront (reader >>= next) := by
  intro bytes value rest h
  rw [StateT.run_bind] at h
  cases hb : reader.run bytes with
  | error e => rw [hb] at h; cases h
  | ok r =>
    rw [hb] at h
    exact (hn r.1 r.2 value rest h).trans (hr bytes r.1 r.2 hb)

theorem split (n : Nat) : TakesFront (Wire.split n) := by
  intro bytes value rest h
  obtain ⟨-, rfl⟩ := split_eq_ok h
  exact List.suffix_append value rest

theorem readByte : TakesFront Wire.readByte := by
  intro bytes value rest h
  cases bytes with
  | nil => cases h
  | cons b bytes => cases h; exact List.suffix_cons _ _

theorem readNat (width : Nat) : TakesFront (Wire.readNat width) :=
  bind (split width) fun _ => pure _

end TakesFront

end Wire

instance : WireWrite UInt8 where
  size _ := 1
  encode n := [n]
  toBytes n := .ok [n]

instance : WireRead UInt8 where
  read := Wire.readByte

instance : WireWrite UInt16 where
  size _ := 2
  encode n := littleEndian 2 n.toNat
  toBytes n := .ok (littleEndian 2 n.toNat)

instance : WireRead UInt16 where
  read := return UInt16.ofNat (← Wire.readNat 2)

instance : WireWrite UInt32 where
  size _ := 4
  encode n := littleEndian 4 n.toNat
  toBytes n := .ok (littleEndian 4 n.toNat)

instance : WireRead UInt32 where
  read := return UInt32.ofNat (← Wire.readNat 4)

instance : WireWrite UInt64 where
  size _ := 8
  encode n := littleEndian 8 n.toNat
  toBytes n := .ok (littleEndian 8 n.toNat)

instance : WireRead UInt64 where
  read := return UInt64.ofNat (← Wire.readNat 8)

instance : WireWrite Bool where
  size _ := 1
  encode b := [if b then 1 else 0]
  toBytes b := .ok [if b then 1 else 0]

instance : WireRead Bool where
  read := do
    let b ← Wire.readByte
    if b = 0 then return false
    else if b = 1 then return true
    else throw .formatting

instance (n : Nat) : WireWrite (FixedBytes n) where
  size _ := n
  encode f := f.bytes
  toBytes f := .ok f.bytes

instance (n : Nat) : WireRead (FixedBytes n) where
  read := do
    match FixedBytes.ofBytes? n (← Wire.split n) with
    | some f => return f
    | none => throw .formatting

end ContractHost
