/-!
# Byte strings

Byte strings are lists of bytes. Integers are laid out least significant byte first, and a byte
string is shown as lower-case hexadecimal, two digits a byte.
-/

namespace ContractHost

abbrev Bytes := List UInt8

/-- The `width` low bytes of `n`, least significant first. -/
def littleEndian (width n : Nat) : Bytes :=
  (List.range width).map fun i => UInt8.ofNat (n >>> (8 * i))

/-- The number whose base-256 digits, least significant first, are the bytes. -/
def ofLittleEndian (bytes : Bytes) : Nat :=
  bytes.foldr (fun b n => b.toNat + 256 * n) 0

/-- How many numbers there are of `width` bytes. -/
def byteSpan (width : Nat) : Nat := 1 <<< (8 * width)

@[simp] theorem byteSpan_zero : byteSpan 0 = 1 := rfl

theorem byteSpan_succ (width : Nat) : byteSpan (width + 1) = 256 * byteSpan width := by
  unfold byteSpan
  rw [Nat.mul_succ, Nat.shiftLeft_add, Nat.shiftLeft_eq _ 8, Nat.mul_comm]

@[simp] theorem littleEndian_length (width n : Nat) : (littleEndian width n).length = width := by
  simp [littleEndian]

theorem littleEndian_succ (width n : Nat) :
    littleEndian (width + 1) n = UInt8.ofNat n :: littleEndian width (n >>> 8) := by
  simp only [littleEndian, List.range_succ_eq_map, List.map_cons, List.map_map]
  simp [Function.comp_def, Nat.mul_succ, Nat.shiftRight_add, Nat.add_comm]

theorem ofLittleEndian_cons (b : UInt8) (bytes : Bytes) :
    ofLittleEndian (b :: bytes) = b.toNat + 256 * ofLittleEndian bytes := rfl

theorem ofLittleEndian_lt (bytes : Bytes) : ofLittleEndian bytes < byteSpan bytes.length := by
  induction bytes with
  | nil => decide
  | cons b bytes ih =>
    have hb : b.toNat < 256 := b.toNat_lt
    rw [ofLittleEndian_cons, List.length_cons, byteSpan_succ]
    omega

theorem ofLittleEndian_littleEndian (width n : Nat) :
    ofLittleEndian (littleEndian width n) = n % byteSpan width := by
  induction width generalizing n with
  | zero => simp [littleEndian, ofLittleEndian, Nat.mod_one]
  | succ width ih =>
    rw [littleEndian_succ, ofLittleEndian_cons, ih, Nat.shiftRight_eq_div_pow]
    simp [byteSpan_succ, Nat.mod_mul]

theorem littleEndian_ofLittleEndian (bytes : Bytes) :
    littleEndian bytes.length (ofLittleEndian bytes) = bytes := by
  induction bytes with
  | nil => rfl
  | cons b bytes ih =>
    have hb : b.toNat < 256 := b.toNat_lt
    have hlow : (b.toNat + 256 * ofLittleEndian bytes) % 256 = b.toNat := by omega
    have hhigh : (b.toNat + 256 * ofLittleEndian bytes) >>> 8 = ofLittleEndian bytes := by
      rw [Nat.shiftRight_eq_div_pow]; omega
    rw [List.length_cons, littleEndian_succ, ofLittleEndian_cons, hhigh, ih]
    congr 1
    apply UInt8.toNat_inj.mp
    simp only [UInt8.toNat_ofNat']
    exact hlow

theorem ofLittleEndian_append (low high : Bytes) :
    ofLittleEndian (low ++ high) =
      ofLittleEndian low + ofLittleEndian high <<< (8 * low.length) := by
  induction low with
  | nil => simp [ofLittleEndian]
  | cons b low ih =>
    have hshift : 8 * (b :: low).length = 8 * low.length + 8 := by simp [Nat.mul_add]
    rw [List.cons_append, ofLittleEndian_cons, ofLittleEndian_cons, ih, hshift, Nat.shiftLeft_add,
      Nat.shiftLeft_eq _ 8]
    omega

theorem littleEndian_add (low high n : Nat) :
    littleEndian (low + high) n =
      littleEndian low (n % byteSpan low) ++ littleEndian high (n >>> (8 * low)) := by
  induction low generalizing n with
  | zero => simp [littleEndian]
  | succ low ih =>
    have hfirst : UInt8.ofNat (n % byteSpan (low + 1)) = UInt8.ofNat n := by
      apply UInt8.toNat_inj.mp
      simp only [UInt8.toNat_ofNat', byteSpan_succ]
      exact Nat.mod_mod_of_dvd n (Nat.dvd_mul_right 256 _)
    have hrest : (n % byteSpan (low + 1)) >>> 8 = n >>> 8 % byteSpan low := by
      rw [Nat.shiftRight_eq_div_pow, Nat.shiftRight_eq_div_pow, byteSpan_succ,
        Nat.mod_mul_right_div_self]
    rw [Nat.add_right_comm, littleEndian_succ, littleEndian_succ, ih, hfirst, hrest,
      ← Nat.shiftRight_add, Nat.add_comm 8]
    rfl

/-- The two lower-case hexadecimal digits of a byte, high digit first. -/
def hexDigits (b : UInt8) : List Char :=
  [Nat.digitChar (b.toNat / 16), Nat.digitChar (b.toNat % 16)]

def toHex (bytes : Bytes) : String :=
  String.ofList (bytes.flatMap hexDigits)

/-- The value of a hexadecimal digit of either case. -/
def hexValue? (c : Char) : Option Nat :=
  if '0' ≤ c ∧ c ≤ '9' then some (c.toNat - '0'.toNat)
  else if 'a' ≤ c ∧ c ≤ 'f' then some (c.toNat - 'a'.toNat + 10)
  else if 'A' ≤ c ∧ c ≤ 'F' then some (c.toNat - 'A'.toNat + 10)
  else none

def ofHexDigits? : List Char → Option Bytes
  | [] => some []
  | [_] => none
  | high :: low :: rest => do
    let h ← hexValue? high
    let l ← hexValue? low
    let bytes ← ofHexDigits? rest
    return UInt8.ofNat (16 * h + l) :: bytes

/-- Reads pairs of hexadecimal digits of either case; anything else is no byte string. -/
def ofHex? (text : String) : Option Bytes := ofHexDigits? text.toList

/-- A byte string of a fixed length. -/
structure FixedBytes (n : Nat) where
  bytes : Bytes
  length_eq : bytes.length = n
deriving DecidableEq

namespace FixedBytes

variable {n : Nat}

def ofBytes? (n : Nat) (bytes : Bytes) : Option (FixedBytes n) :=
  if h : bytes.length = n then some ⟨bytes, h⟩ else none

def zero (n : Nat) : FixedBytes n := ⟨List.replicate n 0, List.length_replicate⟩

instance : Inhabited (FixedBytes n) := ⟨zero n⟩

def isZero (f : FixedBytes n) : Bool := f == zero n

def hex (f : FixedBytes n) : String := toHex f.bytes

@[ext] theorem ext {a b : FixedBytes n} (h : a.bytes = b.bytes) : a = b := by
  cases a; cases b; simp_all

theorem ofBytes?_eq_some_iff {bytes : Bytes} {f : FixedBytes n} :
    ofBytes? n bytes = some f ↔ bytes = f.bytes := by
  unfold ofBytes?
  constructor
  · intro h
    split at h
    · injection h with h; rw [← h]
    · cases h
  · intro h
    have : bytes.length = n := by rw [h, f.length_eq]
    simp only [this, dite_true]
    exact congrArg some (FixedBytes.ext h)

@[simp] theorem ofBytes?_bytes (f : FixedBytes n) : ofBytes? n f.bytes = some f :=
  ofBytes?_eq_some_iff.mpr rfl

end FixedBytes

end ContractHost
