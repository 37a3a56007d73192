import ContractHost.Bytes

/-!
# Integers as bytes

Integers are written in two's complement, least significant byte first, in the fewest bytes that
keep the sign. Zero is the empty byte string. The reader accepts any length. Both take long
numbers apart by halves, which costs far less than going byte by byte and gives the same.
-/

namespace ContractHost.TwosComplement

/-- How often to halve a byte string to get pieces of about a hundred bytes. -/
def levels (length : Nat) : Nat := Nat.log2 (length / 64)

/-- The number whose digits are the bytes, put together from the numbers of halves. -/
def joinHalves : Nat → Bytes → Nat
  | 0, bytes => ofLittleEndian bytes
  | level + 1, bytes =>
    let half := bytes.length / 2
    joinHalves level (bytes.take half) + joinHalves level (bytes.drop half) <<< (8 * half)

/-- The `width` low bytes of a number, put together from those of its halves. -/
def splitHalves : Nat → Nat → Nat → Bytes
  | 0, width, n => littleEndian width n
  | level + 1, width, n =>
    let half := width / 2
    splitHalves level half (n % byteSpan half) ++
      splitHalves level (width - half) (n >>> (8 * half))

@[simp] theorem joinHalves_eq (level : Nat) (bytes : Bytes) :
    joinHalves level bytes = ofLittleEndian bytes := by
  induction level generalizing bytes with
  | zero => rfl
  | succ level ih =>
    have hhalf : (bytes.take (bytes.length / 2)).length = bytes.length / 2 := by
      rw [List.length_take]; omega
    simp only [joinHalves, ih]
    conv => rhs; rw [← List.take_append_drop (bytes.length / 2) bytes, ofLittleEndian_append, hhalf]

@[simp] theorem splitHalves_eq (level width n : Nat) :
    splitHalves level width n = littleEndian width n := by
  induction level generalizing width n with
  | zero => rfl
  | succ level ih =>
    simp only [splitHalves, ih]
    rw [← littleEndian_add]
    congr 1
    omega

/-- How many bits a number has without its sign. -/
def magnitudeBits : Int → Nat
  | .ofNat 0 => 0
  | .ofNat (n + 1) => Nat.log2 (n + 1) + 1
  | .negSucc 0 => 0
  | .negSucc (n + 1) => Nat.log2 (n + 1) + 1

/-- The fewest bytes, at least one, that hold a number and its sign bit. -/
def width (n : Int) : Nat := magnitudeBits n / 8 + 1

def write (n : Int) : Bytes :=
  if n = 0 then []
  else splitHalves (levels (width n)) (width n) (n % byteSpan (width n)).toNat

def read (bytes : Bytes) : Int :=
  let n := joinHalves (levels bytes.length) bytes
  let modulus := byteSpan bytes.length
  if 2 * n < modulus then n else (n : Int) - modulus

end ContractHost.TwosComplement
