import ContractHost.Bytes

/-!
# UTF-8

Strings as byte strings: the strict reading, which refuses malformed bytes, and the lossy one,
which shows a replacement character for each of them.
-/

namespace ContractHost.Text

def utf8 (text : String) : Bytes := text.toUTF8.data.toList

/-- The text a byte string is the UTF-8 form of, if it is one. -/
def ofUtf8? (bytes : Bytes) : Option String := String.fromUTF8? bytes.toByteArray

def isContinuation (b : UInt8) : Bool := 0x80 ≤ b && b ≤ 0xBF

/-- How many bytes a sequence led by `lead` has, and which values its second byte may take. The
ranges leave out overlong forms, surrogates and code points above U+10FFFF. -/
def leadRange (lead : UInt8) : Option (Nat × UInt8 × UInt8) :=
  if 0xC2 ≤ lead && lead ≤ 0xDF then some (2, 0x80, 0xBF)
  else if lead == 0xE0 then some (3, 0xA0, 0xBF)
  else if lead == 0xED then some (3, 0x80, 0x9F)
  else if 0xE1 ≤ lead && lead ≤ 0xEF then some (3, 0x80, 0xBF)
  else if lead == 0xF0 then some (4, 0x90, 0xBF)
  else if lead == 0xF4 then some (4, 0x80, 0x8F)
  else if 0xF1 ≤ lead && lead ≤ 0xF3 then some (4, 0x80, 0xBF)
  else none

/-- The length of the longest start of the bytes after `lead` that a well-formed sequence could
have there. -/
def tailLength (rest : Bytes) : Nat × UInt8 × UInt8 → Nat
  | (size, low, high) =>
    match rest with
    | [] => 0
    | second :: others =>
      if low ≤ second && second ≤ high then
        1 + ((others.take (size - 2)).takeWhile isContinuation).length
      else 0

def codePoint (lead : UInt8) (tail : Bytes) : Nat :=
  let head := if tail.length = 1 then lead.toNat % 32
    else if tail.length = 2 then lead.toNat % 16 else lead.toNat % 8
  tail.foldl (fun n b => 64 * n + b.toNat % 64) head

/-- Splits one character, or one replaced stretch of malformed bytes, off the front. A stretch is
as long as a well-formed sequence could still have gone on. -/
def lossyStep (lead : UInt8) (rest : Bytes) : Char × Nat :=
  if lead < 0x80 then (Char.ofNat lead.toNat, 0)
  else match leadRange lead with
    | none => ('\ufffd', 0)
    | some shape =>
      let count := tailLength rest shape
      if count + 1 = shape.1 then (Char.ofNat (codePoint lead (rest.take count)), count)
      else ('\ufffd', count)

def lossyChars (done : List Char) : Bytes → List Char
  | [] => done.reverse
  | lead :: rest =>
    let (c, used) := lossyStep lead rest
    lossyChars (c :: done) (rest.drop used)
termination_by bytes => bytes.length
decreasing_by simp only [List.length_drop, List.length_cons]; omega

/-- The text of a byte string, with a replacement character for each malformed stretch. -/
def lossy (bytes : Bytes) : String := String.ofList (lossyChars [] bytes)

end ContractHost.Text
