import Mathlib.Algebra.Group.Nat.Defs
import ContractHost.Value.Integer
import ContractHost.Proofs.Wire.Framing

/-!
# Integers are read back

The width of an integer leaves room for its sign, so reading its bytes gives the integer again. No
narrower bytes have such room, so of all the bytes that are read as an integer those written of it
are the shortest. Longer ones repeat the sign. The integer that bytes denote has their digits and
lies within the half of their span to each side of zero.
-/

namespace ContractHost.TwosComplement

private theorem magnitude_bounds (n : Int) :
    -(2 ^ magnitudeBits n : Nat) ≤ n ∧ n < (2 ^ magnitudeBits n : Nat) := by
  have hlog : ∀ m : Nat, m < 2 ^ (Nat.log2 m + 1) := fun m => Nat.lt_log2_self
  cases n with
  | ofNat m =>
    cases m with
    | zero => decide
    | succ m =>
      have := hlog (m + 1)
      simp only [magnitudeBits, Int.ofNat_eq_natCast]
      omega
  | negSucc m =>
    cases m with
    | zero => decide
    | succ m =>
      have := hlog (m + 1)
      simp only [magnitudeBits, Int.negSucc_eq]
      omega

theorem width_bounds (n : Int) :
    -(byteSpan (width n) : Int) ≤ 2 * n ∧ 2 * n < byteSpan (width n) := by
  have hpow : 2 * 2 ^ magnitudeBits n ≤ byteSpan (width n) := by
    rw [byteSpan, Nat.shiftLeft_eq, Nat.one_mul, ← Nat.pow_succ']
    apply Nat.pow_le_pow_right (by decide)
    unfold width
    omega
  have := magnitude_bounds n
  omega

theorem length_write_of_ne_zero {n : Int} (h : n ≠ 0) : (write n).length = width n := by
  rw [write, if_neg h, splitHalves_eq, littleEndian_length]

private theorem read_eq (bytes : Bytes) :
    read bytes = ofLittleEndian bytes ∧ 2 * ofLittleEndian bytes < byteSpan bytes.length ∨
      read bytes = ofLittleEndian bytes - byteSpan bytes.length ∧
        byteSpan bytes.length ≤ 2 * ofLittleEndian bytes := by
  simp only [read, joinHalves_eq]
  split
  next h => exact .inl ⟨rfl, h⟩
  next h => exact .inr ⟨rfl, Nat.not_lt.mp h⟩

/-- Bytes denote an integer in two's complement: their digits are those of the integer, up to a
multiple of the number of byte strings of that length, half of which are for each sign. -/
structure Denotes (bytes : Bytes) (n : Int) : Prop where
  digits : n % byteSpan bytes.length = ofLittleEndian bytes
  lower : -(byteSpan bytes.length : Int) ≤ 2 * n
  upper : 2 * n < byteSpan bytes.length

/-- Bytes denote one integer, and it is the one that is read. -/
theorem denotes_iff {bytes : Bytes} {n : Int} : Denotes bytes n ↔ n = read bytes := by
  have hlt := ofLittleEndian_lt bytes
  have hread := read_eq bytes
  constructor
  · rintro ⟨hdigits, hlower, hupper⟩
    have hwrap : n % byteSpan bytes.length = n ∨
        n % byteSpan bytes.length = n + byteSpan bytes.length := by
      by_cases hn : 0 ≤ n
      · exact .inl (Int.emod_eq_of_lt hn (by omega))
      · right
        rw [← Int.add_emod_right]
        exact Int.emod_eq_of_lt (by omega) (by omega)
    omega
  · rintro rfl
    refine ⟨?_, by omega, by omega⟩
    rcases hread with ⟨hread, -⟩ | ⟨hread, -⟩
    · rw [hread]
      exact Int.emod_eq_of_lt (by omega) (by omega)
    · rw [hread, Int.sub_emod_right]
      exact Int.emod_eq_of_lt (by omega) (by omega)

theorem read_write (n : Int) : read (write n) = n := by
  by_cases h : n = 0
  · subst h
    decide
  · have hbounds := width_bounds n
    have hdigits : n % byteSpan (width n) = ofLittleEndian (write n) := by
      have hnonneg : 0 ≤ n % byteSpan (width n) := Int.emod_nonneg _ (by omega)
      have hlt : n % byteSpan (width n) < byteSpan (width n) := Int.emod_lt_of_pos _ (by omega)
      rw [write, if_neg h, splitHalves_eq, ofLittleEndian_littleEndian,
        Nat.mod_eq_of_lt (by omega), Int.toNat_of_nonneg hnonneg]
    rw [← length_write_of_ne_zero h] at hbounds hdigits
    exact (denotes_iff.mp ⟨hdigits, hbounds.1, hbounds.2⟩).symm

private theorem two_pow_magnitudeBits_lt {n : Int} {span : Nat} (hbits : 0 < magnitudeBits n)
    (hbounds : -(span : Int) ≤ 2 * n ∧ 2 * n < span) : 2 ^ magnitudeBits n < span := by
  have hlog : ∀ m : Nat, 2 ^ (Nat.log2 (m + 1) + 1) ≤ 2 * (m + 1) := by
    intro m
    have := Nat.log2_self_le (n := m + 1) (by omega)
    rw [Nat.pow_succ]
    omega
  cases n with
  | ofNat m =>
    cases m with
    | zero => cases hbits
    | succ m =>
      have := hlog m
      simp only [magnitudeBits, Int.ofNat_eq_natCast] at hbounds ⊢
      omega
  | negSucc m =>
    cases m with
    | zero => cases hbits
    | succ m =>
      have := hlog m
      simp only [magnitudeBits, Int.negSucc_eq] at hbounds ⊢
      omega

private theorem width_le {n : Int} {length : Nat} (hn : n ≠ 0)
    (hbounds : -(byteSpan length : Int) ≤ 2 * n ∧ 2 * n < byteSpan length) : width n ≤ length := by
  have hspan : byteSpan length = 2 ^ (8 * length) := by rw [byteSpan, Nat.shiftLeft_eq, Nat.one_mul]
  have hpos : 0 < length := by
    apply Nat.pos_of_ne_zero
    rintro rfl
    rw [byteSpan_zero] at hbounds
    omega
  have hbits : magnitudeBits n < 8 * length := by
    rcases Nat.eq_zero_or_pos (magnitudeBits n) with hzero | hbits
    · omega
    · apply (Nat.pow_lt_pow_iff_right (a := 2) (by decide)).mp
      rw [← hspan]
      exact two_pow_magnitudeBits_lt hbits hbounds
  unfold width
  omega

theorem denotes_read (bytes : Bytes) : Denotes bytes (read bytes) := denotes_iff.mpr rfl

theorem length_write_read_le (bytes : Bytes) : (write (read bytes)).length ≤ bytes.length := by
  by_cases hzero : read bytes = 0
  · rw [hzero]
    exact Nat.zero_le _
  · rw [length_write_of_ne_zero hzero]
    exact width_le hzero ⟨(denotes_read bytes).lower, (denotes_read bytes).upper⟩

theorem eq_of_read_eq {a b : Bytes} (hread : read a = read b) (hlength : a.length = b.length) :
    a = b := by
  have hdigits : ofLittleEndian a = ofLittleEndian b := by
    have ha := (denotes_read a).digits
    rw [hread, hlength, (denotes_read b).digits] at ha
    exact Int.ofNat_inj.mp ha.symm
  rw [← littleEndian_ofLittleEndian a, hdigits, hlength, littleEndian_ofLittleEndian]

/-- No bytes that are read as the same integer are fewer. -/
def Shortest (bytes : Bytes) : Prop :=
  ∀ other, read other = read bytes → bytes.length ≤ other.length

/-- What is written of an integer is the only shortest byte string that is read as it. -/
theorem shortest_iff {bytes : Bytes} : Shortest bytes ↔ bytes = write (read bytes) := by
  constructor
  · intro hleast
    have hback : read (write (read bytes)) = read bytes := read_write (read bytes)
    apply eq_of_read_eq hback.symm
    exact Nat.le_antisymm (hleast _ hback) (length_write_read_le bytes)
  · intro hwritten other hread
    rw [hwritten, ← hread]
    exact length_write_read_le other

/-! ## Repeating the sign -/

def signByte (bytes : Bytes) : UInt8 :=
  match bytes.getLast? with
  | some last => if last < 0x80 then 0 else 0xFF
  | none => 0

theorem signByte_concat (bytes : Bytes) (last : UInt8) :
    signByte (bytes ++ [last]) = if last < 0x80 then 0 else 0xFF := by
  rw [signByte, List.getLast?_concat]

private theorem ofLittleEndian_concat (bytes : Bytes) (last : UInt8) :
    ofLittleEndian (bytes ++ [last]) =
      ofLittleEndian bytes + last.toNat * byteSpan bytes.length := by
  rw [ofLittleEndian_append, byteSpan, Nat.shiftLeft_eq, Nat.shiftLeft_eq, Nat.one_mul]
  rfl

private theorem byteSpan_concat (bytes : Bytes) (last : UInt8) :
    byteSpan (bytes ++ [last]).length = 256 * byteSpan bytes.length := by
  rw [List.length_append, List.length_singleton, byteSpan_succ]

private theorem signByte_eq (bytes : Bytes) :
    signByte bytes = if 2 * ofLittleEndian bytes < byteSpan bytes.length then 0 else 0xFF := by
  rcases List.eq_nil_or_concat bytes with rfl | ⟨low, last, rfl⟩
  · rfl
  · rw [List.concat_eq_append, signByte_concat]
    have hlow := ofLittleEndian_lt low
    have hhalf : last < 0x80 ↔
        2 * ofLittleEndian (low ++ [last]) < byteSpan (low ++ [last]).length := by
      rw [ofLittleEndian_concat, byteSpan_concat, UInt8.lt_iff_toNat_lt]
      change last.toNat < 128 ↔ _
      rcases Nat.lt_or_ge last.toNat 128 with hclear | hset
      · have := Nat.mul_le_mul_right (byteSpan low.length) (Nat.le_of_lt_succ hclear)
        omega
      · have := Nat.mul_le_mul_right (byteSpan low.length) hset
        omega
    simp only [hhalf]

private theorem read_concat_signByte (bytes : Bytes) :
    read (bytes ++ [signByte bytes]) = read bytes := by
  have hlt := ofLittleEndian_lt bytes
  have hlong := read_eq (bytes ++ [signByte bytes])
  rw [ofLittleEndian_concat, byteSpan_concat] at hlong
  have hsign := signByte_eq bytes
  rcases read_eq bytes with ⟨hread, hhalf⟩ | ⟨hread, hhalf⟩
  · have hbyte : (signByte bytes).toNat = 0 := by rw [hsign, if_pos hhalf]; rfl
    rw [hbyte] at hlong
    omega
  · have hbyte : (signByte bytes).toNat = 255 := by rw [hsign, if_neg (Nat.not_lt.mpr hhalf)]; rfl
    rw [hbyte] at hlong
    omega

theorem read_signExtend (bytes : Bytes) (count : Nat) :
    read (bytes ++ List.replicate count (signByte bytes)) = read bytes := by
  induction count generalizing bytes with
  | zero => rw [List.replicate_zero, List.append_nil]
  | succ count ih =>
    have hsame : signByte (bytes ++ [signByte bytes]) = signByte bytes := by
      rw [signByte_concat, signByte_eq]
      split <;> rfl
    have hrest := ih (bytes ++ [signByte bytes])
    rw [hsame, List.append_assoc, List.singleton_append, ← List.replicate_succ] at hrest
    rw [hrest, read_concat_signByte]

end ContractHost.TwosComplement
