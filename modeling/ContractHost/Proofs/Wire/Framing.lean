import ContractHost.Proofs.Wire.Forms

/-!
# Framing is read back

A number that was written in its shortest form is read back whatever follows it, and so is a
payload behind its length, unless a limit refuses them.
-/

namespace ContractHost

namespace VarInt

theorem size_pos (n : Nat) : 0 < size n := by
  unfold size
  repeat' split
  all_goals decide

@[simp] theorem length_write (n : Nat) : (write n).length = size n := by
  unfold write size
  repeat' split
  all_goals simp

private theorem form_marked {marker : UInt8} {width n : Nat} (hmarker : (marker, width) ∈ markers)
    (hn : n < byteSpan width) : Form n (marker :: littleEndian width n) := by
  have hwidth : (marker, (littleEndian width n).length) ∈ markers := by
    rwa [littleEndian_length]
  have hform := Form.marked hwidth
  rwa [ofLittleEndian_littleEndian, Nat.mod_eq_of_lt hn] at hform

theorem form_write {n : Nat} (hn : n < UInt64.size) : Form n (write n) := by
  unfold write
  split
  next hone =>
    have hbyte : (UInt8.ofNat n).toNat = n := by
      rw [UInt8.toNat_ofNat']
      exact Nat.mod_eq_of_lt (by omega)
    have hlt : UInt8.ofNat n < 0xFD := by
      rw [UInt8.lt_iff_toNat_lt, hbyte]
      exact hone
    have hform := Form.one (UInt8.ofNat n) hlt
    rwa [hbyte] at hform
  next =>
    split
    next htwo => exact form_marked (by decide) (Nat.lt_succ_of_le htwo)
    next =>
      split
      next hfour => exact form_marked (by decide) (Nat.lt_succ_of_le hfour)
      next => exact form_marked (by decide) hn

/-- A number that fits eight bytes is read back, or refused for what it is. -/
theorem read_write {n : Nat} (hn : n < UInt64.size) (max : Nat) (rest : Bytes) :
    (read max).run (write n ++ rest) =
      if max < n then .error (.exceededMaximum max n) else .ok (n, rest) :=
  read_form (form_write hn) max rest

end VarInt

namespace VarBytes

theorem length_write (payload : Bytes) : (write payload).length = size payload := by
  simp [write, size]

theorem read_write {payload : Bytes} (hn : payload.length < UInt64.size) (max : Nat)
    (rest : Bytes) :
    (read max).run (write payload ++ rest) =
      if max < payload.length then .error (.exceededMaximum max payload.length)
      else .ok (payload, rest) := by
  simp only [read, write, List.append_assoc, StateT.run_bind, VarInt.read_write hn]
  split
  · rfl
  · exact Wire.split_append payload rest

end VarBytes

end ContractHost
