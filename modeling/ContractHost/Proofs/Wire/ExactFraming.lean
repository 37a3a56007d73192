import ContractHost.Proofs.Wire.Unambiguous

/-!
# Framing is exact

Numbers and payloads are read back from what is written of them whenever a limit allows for them.
What is written is as long as announced, nothing shorter is read as the same value, and it never
goes on as another value.
-/

namespace ContractHost

/-- The values of a format are measured by an amount, which has eight bytes at most when it is
written and is held against a limit when it is read. -/
structure Wire.FramesExactly {α : Type} (read : Nat → WireReader α) (write : α → Bytes)
    (size amount : α → Nat) : Prop where
  /-- A value is read back, whatever follows it, or refused by its amount. -/
  read_write : ∀ x : α, amount x < UInt64.size → ∀ (max : Nat) (rest : Bytes),
    (read max).run (write x ++ rest) =
      if max < amount x then .error (.exceededMaximum max (amount x)) else .ok (x, rest)
  length_write : ∀ x : α, (write x).length = size x
  /-- Whatever is read as a value is within the limit and at least as long as what is written of
  the value, and nothing else is as short. -/
  write_least : ∀ (max : Nat) (bytes : Bytes) (x : α) (rest : Bytes),
    (read max).run bytes = .ok (x, rest) →
      amount x ≤ max ∧ ∃ form, bytes = form ++ rest ∧ size x ≤ form.length ∧
        (form.length = size x → form = write x)
  size_mono : ∀ x y : α, amount x ≤ amount y → size x ≤ size y
  /-- What is written of a value is not the beginning of what is written of another. -/
  write_prefix : ∀ x y : α, amount x < UInt64.size → amount y < UInt64.size →
    write x <+: write y → x = y

open Wire

theorem VarInt.framesExactly : FramesExactly read write size id where
  read_write _ hn := read_write hn
  length_write := length_write
  write_least max bytes n rest h := by
    obtain ⟨form, ⟨hform, hle⟩, hbytes⟩ := (Delimits.varInt max).only_form trivial h
    exact ⟨hle, form, hbytes, hform.size_le⟩
  size_mono _ _ := size_mono
  write_prefix _ _ := separates.eq_of_prefix

theorem VarBytes.framesExactly : FramesExactly read write size List.length where
  read_write _ hn := read_write hn
  length_write := length_write
  write_least max bytes payload rest h := by
    obtain ⟨_, ⟨hle, length, hlength, rfl⟩, hbytes⟩ := (Delimits.varBytes max).only_form trivial h
    obtain ⟨hsize, hleast⟩ := hlength.size_le
    refine ⟨hle, length ++ payload, hbytes, ?_, ?_⟩
    · rw [List.length_append]
      exact Nat.add_le_add_right hsize _
    · intro hshort
      rw [List.length_append] at hshort
      rw [hleast (Nat.add_right_cancel hshort)]
      rfl
  size_mono _ _ hle := Nat.add_le_add (VarInt.size_mono hle) hle
  write_prefix _ _ := separates.eq_of_prefix

/-- A number is measured by itself and a payload by its length: both are framed exactly. -/
theorem numbers_and_payloads_frame_exactly :
    FramesExactly VarInt.read VarInt.write VarInt.size id ∧
      FramesExactly VarBytes.read VarBytes.write VarBytes.size List.length :=
  ⟨VarInt.framesExactly, VarBytes.framesExactly⟩

/-- The first number that is a marker itself takes three bytes, and a payload of two bytes is too
long for a limit of one. -/
theorem numbers_and_payloads_frame_exactly_marker :
    (VarInt.read 0xFF).run ([0xFD, 0xFD, 0x00] ++ [7]) = .ok (0xFD, [7]) ∧
      (VarBytes.read 1).run ([2, 5, 6] ++ [7]) = .error (.exceededMaximum 1 2) :=
  ⟨numbers_and_payloads_frame_exactly.1.read_write 0xFD (by decide) 0xFF [7],
    numbers_and_payloads_frame_exactly.2.read_write [5, 6] (by decide) 1 [7]⟩

end ContractHost
