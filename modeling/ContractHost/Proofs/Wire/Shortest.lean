import ContractHost.Proofs.Wire.Framing

/-!
# The shortest form of a number

Of the forms of a number one is shorter than all others, and it is the one that is written. Larger
numbers never have shorter forms than smaller ones.
-/

namespace ContractHost.VarInt

/-- A form of the number, and none is shorter. -/
def Shortest (n : Nat) (form : Bytes) : Prop :=
  Form n form ∧ ∀ other, Form n other → form.length ≤ other.length

theorem size_mono {m n : Nat} (h : m ≤ n) : size m ≤ size n := by
  unfold size
  repeat' split
  all_goals omega

private theorem size_of_marker {marker : UInt8} {width n : Nat} (hmarker : (marker, width) ∈ markers)
    (hn : n < byteSpan width) :
    size n ≤ width + 1 ∧ (size n = width + 1 → write n = marker :: littleEndian width n) := by
  simp only [markers, List.mem_cons, Prod.mk.injEq, List.not_mem_nil, or_false] at hmarker
  unfold size write
  rcases hmarker with ⟨rfl, rfl⟩ | ⟨rfl, rfl⟩ | ⟨rfl, rfl⟩
  · have hspan : n ≤ 0xFFFF := Nat.lt_succ_iff.mp hn
    rw [if_pos hspan, if_pos hspan]
    split <;> simp
  · have hspan : n ≤ 0xFFFFFFFF := Nat.lt_succ_iff.mp hn
    rw [if_pos hspan, if_pos hspan]
    repeat' split
    all_goals simp
  · repeat' split
    all_goals simp

theorem Form.size_le {n : Nat} {form : Bytes} (h : Form n form) :
    size n ≤ form.length ∧ (form.length = size n → form = write n) := by
  cases h with
  | one b hb =>
    have hlt : b.toNat < 0xFD := hb
    have hbyte : littleEndian 1 b.toNat = [b] := by simp [littleEndian]
    unfold size write
    rw [if_pos hlt, if_pos hlt, hbyte]
    exact ⟨Nat.le_refl _, fun _ => rfl⟩
  | @marked marker payload hmarker =>
    obtain ⟨hle, hwrite⟩ := size_of_marker hmarker (ofLittleEndian_lt payload)
    refine ⟨hle, fun hlength => ?_⟩
    rw [hwrite hlength.symm, littleEndian_ofLittleEndian]

/-- What is written is the only shortest form. -/
theorem shortest_iff {n : Nat} {form : Bytes} :
    Shortest n form ↔ n < UInt64.size ∧ form = write n := by
  constructor
  · rintro ⟨hform, hleast⟩
    have hn := hform.lt_size
    have hwritten := hleast _ (form_write hn)
    rw [length_write] at hwritten
    exact ⟨hn, hform.size_le.2 (Nat.le_antisymm hwritten hform.size_le.1)⟩
  · rintro ⟨hn, rfl⟩
    refine ⟨form_write hn, fun other hother => ?_⟩
    rw [length_write]
    exact hother.size_le.1

end ContractHost.VarInt
