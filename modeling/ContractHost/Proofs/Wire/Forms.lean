import ContractHost.Wire.VarInt

/-!
# The forms of a number

A number below 253 may be one byte, and every number that fits may follow a marker in two, four or
eight bytes. The reader takes any form, shortest or not, and tells from the first byte how much of
it there must be, so bytes either begin with one form only or end inside a form.
-/

namespace ContractHost

theorem Wire.split_append (head rest : Bytes) :
    (split head.length).run (head ++ rest) = .ok (head, rest) := by
  simp [StateT.run, split_eq]

namespace VarInt

def markers : List (UInt8 × Nat) := [(0xFD, 2), (0xFE, 4), (0xFF, 8)]

/-- The byte strings that stand for a number. -/
inductive Form : Nat → Bytes → Prop
  | one (b : UInt8) (h : b < 0xFD) : Form b.toNat [b]
  | marked {marker : UInt8} {payload : Bytes} (h : (marker, payload.length) ∈ markers) :
      Form (ofLittleEndian payload) (marker :: payload)

/-- The bytes end inside a form. -/
def CutShort (bytes : Bytes) : Prop :=
  ∃ n form, Form n form ∧ bytes <+: form ∧ bytes.length < form.length

theorem Form.length_pos {n : Nat} {form : Bytes} (h : Form n form) : 0 < form.length := by
  cases h <;> simp

theorem Form.lt_size {n : Nat} {form : Bytes} (h : Form n form) : n < UInt64.size := by
  cases h with
  | one b => exact Nat.lt_trans b.toNat_lt (by decide)
  | @marked marker payload hmarker =>
    have hspan : ∀ m ∈ markers, byteSpan m.2 ≤ UInt64.size := by decide
    exact Nat.lt_of_lt_of_le (ofLittleEndian_lt payload) (hspan _ hmarker)

theorem marker_or_lt (b : UInt8) : b < 0xFD ∨ ∃ width, (b, width) ∈ markers := by
  by_cases hb : b < 0xFD
  · exact .inl hb
  · have hlast : b = 0xFD ∨ b = 0xFE ∨ b = 0xFF := by
      have hlt := b.toNat_lt
      have hge : 0xFD ≤ b.toNat := by simpa [UInt8.lt_iff_toNat_lt] using hb
      simp only [← UInt8.toNat_inj]
      change b.toNat = 0xFD ∨ b.toNat = 0xFE ∨ b.toNat = 0xFF
      omega
    right
    rcases hlast with rfl | rfl | rfl
    · exact ⟨2, by decide⟩
    · exact ⟨4, by decide⟩
    · exact ⟨8, by decide⟩

theorem readAfter_of_lt {b : UInt8} (h : b < 0xFD) : readAfter b = pure b.toNat := by
  have hne : ∀ k : UInt8, 0xFD ≤ k → b ≠ k := by
    intro k hk hbk
    subst hbk
    exact UInt8.not_lt.mpr hk h
  unfold readAfter
  rw [if_neg (hne _ (by decide)), if_neg (hne _ (by decide)), if_neg (hne _ (by decide))]

theorem readAfter_of_marker {marker : UInt8} {width : Nat} (h : (marker, width) ∈ markers) :
    readAfter marker = Wire.readNat width := by
  simp only [markers, List.mem_cons, Prod.mk.injEq, List.not_mem_nil, or_false] at h
  rcases h with ⟨rfl, rfl⟩ | ⟨rfl, rfl⟩ | ⟨rfl, rfl⟩ <;> rfl

theorem read_form {n : Nat} {form : Bytes} (h : Form n form) (max : Nat) (rest : Bytes) :
    (read max).run (form ++ rest) =
      if max < n then .error (.exceededMaximum max n) else .ok (n, rest) := by
  have hafter : ∃ marker tail, form ++ rest = marker :: tail ∧
      (readAfter marker).run tail = .ok (n, rest) := by
    cases h with
    | one b hb => exact ⟨b, rest, rfl, by rw [readAfter_of_lt hb]; rfl⟩
    | @marked marker payload hmarker =>
      refine ⟨marker, payload ++ rest, rfl, ?_⟩
      rw [readAfter_of_marker hmarker]
      simp only [Wire.readNat, StateT.run_bind, Wire.split_append]
      rfl
  obtain ⟨marker, tail, hbytes, hread⟩ := hafter
  rw [hbytes]
  simp only [read, StateT.run_bind]
  change ((readAfter marker).run tail >>= _) = _
  rw [hread]
  change StateT.run (if max < n then _ else _) rest = _
  split <;> rfl

private theorem cutShort_cases {bytes : Bytes} (h : CutShort bytes) :
    bytes = [] ∨ ∃ marker width tail, bytes = marker :: tail ∧ (marker, width) ∈ markers ∧
      tail.length < width := by
  obtain ⟨n, form, hform, hprefix, hlength⟩ := h
  cases bytes with
  | nil => exact .inl rfl
  | cons b tail =>
    right
    cases hform with
    | one b hb => simp at hlength
    | @marked marker payload hmarker =>
      obtain ⟨rfl, -⟩ := List.cons_prefix_cons.mp hprefix
      exact ⟨b, payload.length, tail, rfl, hmarker, by simpa using hlength⟩

theorem read_cutShort {bytes : Bytes} (h : CutShort bytes) (max : Nat) :
    (read max).run bytes = .error .earlyEnd := by
  rcases cutShort_cases h with rfl | ⟨marker, width, tail, rfl, hmarker, hlength⟩
  · rfl
  · have hsplit : (Wire.split width).run tail = .error .earlyEnd := by
      have hshort : ¬width ≤ tail.length := by omega
      simp [StateT.run, Wire.split_eq, hshort]
    simp only [read, StateT.run_bind]
    change ((readAfter marker).run tail >>= _) = _
    rw [readAfter_of_marker hmarker]
    simp only [Wire.readNat, StateT.run_bind, hsplit]
    rfl

/-- All bytes begin with a form or end inside one. -/
theorem exists_form_or_cutShort (bytes : Bytes) :
    (∃ n form rest, Form n form ∧ bytes = form ++ rest) ∨ CutShort bytes := by
  cases bytes with
  | nil =>
    exact .inr ⟨_, _, .one 0 (by decide), List.nil_prefix, by simp⟩
  | cons b tail =>
    rcases marker_or_lt b with hb | ⟨width, hmarker⟩
    · exact .inl ⟨_, [b], tail, .one b hb, rfl⟩
    · by_cases hlength : width ≤ tail.length
      · left
        have htake : (tail.take width).length = width := List.length_take_of_le hlength
        rw [← htake] at hmarker
        exact ⟨_, _, tail.drop width, .marked hmarker, by simp⟩
      · right
        -- any bytes do in the place of those that are missing
        let payload := tail ++ List.replicate (width - tail.length) 0
        have hpayload : payload.length = width := by simp [payload]; omega
        rw [← hpayload] at hmarker
        refine ⟨_, _, .marked hmarker, ?_, by simp [hpayload]; omega⟩
        exact List.cons_prefix_cons.mpr ⟨rfl, List.prefix_append _ _⟩

end VarInt

end ContractHost
