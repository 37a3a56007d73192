import ContractHost.Proofs.Wire.Formats

/-!
# Forms that say where they end

Forms separate the values of a set when no bytes begin with forms of two of them. Whatever a reader
delimits is separated by its forms, payloads are by their frames, and a counted run of separated
values is as well.
-/

namespace ContractHost

namespace Wire

variable {α : Type} {form : α → Bytes} {s : α → Prop}

/-- Bytes that begin with forms of two values of `s` have one value and one rest. -/
def Separates (form : α → Bytes) (s : α → Prop) : Prop :=
  ∀ ⦃a b : α⦄, s a → s b → ∀ ⦃rest rest' : Bytes⦄,
    form a ++ rest = form b ++ rest' → a = b ∧ rest = rest'

theorem Delimits.separates [WireWrite α] {reader : WireReader α}
    (h : Delimits reader s Encoded) : Separates WireWrite.encode s := by
  intro a b ha hb rest rest' heq
  have hread := h.read_back ha rfl rest
  have hread' := h.read_back hb rfl rest'
  rw [heq, hread'] at hread
  cases hread
  exact ⟨rfl, rfl⟩

namespace Separates

theorem eq_of_prefix (h : Separates form s) {a b : α} (ha : s a) (hb : s b)
    (hpart : form a <+: form b) : a = b := by
  obtain ⟨rest, hrest⟩ := hpart
  rw [← List.append_nil (form b)] at hrest
  exact (h ha hb hrest).1

theorem runs (h : Separates form s) {as bs : List α} (hlength : as.length = bs.length)
    (has : ∀ a ∈ as, s a) (hbs : ∀ b ∈ bs, s b) {rest rest' : Bytes}
    (heq : as.flatMap form ++ rest = bs.flatMap form ++ rest') : as = bs ∧ rest = rest' := by
  induction as generalizing bs with
  | nil =>
    obtain rfl := List.length_eq_zero_iff.mp hlength.symm
    exact ⟨rfl, heq⟩
  | cons a as ih =>
    cases bs with
    | nil => cases hlength
    | cons b bs =>
      rw [List.forall_mem_cons] at has hbs
      simp only [List.flatMap_cons, List.append_assoc] at heq
      obtain ⟨rfl, hbelow⟩ := h has.1 hbs.1 heq
      obtain ⟨rfl, hrest⟩ := ih (Nat.succ.inj hlength) has.2 hbs.2 hbelow
      exact ⟨rfl, hrest⟩

end Separates

end Wire

namespace VarInt

theorem separates : Wire.Separates write (· < UInt64.size) := by
  intro m n hm hn rest rest' h
  have hread := read_write hm UInt64.size rest
  rw [h, read_write hn, if_neg (Nat.lt_asymm hn), if_neg (Nat.lt_asymm hm)] at hread
  cases hread
  exact ⟨rfl, rfl⟩

end VarInt

namespace VarBytes

theorem separates : Wire.Separates write (·.length < UInt64.size) := by
  intro a b ha hb rest rest' h
  simp only [write, List.append_assoc] at h
  obtain ⟨hlength, hbelow⟩ := VarInt.separates ha hb h
  exact List.append_inj hbelow hlength

end VarBytes

theorem Wire.Separates.counted {α : Type} {form : α → Bytes} {s : α → Prop} (h : Separates form s) :
    Separates (fun values : List α => VarInt.write values.length ++ values.flatMap form)
      fun values => values.length < UInt64.size ∧ ∀ value ∈ values, s value := by
  intro as bs has hbs rest rest' heq
  simp only [List.append_assoc] at heq
  obtain ⟨hlength, hbelow⟩ := VarInt.separates has.1 hbs.1 heq
  exact h.runs hlength has.2 hbs.2 hbelow

end ContractHost
