import ContractHost.Proofs.Wire.Formats
import ContractHost.Serial.Binary

/-!
# Binary forms say where they end

A value is read off the front of its form, whatever follows, and a part of the form is too short
for any value. This carries over from numbers and fixed byte strings to all that is read one part
after the other. Lists are counted in eight bytes, which is enough for forms of fewer than 2^64
bytes, since every element takes one at least.
-/

namespace ContractHost

namespace BinaryForm

variable {α β : Type}

/-- A value is read off the front of a form and nothing off a part of it. -/
structure ReadsOff (reader : BinaryReader α) (form : Bytes) (x : α) : Prop where
  read_back : ∀ rest, reader.run (form ++ rest) = some (x, rest)
  cut_short : ∀ part, part <+: form → part ≠ form → reader.run part = none

namespace ReadsOff

theorem pure (x : α) : ReadsOff (pure x) [] x where
  read_back _ := rfl
  cut_short _ hpart hne := absurd (List.prefix_nil.mp hpart) hne

theorem bind {reader : BinaryReader α} {next : α → BinaryReader β} {form form' : Bytes} {x : α}
    {y : β} (h : ReadsOff reader form x) (hnext : ReadsOff (next x) form' y) :
    ReadsOff (reader >>= next) (form ++ form') y where
  read_back rest := by
    rw [List.append_assoc, StateT.run_bind, h.read_back]
    exact hnext.read_back rest
  cut_short := by
    intro part hpart hne
    rw [StateT.run_bind]
    by_cases hwhole : form <+: part
    · obtain ⟨part', rfl⟩ := hwhole
      rw [h.read_back]
      apply hnext.cut_short part' ((List.prefix_append_right_inj form).mp hpart)
      intro hsame
      exact hne (hsame ▸ rfl)
    · have hshort : part <+: form :=
        (List.prefix_or_prefix_of_prefix hpart (List.prefix_append form form')).resolve_right hwhole
      rw [h.cut_short part hshort fun hsame => hwhole (hsame ▸ List.prefix_refl form)]
      rfl

theorem map {reader : BinaryReader α} {form : Bytes} {x : α} (h : ReadsOff reader form x)
    (f : α → β) : ReadsOff (reader >>= fun x => Pure.pure (f x)) form (f x) := by
  have hmap : ReadsOff (reader >>= fun x => Pure.pure (f x)) (form ++ []) (f x) :=
    h.bind (pure (f x))
  rwa [List.append_nil] at hmap

theorem take (form : Bytes) : ReadsOff (take form.length) form form where
  read_back rest := by
    change (if ((form ++ rest).take form.length).length = form.length then
      some ((form ++ rest).take form.length, (form ++ rest).drop form.length) else none) = _
    rw [List.take_left, List.drop_left, if_pos rfl]
  cut_short := by
    intro part hpart hne
    have hshort : part.length ≠ form.length := fun hsame => hne (hpart.eq_of_length hsame)
    refine if_neg ?_
    rwa [List.take_of_length_le hpart.length_le]

theorem takeAs {make : Bytes → Option α} {form : Bytes} {x : α} (h : make form = some x) :
    ReadsOff (BinaryForm.take form.length >>= fun bytes => orFail (make bytes)) form x := by
  have hmake : ReadsOff (orFail (make form)) [] x := by
    rw [h]
    exact pure x
  have hread : ReadsOff (BinaryForm.take form.length >>= fun bytes => orFail (make bytes))
      (form ++ []) x := (take form).bind hmake
  rwa [List.append_nil] at hread

theorem number {width n : Nat} (h : n < byteSpan width) :
    ReadsOff (readNat width) (littleEndian width n) n := by
  have hread := (take (littleEndian width n)).map ofLittleEndian
  rwa [littleEndian_length, ofLittleEndian_littleEndian, Nat.mod_eq_of_lt h] at hread

end ReadsOff

end BinaryForm

open BinaryForm

/-- Every value has bytes in its form and is read off the front of it, if a length of 64 bits can
count the bytes. -/
class LawfulBinary (α : Type) [BinaryForm α] : Prop where
  length_pos : ∀ x : α, 0 < (write x).length
  readsOff : ∀ x : α, (write x).length < UInt64.size → ReadsOff read (write x) x

namespace LawfulBinary

variable {α β : Type}

theorem field [BinaryForm α] [LawfulBinary α] {x : α} {next : α → BinaryReader β} {form : Bytes}
    {y : β} (h : (write x ++ form).length < UInt64.size)
    (hnext : form.length < UInt64.size → ReadsOff (next x) form y) :
    ReadsOff (read >>= next) (write x ++ form) y := by
  rw [List.length_append] at h
  exact (readsOff x (by omega)).bind (hnext (by omega))

theorem lastField [BinaryForm α] [LawfulBinary α] {x : α} (f : α → β)
    (h : (write x).length < UInt64.size) :
    ReadsOff (read >>= fun x => pure (f x)) (write x) (f x) :=
  (readsOff x h).map f

theorem kind {number : Nat} {next : Nat → BinaryReader β} {form : Bytes} {y : β}
    (h : (littleEndian 4 number ++ form).length < UInt64.size) (hnumber : number < byteSpan 4)
    (hnext : form.length < UInt64.size → ReadsOff (next number) form y) :
    ReadsOff (readNat 4 >>= next) (littleEndian 4 number ++ form) y := by
  rw [List.length_append] at h
  exact (ReadsOff.number hnumber).bind (hnext (by omega))

theorem of_wrapped [BinaryForm α] [LawfulBinary α] [BinaryForm β] (get : β → α) (make : α → β)
    (hmake : ∀ y, make (get y) = y) (hwrite : ∀ y, write y = write (get y))
    (hread : BinaryForm.read = BinaryForm.read >>= fun x => (pure (make x) : BinaryReader β)) :
    LawfulBinary β where
  length_pos y := by
    rw [hwrite]
    exact length_pos (get y)
  readsOff y h := by
    rw [hwrite] at h ⊢
    have hlast := lastField make h
    rwa [hmake, ← hread] at hlast

theorem of_fields [BinaryForm α] [LawfulBinary α] [BinaryForm β] (first : β → α)
    (rest : β → Bytes) (hwrite : ∀ y, write y = write (first y) ++ rest y)
    (hreads : ∀ y, (write (first y) ++ rest y).length < UInt64.size →
      ReadsOff read (write (first y) ++ rest y) y) : LawfulBinary β where
  length_pos y := by
    rw [hwrite]
    exact Nat.lt_of_lt_of_le (length_pos (first y)) (List.prefix_append _ _).length_le
  readsOff y h := by
    rw [hwrite] at h ⊢
    exact hreads y h

theorem littleEndian_length_pos {width : Nat} (hwidth : 0 < width) (n : Nat) (form : Bytes) :
    0 < (littleEndian width n ++ form).length := by
  rw [List.length_append, littleEndian_length]
  exact Nat.add_pos_left hwidth _

instance : LawfulBinary Bool where
  length_pos _ := Nat.one_pos
  readsOff b _ := by
    have hread : ∀ n : Nat, n < byteSpan 1 → ReadsOff (readNat 1) (littleEndian 1 n) n :=
      fun _ => ReadsOff.number
    cases b with
    | false => exact (hread 0 (by decide)).bind (.pure false)
    | true => exact (hread 1 (by decide)).bind (.pure true)

instance : LawfulBinary UInt8 where
  length_pos _ := Nat.one_pos
  readsOff n _ := by
    have hform : littleEndian 1 n.toNat = [n] := by
      rw [littleEndian_succ, UInt8.ofNat_toNat]
      rfl
    have hread : ReadsOff (readNat 1) (littleEndian 1 n.toNat) n.toNat := .number n.toNat_lt
    have hbyte := hread.map UInt8.ofNat
    rwa [UInt8.ofNat_toNat, hform] at hbyte

instance : LawfulBinary UInt32 where
  length_pos n := Nat.lt_of_lt_of_eq (by decide) (littleEndian_length 4 n.toNat).symm
  readsOff n _ := by
    have hread : ReadsOff (readNat 4) (littleEndian 4 n.toNat) n.toNat := .number n.toNat_lt
    have hword := hread.map UInt32.ofNat
    rwa [UInt32.ofNat_toNat] at hword

instance : LawfulBinary UInt64 where
  length_pos n := Nat.lt_of_lt_of_eq (by decide) (littleEndian_length 8 n.toNat).symm
  readsOff n _ := by
    have hread : ReadsOff (readNat 8) (littleEndian 8 n.toNat) n.toNat := .number n.toNat_lt
    have hword := hread.map UInt64.ofNat
    rwa [UInt64.ofNat_toNat] at hword

instance (n : Nat) : LawfulBinary (FixedBytes (n + 1)) where
  length_pos f := Nat.lt_of_lt_of_eq n.succ_pos f.length_eq.symm
  readsOff f _ := by
    have hread := ReadsOff.takeAs (FixedBytes.ofBytes?_bytes f)
    rwa [f.length_eq] at hread

theorem counted {count : Nat} {next : Nat → BinaryReader β} {form : Bytes} {y : β}
    (h : (littleEndian 8 count ++ form).length < UInt64.size) (hcount : count ≤ form.length)
    (hnext : form.length < UInt64.size → ReadsOff (next count) form y) :
    ReadsOff (readNat 8 >>= next) (littleEndian 8 count ++ form) y := by
  rw [List.length_append] at h
  have hsize : byteSpan 8 = UInt64.size := rfl
  exact (ReadsOff.number (by omega)).bind (hnext (by omega))

instance : LawfulBinary String where
  length_pos _ := littleEndian_length_pos (by decide) _ _
  readsOff text h :=
    counted h (Nat.le_refl _) fun _ => ReadsOff.takeAs (Text.ofUtf8?_utf8 text)

variable [BinaryForm α] [LawfulBinary α]

theorem length_le_flatMap_write (xs : List α) : xs.length ≤ (xs.flatMap write).length := by
  induction xs with
  | nil => exact Nat.le_refl 0
  | cons x xs ih =>
    have hx := length_pos x
    rw [List.flatMap_cons, List.length_append, List.length_cons]
    omega

theorem readMany_readsOff (xs : List α) (h : (xs.flatMap write).length < UInt64.size) :
    ReadsOff (readMany read xs.length) (xs.flatMap write) xs := by
  induction xs with
  | nil => exact .pure []
  | cons x xs ih =>
    rw [List.flatMap_cons] at h ⊢
    apply field h
    intro h
    exact (ih h).map (x :: ·)

instance : LawfulBinary (List α) where
  length_pos _ := littleEndian_length_pos (by decide) _ _
  readsOff xs h := counted h (length_le_flatMap_write xs) (readMany_readsOff xs)

end LawfulBinary

end ContractHost
