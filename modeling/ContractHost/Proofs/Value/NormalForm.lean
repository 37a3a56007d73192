import ContractHost.Proofs.Value.Acceptance
import ContractHost.Proofs.Value.RoundTrip
import ContractHost.Proofs.Wire.Shortest

/-!
# Decoding and encoding again

The reader takes numbers in any form, integers of any length and flags of any byte; the writer has
one form of each, which is never longer. So what was read is written again in no more bytes, in the
same bytes only if all its parts were as short as they can be, and writing it once more changes
nothing.
-/

namespace ContractHost

namespace ValueToken

/-- A token in its shortest numbers, with its integer in the fewest bytes and its flag zero or
one. -/
inductive ShortForm : ValueToken → Bytes → Prop
  | byteString {payload number : Bytes} (hnumber : VarInt.Shortest payload.length number) :
      ShortForm (.byteString payload) (ValueTag.byteString.byte :: (number ++ payload))
  | boolean {b : UInt8} (hflag : b = 0 ∨ b = 1) :
      ShortForm (.boolean (b != 0)) [ValueTag.boolean.byte, b]
  | integer {payload number : Bytes} (hnumber : VarInt.Shortest payload.length number)
      (hpayload : TwosComplement.Shortest payload) :
      ShortForm (.integer (TwosComplement.read payload))
        (ValueTag.integer.byte :: (number ++ payload))
  | container (kind : ContainerKind) {count : Nat} {number : Bytes}
      (hnumber : VarInt.Shortest count number) :
      ShortForm (.container kind count) (kind.tag.byte :: number)

variable {maxArraySize : Nat} {token : ValueToken} {head : Bytes}

theorem ShortForm.eq_bytes (h : token.ShortForm head) : head = token.bytes := by
  cases h with
  | byteString hnumber =>
    rw [(VarInt.shortest_iff.mp hnumber).2]
    rfl
  | boolean hflag => rcases hflag with rfl | rfl <;> rfl
  | @integer payload number hnumber hpayload =>
    have hwritten := TwosComplement.shortest_iff.mp hpayload
    rw [bytes, ← hwritten, (VarInt.shortest_iff.mp hnumber).2]
    rfl
  | container kind hnumber =>
    rw [(VarInt.shortest_iff.mp hnumber).2]
    rfl

theorem Form.shortForm (h : token.Form maxArraySize head) (hbytes : head = token.bytes) :
    token.ShortForm head := by
  cases h with
  | byteString hnumber hmax =>
    have hnumber' := List.append_cancel_right (List.cons.inj hbytes).2
    exact .byteString (VarInt.shortest_iff.mpr ⟨hnumber.lt_size, hnumber'⟩)
  | boolean b =>
    have hb : b = if (b != 0) = true then 1 else 0 := (List.cons.inj (List.cons.inj hbytes).2).1
    apply ShortForm.boolean
    split at hb
    next => exact .inr hb
    next => exact .inl hb
  | @integer payload number hnumber hmax =>
    have hshort := TwosComplement.length_write_read_le payload
    have hsize := VarInt.size_mono hshort
    have hbelow : number ++ payload = VarBytes.write (TwosComplement.write _) := (List.cons.inj hbytes).2
    have htotal := congrArg List.length hbelow
    rw [List.length_append, VarBytes.length_write, VarBytes.size] at htotal
    have hnumber' := hnumber.size_le.1
    have hpayload : payload = TwosComplement.write (TwosComplement.read payload) :=
      TwosComplement.eq_of_read_eq (TwosComplement.read_write _).symm (by omega)
    rw [← hpayload] at hbelow
    exact .integer (VarInt.shortest_iff.mpr ⟨hnumber.lt_size, List.append_cancel_right hbelow⟩)
      (TwosComplement.shortest_iff.mpr hpayload)
  | container kind hnumber hmax =>
    exact .container kind (VarInt.shortest_iff.mpr ⟨hnumber.lt_size, (List.cons.inj hbytes).2⟩)

theorem Form.length_bytes_le (h : token.Form maxArraySize head) :
    token.bytes.length ≤ head.length := by
  cases h with
  | byteString hnumber =>
    have := hnumber.size_le.1
    simp only [bytes, VarBytes.length_write, VarBytes.size, List.length_cons, List.length_append]
    omega
  | boolean => exact Nat.le_refl _
  | @integer payload number hnumber =>
    have hshort := TwosComplement.length_write_read_le payload
    have hsize := VarInt.size_mono hshort
    have := hnumber.size_le.1
    simp only [bytes, VarBytes.length_write, VarBytes.size, List.length_cons, List.length_append]
    omega
  | container kind hnumber =>
    have := hnumber.size_le.1
    simp only [bytes, VarInt.length_write, List.length_cons]
    omega

theorem Form.fits (h : token.Form maxArraySize head) : token.Fits maxArraySize := by
  cases h with
  | byteString hnumber hmax => exact hmax
  | boolean => trivial
  | @integer payload number hnumber hmax =>
    exact Nat.le_trans (TwosComplement.length_write_read_le payload) hmax
  | container kind hnumber hmax => exact hmax

end ValueToken

/-- The bytes derive one value, with every token in its short form. -/
def DerivesShortest (maxArraySize : Nat) (bytes : Bytes) : Prop :=
  ∃ forest heads, forest.length = 1 ∧ Derives maxArraySize forest bytes ∧
    List.Forall₂ ValueToken.ShortForm forest.tokens heads ∧ bytes = heads.flatten

variable {maxArraySize : Nat} {forest : ValueForest} {front : Bytes}

theorem Derives.exists_heads (h : Derives maxArraySize forest front) :
    ∃ heads, List.Forall₂ (ValueToken.Form maxArraySize) forest.tokens heads ∧
      front = heads.flatten := by
  induction h with
  | nil => exact ⟨[], .nil, rfl⟩
  | @cons token inside after head body rest hhead _ _ _ ihBody ihRest =>
    obtain ⟨inner, hinner, rfl⟩ := ihBody
    obtain ⟨later, hlater, rfl⟩ := ihRest
    exact ⟨head :: (inner ++ later), .cons hhead (List.rel_append hinner hlater), by simp⟩

namespace ValueToken

private theorem length_flatMap_bytes_le {tokens : List ValueToken} {heads : List Bytes}
    (h : List.Forall₂ (Form maxArraySize) tokens heads) :
    (tokens.flatMap bytes).length ≤ heads.flatten.length := by
  induction h with
  | nil => exact Nat.le_refl _
  | cons hhead _ ih =>
    have := hhead.length_bytes_le
    simp only [List.flatMap_cons, List.flatten_cons, List.length_append]
    omega

private theorem shortForms_of_eq {tokens : List ValueToken} {heads : List Bytes}
    (h : List.Forall₂ (Form maxArraySize) tokens heads)
    (hbytes : tokens.flatMap bytes = heads.flatten) : List.Forall₂ ShortForm tokens heads := by
  induction h with
  | nil => exact .nil
  | @cons token head tokens heads hhead hrest ih =>
    have hhere := hhead.length_bytes_le
    have hlater := length_flatMap_bytes_le hrest
    rw [List.flatMap_cons, List.flatten_cons] at hbytes
    have htotal := congrArg List.length hbytes
    simp only [List.length_append] at htotal
    obtain ⟨hsame, hbelow⟩ := List.append_inj hbytes (by omega)
    exact .cons (hhead.shortForm hsame.symm) (ih hbelow)

private theorem flatten_of_shortForms {tokens : List ValueToken} {heads : List Bytes}
    (h : List.Forall₂ ShortForm tokens heads) : tokens.flatMap bytes = heads.flatten := by
  induction h with
  | nil => rfl
  | cons hhead _ ih => rw [List.flatMap_cons, List.flatten_cons, ih, hhead.eq_bytes]

end ValueToken

/-- The tokens of a derived value are written in no more bytes, and in the same bytes only if these
have short forms throughout. -/
theorem Derives.flatMap_bytes (h : Derives maxArraySize forest front) (hone : forest.length = 1) :
    (forest.tokens.flatMap ValueToken.bytes).length ≤ front.length ∧
      (forest.tokens.flatMap ValueToken.bytes = front ↔ DerivesShortest maxArraySize front) ∧
      ∀ token ∈ forest.tokens, token.Fits maxArraySize := by
  obtain ⟨heads, hheads, hfront⟩ := h.exists_heads
  refine ⟨?_, ⟨fun hsame => ?_, ?_⟩, ?_⟩
  · rw [hfront]
    exact ValueToken.length_flatMap_bytes_le hheads
  · rw [hfront] at hsame
    exact ⟨forest, heads, hone, h, ValueToken.shortForms_of_eq hheads hsame, hfront⟩
  · rintro ⟨forest', heads', hone', hderives', hshort, hfront'⟩
    have hsame : front ++ [] = front ++ [] := rfl
    obtain ⟨rfl, -⟩ := hderives'.unique h (hone'.trans hone.symm) hsame
    rw [hfront']
    exact ValueToken.flatten_of_shortForms hshort
  · exact ((List.forall₂_and_left _ _).mp (hheads.imp fun _ _ hhead => ⟨hhead.fits, hhead⟩)).1

namespace StackValue

variable {reading : ValueLimits} {heap later : Heap} {bytes : Bytes} {value : StackValue}

private theorem exists_derived_of_decode (hreading : reading.maxArraySize.toNat ≤ 0xFFFFFFFF)
    (h : decode reading bytes heap = .ok (value, later)) :
    ∃ forest front, front <+: bytes ∧ forest.length = 1 ∧
      Derives reading.maxArraySize.toNat forest front ∧ forest.place heap = ([value], later) ∧
      later.KeysDistinctIn value ∧
      ∀ rest, decode reading (front ++ rest) heap = .ok (value, later) := by
  have hwrap : 2 * reading.maxArraySize.toNat < Decoder.pendingBound := by
    have hbound : Decoder.pendingBound = 18446744073709551616 := rfl
    omega
  rw [decode] at h
  cases hflat : Decoder.flatten reading.maxArraySize.toNat bytes with
  | error e => rw [hflat] at h; cases h
  | ok tokens =>
    rw [hflat] at h
    obtain ⟨forest, front, hprefix, hderives, hone, htokens, hany⟩ :=
      Decoder.exists_derives_of_readTokens hwrap hflat
    rw [List.append_nil] at htokens
    subst htokens
    have hdecode : ∀ rest, decode reading (front ++ rest) heap =
        Decoder.reconstruct forest.tokens.reverse heap := by
      intro rest
      rw [decode, Decoder.flatten, hany rest]
    obtain ⟨hok, herror⟩ := Decoder.rebuild_place hderives [] heap
    have hlength := (hderives.spells_place heap).1
    rw [hone] at hlength
    obtain ⟨placed, hplaced⟩ := List.length_eq_one_iff.mp hlength
    simp only [hplaced, List.mem_singleton, forall_eq, List.append_nil] at hok herror
    by_cases hdistinct : (forest.place heap).2.KeysDistinctIn placed
    · have hbuilt : Decoder.reconstruct forest.tokens.reverse heap =
          .ok (placed, (forest.place heap).2) := by
        rw [Decoder.reconstruct, hok hdistinct]
      dsimp only at h
      rw [hbuilt] at h
      cases h
      refine ⟨forest, front, hprefix, hone, hderives, Prod.ext hplaced rfl, hdistinct, fun rest => ?_⟩
      rw [hdecode rest, hbuilt]
    · dsimp only at h
      rw [Decoder.reconstruct, herror hdistinct] at h
      cases h

/-- What a value that was read from the front of bytes is written as, whatever its heap gets after
it: no more bytes, the same ones only if these had short forms throughout, and bytes that are read
as an equal value which is written as they are. -/
structure NormalForm (reading : ValueLimits) (value : StackValue) (later : Heap)
    (front canonical : Bytes) : Prop where
  length_le : canonical.length ≤ front.length
  eq_iff : canonical = front ↔ DerivesShortest reading.maxArraySize.toNat front
  encode : ∀ now, later.Extends now → ∀ writing : ValueLimits,
    front.length ≤ writing.maxItemSize.toNat → value.encode now writing = .ok canonical
  decode : ∀ now, later.Extends now → ∀ writing : ValueLimits,
    front.length ≤ writing.maxItemSize.toNat → ∃ copy final,
      (∀ rest, decode reading (canonical ++ rest) now = .ok (copy, final)) ∧
      now.Extends final ∧ final.equal copy value = true ∧ final.equal value copy = true ∧
      copy.encode final writing = .ok canonical

/-- Whatever was decoded, from bytes of any length, is the value that their front derives, and it
has a normal form. -/
theorem exists_normalForm (hreading : reading.maxArraySize.toNat ≤ 0xFFFFFFFF)
    (h : decode reading bytes heap = .ok (value, later)) :
    ∃ front canonical, front <+: bytes ∧
      DerivesValue reading.maxArraySize.toNat heap front value later ∧
      (∀ rest, decode reading (front ++ rest) heap = .ok (value, later)) ∧
      NormalForm reading value later front canonical := by
  obtain ⟨forest, front, hprefix, hone, hderives, hplace, hdistinct, hany⟩ :=
    exists_derived_of_decode hreading h
  obtain ⟨hle, hshortest, hfits⟩ := hderives.flatMap_bytes hone
  have hspell := (hderives.spells_place heap).2.2
  rw [hplace] at hspell
  refine ⟨front, forest.tokens.flatMap ValueToken.bytes, hprefix, ⟨forest, hone, hderives, hplace⟩,
    hany, hle, hshortest, fun now hnow writing hfront => ?_, fun now hnow writing hfront => ?_⟩
  · exact encode_spelled (hspell.later hnow) (Nat.le_trans hle hfront)
  · have hfit := Nat.le_trans hle hfront
    have hsize := Nat.lt_of_le_of_lt hfit writing.maxItemSize.toNat_lt
    have hvalue := hspell.later hnow
    have hkeys := (hspell.keysDistinctIn_iff hnow).mpr (by simpa using hdistinct)
    obtain ⟨copy, final, hext, hcopy, hdecode⟩ :=
      decode_spelled_into now hvalue (hkeys value List.mem_cons_self) hsize reading
    have hvalue' := hvalue.later hext
    refine ⟨copy, final, fun rest => ?_, hext, Heap.equal_of_spells hcopy hvalue',
      Heap.equal_of_spells hvalue' hcopy, encode_spelled hcopy hfit⟩
    obtain ⟨e, hrest⟩ := hdecode rest
    rw [hrest, if_pos hfits]

end StackValue

end ContractHost
