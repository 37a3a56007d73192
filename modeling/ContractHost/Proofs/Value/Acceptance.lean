import ContractHost.Proofs.Value.FirstPass
import ContractHost.Proofs.Value.SecondPass

/-!
# What the decoder accepts

The decoder accepts the bytes that begin with one value of the grammar in which no map has two
equal keys, and it yields that value. For all other bytes it reports the first fault, or, where
there is none, a map with two equal keys.
-/

namespace ContractHost

/-- The bytes derive a value, whose containers come after what the heap has already. -/
def DerivesValue (maxArraySize : Nat) (heap : Heap) (bytes : Bytes) (value : StackValue)
    (later : Heap) : Prop :=
  ∃ forest, forest.length = 1 ∧ Derives maxArraySize forest bytes ∧
    forest.place heap = ([value], later)

theorem DerivesValue.unique {maxArraySize : Nat} {heap later later' : Heap}
    {front front' rest rest' : Bytes} {value value' : StackValue}
    (h : DerivesValue maxArraySize heap front value later)
    (h' : DerivesValue maxArraySize heap front' value' later')
    (hbytes : front ++ rest = front' ++ rest') :
    front = front' ∧ value = value' ∧ later = later' := by
  obtain ⟨forest, hone, hderives, hplace⟩ := h
  obtain ⟨forest', hone', hderives', hplace'⟩ := h'
  obtain ⟨rfl, rfl⟩ := hderives.unique hderives' (hone.trans hone'.symm) hbytes
  rw [hplace] at hplace'
  cases hplace'
  exact ⟨rfl, rfl, rfl⟩

namespace StackValue

variable {limits : ValueLimits} {heap later : Heap} {front rest : Bytes} {value : StackValue}

/-- A derived value is decoded, unless it has a map with two equal keys. -/
theorem decode_derived (h : DerivesValue limits.maxArraySize.toNat heap front value later)
    (hroom : Decoder.Room limits.maxArraySize.toNat 1 (front ++ rest)) :
    (later.KeysDistinctIn value → decode limits (front ++ rest) heap = .ok (value, later)) ∧
    (¬later.KeysDistinctIn value → decode limits (front ++ rest) heap = .error .malformedData) := by
  obtain ⟨forest, hone, hderives, hplace⟩ := h
  have hpending : 1 = forest.length + 0 := hone.symm
  rw [hpending] at hroom
  have hread := (Decoder.readTokens_derived hderives 0 [] rest hroom).1
  rw [← hpending, Decoder.readTokens, List.append_nil] at hread
  have hdecode : decode limits (front ++ rest) heap =
      Decoder.reconstruct forest.tokens.reverse heap := by
    rw [decode, Decoder.flatten, hread]
  obtain ⟨hok, herror⟩ := Decoder.rebuild_place hderives [] heap
  simp only [hplace, List.mem_singleton, forall_eq, List.append_nil] at hok herror
  rw [hdecode, Decoder.reconstruct]
  constructor
  · intro hdistinct
    rw [hok hdistinct]
  · intro hrepeated
    rw [herror hrepeated]

theorem decode_fault {bytes : Bytes} {e : DecodeError}
    (h : FirstFault limits.maxArraySize.toNat 1 bytes e)
    (hroom : Decoder.Room limits.maxArraySize.toNat 1 bytes) (heap : Heap) :
    decode limits bytes heap = .error e := by
  have hread := Decoder.readTokens_firstFault h 0 [] hroom
  rw [decode, Decoder.flatten, hread]

private theorem exists_derived_or_fault (maxArraySize : Nat) (heap : Heap) (bytes : Bytes) :
    (∃ front rest value later, bytes = front ++ rest ∧
      DerivesValue maxArraySize heap front value later) ∨
    ∃ e, FirstFault maxArraySize 1 bytes e := by
  apply (derives_or_firstFault maxArraySize 1 bytes).imp_left
  rintro ⟨forest, front, rest, hderives, hone, rfl⟩
  have hlength := (hderives.spells_place heap).1
  rw [hone] at hlength
  obtain ⟨value, hvalue⟩ := List.length_eq_one_iff.mp hlength
  exact ⟨front, rest, value, (forest.place heap).2, rfl, forest, hone, hderives,
    Prod.ext hvalue rfl⟩

/-- Decoding ends with a value whose keys are distinct, at a value with a map that has two equal
keys, or at the first fault. -/
theorem decode_outcome {bytes : Bytes} (hroom : Decoder.Room limits.maxArraySize.toNat 1 bytes)
    (heap : Heap) :
    (∃ front value later, front <+: bytes ∧
      DerivesValue limits.maxArraySize.toNat heap front value later ∧
      later.KeysDistinctIn value ∧ decode limits bytes heap = .ok (value, later)) ∨
    (∃ front value later, front <+: bytes ∧
      DerivesValue limits.maxArraySize.toNat heap front value later ∧
      ¬later.KeysDistinctIn value ∧ decode limits bytes heap = .error .malformedData) ∨
    ∃ e, FirstFault limits.maxArraySize.toNat 1 bytes e ∧ decode limits bytes heap = .error e := by
  rcases exists_derived_or_fault limits.maxArraySize.toNat heap bytes with
    ⟨front, rest, value, later, rfl, h⟩ | ⟨e, h⟩
  · have hprefix := List.prefix_append front rest
    obtain ⟨hok, hmalformed⟩ := decode_derived h hroom
    by_cases hdistinct : later.KeysDistinctIn value
    · exact .inl ⟨front, value, later, hprefix, h, hdistinct, hok hdistinct⟩
    · exact .inr (.inl ⟨front, value, later, hprefix, h, hdistinct, hmalformed hdistinct⟩)
  · exact .inr (.inr ⟨e, h, decode_fault h hroom heap⟩)

/-- Bytes that a length of 32 bits can count are decoded exactly if the grammar derives a value
from their front in which no two keys of a map are equal, and the result is that value. The front
and the value are determined. The error is otherwise that of the first fault in pre-order, and
malformed data where all of a value can be read but a map in it has two equal keys. -/
theorem decode_iff_derived {limits : ValueLimits} {bytes : Bytes}
    (hlimit : limits.maxArraySize.toNat ≤ 0xFFFFFFFF) (hbytes : bytes.length < 0x100000000)
    (heap : Heap) :
    (∀ value later, decode limits bytes heap = .ok (value, later) ↔
      ∃ front, front <+: bytes ∧
        DerivesValue limits.maxArraySize.toNat heap front value later ∧
        later.KeysDistinctIn value) ∧
    (∀ front front' value value' later later', front <+: bytes → front' <+: bytes →
      DerivesValue limits.maxArraySize.toNat heap front value later →
      DerivesValue limits.maxArraySize.toNat heap front' value' later' →
      front = front' ∧ value = value' ∧ later = later') ∧
    (∀ e, decode limits bytes heap = .error e ↔
      FirstFault limits.maxArraySize.toNat 1 bytes e ∨
      e = .malformedData ∧ ∃ front value later, front <+: bytes ∧
        DerivesValue limits.maxArraySize.toNat heap front value later ∧
        ¬later.KeysDistinctIn value) := by
  have hroom := Decoder.room_of_length_lt hlimit hbytes
  have houtcome := decode_outcome hroom heap
  refine ⟨fun value later => ⟨fun hok => ?_, ?_⟩, ?_, fun e => ⟨fun herror => ?_, ?_⟩⟩
  · rw [hok] at houtcome
    rcases houtcome with
      ⟨front, _, _, hfront, h, hdistinct, ⟨⟩⟩ | ⟨_, _, _, _, _, _, ⟨⟩⟩ | ⟨_, _, ⟨⟩⟩
    exact ⟨front, hfront, h, hdistinct⟩
  · rintro ⟨front, ⟨rest, rfl⟩, h, hdistinct⟩
    exact (decode_derived h hroom).1 hdistinct
  · rintro front front' value value' later later' ⟨rest, hrest⟩ ⟨rest', hrest'⟩ h h'
    exact h.unique h' (hrest.trans hrest'.symm)
  · rw [herror] at houtcome
    rcases houtcome with
      ⟨_, _, _, _, _, _, ⟨⟩⟩ | ⟨front, value, later, hfront, h, hrepeated, ⟨⟩⟩ | ⟨_, h, ⟨⟩⟩
    · exact .inr ⟨rfl, front, value, later, hfront, h, hrepeated⟩
    · exact .inl h
  · rintro (h | ⟨rfl, front, value, later, ⟨rest, rfl⟩, h, hrepeated⟩)
    · exact decode_fault h hroom heap
    · exact (decode_derived h hroom).2 hrepeated

/-- A map of true to an empty array, with its count in three bytes, a flag of seven and a byte
behind it; and a struct with an array of more than two elements. -/
theorem decode_iff_derived_map :
    decode ⟨100, 2⟩ [0x82, 0xFD, 1, 0, 0x01, 7, 0x80, 0, 0xAA] .empty =
        .ok (.map 0, ⟨#[[]], #[⟨[(.boolean true, .array 0)]⟩], 0⟩) ∧
      decode ⟨100, 2⟩ [0x81, 1, 0x80, 3, 0x07] .empty = .error (.tooManyElements 3 2) := by
  constructor
  · have hone : VarInt.Form (ofLittleEndian [1, 0]) [0xFD, 1, 0] := .marked (by decide)
    have hmap : (ValueToken.container .map 1).Form 2 [0x82, 0xFD, 1, 0] :=
      .container .map hone (by decide)
    have hflag : (ValueToken.boolean true).Form 2 [0x01, 7] := .boolean 7
    have harray : (ValueToken.container .array 0).Form 2 [0x80, 0] :=
      .container .array (.one 0 (by decide)) (by decide)
    have hderives : DerivesValue 2 .empty [0x82, 0xFD, 1, 0, 0x01, 7, 0x80, 0] (.map 0)
        ⟨#[[]], #[⟨[(.boolean true, .array 0)]⟩], 0⟩ :=
      ⟨_, rfl, .cons hmap rfl (.cons hflag rfl .nil (.cons harray rfl .nil .nil)) .nil, rfl⟩
    refine ((decode_iff_derived (by decide) (by decide) .empty).1 _ _).mpr
      ⟨_, ⟨[0xAA], rfl⟩, hderives, fun ref _ => ?_⟩
    cases ref with
    | zero => exact List.pairwise_singleton _ _
    | succ ref => exact .nil
  · have hstruct : (ValueToken.container .struct 1).Form 2 [0x81, 1] :=
      .container .struct (.one 1 (by decide)) (by decide)
    have harray : ValueToken.Fault 2 [0x80, 3, 0x07] (.tooManyElements 3 2) :=
      .manyElements .array (.one 3 (by decide)) (by decide) [0x07]
    exact ((decode_iff_derived (by decide) (by decide) .empty).2.2 _).mpr
      (.inl (.inside hstruct (.token harray)))

end StackValue

end ContractHost
