import ContractHost.Proofs.Wire.Framing
import ContractHost.Value.Decoder

/-!
# The grammar of the binary form

A value is a token and, right behind it, as many values as the token says. The numbers in a token
may have any of their forms. Bytes that do not begin with a run of values have a first fault, which
is what is wrong with the first token that cannot be taken in pre-order. Bytes never do both, and
what they begin with is determined.
-/

namespace ContractHost

def ContainerKind.tag : ContainerKind → ValueTag
  | array => .array
  | struct => .struct
  | map => .map

/-- A run of values: the token of the first, the run of what is inside it, and the run after it. -/
inductive ValueForest
  | nil
  | cons (token : ValueToken) (inside after : ValueForest)

namespace ValueForest

def length : ValueForest → Nat
  | nil => 0
  | cons _ _ after => after.length + 1

def tokens : ValueForest → List ValueToken
  | nil => []
  | cons token inside after => token :: (inside.tokens ++ after.tokens)

end ValueForest

namespace ValueToken

/-- The byte strings that are read as a token: a tag, and a framed payload, a byte that is zero for
false, or a count. -/
inductive Form (maxArraySize : Nat) : ValueToken → Bytes → Prop
  | byteString {payload number : Bytes} (hnumber : VarInt.Form payload.length number)
      (hmax : payload.length ≤ VarBytes.maxLength) :
      Form maxArraySize (.byteString payload) (ValueTag.byteString.byte :: (number ++ payload))
  | boolean (b : UInt8) : Form maxArraySize (.boolean (b != 0)) [ValueTag.boolean.byte, b]
  | integer {payload number : Bytes} (hnumber : VarInt.Form payload.length number)
      (hmax : payload.length ≤ VarBytes.maxLength) :
      Form maxArraySize (.integer (TwosComplement.read payload))
        (ValueTag.integer.byte :: (number ++ payload))
  | container (kind : ContainerKind) {count : Nat} {number : Bytes}
      (hnumber : VarInt.Form count number) (hmax : count ≤ maxArraySize) :
      Form maxArraySize (.container kind count) (kind.tag.byte :: number)

/-- What is wrong with bytes that begin with no token. -/
inductive Fault (maxArraySize : Nat) : Bytes → DecodeError → Prop
  | noTag : Fault maxArraySize [] .unexpectedEnd
  | unknownTag {b : UInt8} (h : ∀ tag : ValueTag, tag.byte ≠ b) (rest : Bytes) :
      Fault maxArraySize (b :: rest) .malformedData
  | noFlag : Fault maxArraySize [ValueTag.boolean.byte] .unexpectedEnd
  | cutNumber {tag : ValueTag} (htag : tag ≠ .boolean) {rest : Bytes}
      (hnumber : VarInt.CutShort rest) : Fault maxArraySize (tag.byte :: rest) .unexpectedEnd
  | longPayload {tag : ValueTag} (htag : tag = .byteString ∨ tag = .integer) {length : Nat}
      {number : Bytes} (hnumber : VarInt.Form length number) (hmax : VarBytes.maxLength < length)
      (rest : Bytes) : Fault maxArraySize (tag.byte :: (number ++ rest)) .malformedData
  | cutPayload {tag : ValueTag} (htag : tag = .byteString ∨ tag = .integer) {length : Nat}
      {number : Bytes} (hnumber : VarInt.Form length number) (hmax : length ≤ VarBytes.maxLength)
      {rest : Bytes} (hrest : rest.length < length) :
      Fault maxArraySize (tag.byte :: (number ++ rest)) .unexpectedEnd
  | manyElements (kind : ContainerKind) {count : Nat} {number : Bytes}
      (hnumber : VarInt.Form count number) (hmax : maxArraySize < count) (rest : Bytes) :
      Fault maxArraySize (kind.tag.byte :: (number ++ rest)) (.tooManyElements count maxArraySize)

end ValueToken

/-- The byte strings that derive a run of values: every value is its token and the values inside
it, of which there are as many as the token says. -/
inductive Derives (maxArraySize : Nat) : ValueForest → Bytes → Prop
  | nil : Derives maxArraySize .nil []
  | cons {token : ValueToken} {inside after : ValueForest} {head body rest : Bytes}
      (hhead : token.Form maxArraySize head) (hcount : inside.length = token.childCount)
      (hbody : Derives maxArraySize inside body) (hrest : Derives maxArraySize after rest) :
      Derives maxArraySize (.cons token inside after) (head ++ (body ++ rest))

/-- The first fault in pre-order of bytes that are to begin with a number of values: in the token
of the first value, inside the first value, or after it. -/
inductive FirstFault (maxArraySize : Nat) : Nat → Bytes → DecodeError → Prop
  | token {count : Nat} {bytes : Bytes} {e : DecodeError}
      (h : ValueToken.Fault maxArraySize bytes e) : FirstFault maxArraySize (count + 1) bytes e
  | inside {count : Nat} {token : ValueToken} {head rest : Bytes} {e : DecodeError}
      (hhead : token.Form maxArraySize head)
      (h : FirstFault maxArraySize token.childCount rest e) :
      FirstFault maxArraySize (count + 1) (head ++ rest) e
  | after {count : Nat} {token : ValueToken} {inside : ValueForest} {front rest : Bytes}
      {e : DecodeError} (hfirst : Derives maxArraySize (.cons token inside .nil) front)
      (h : FirstFault maxArraySize count rest e) :
      FirstFault maxArraySize (count + 1) (front ++ rest) e

variable {maxArraySize : Nat}

namespace ValueToken

theorem Form.two_le_length {token : ValueToken} {head : Bytes}
    (h : token.Form maxArraySize head) : 2 ≤ head.length := by
  cases h with
  | byteString hnumber | integer hnumber | container _ hnumber =>
    have := hnumber.length_pos
    simp only [List.length_cons, List.length_append]
    omega
  | boolean => exact Nat.le_refl _

theorem Form.childCount_le {token : ValueToken} {head : Bytes}
    (h : token.Form maxArraySize head) : token.childCount ≤ 2 * maxArraySize := by
  cases h with
  | byteString | integer | boolean => exact Nat.zero_le _
  | container kind _ hmax => cases kind <;> simp only [childCount] <;> omega

private theorem payload_form_or_fault {tag : ValueTag}
    (htag : tag = .byteString ∨ tag = .integer) (bytes : Bytes) :
    (∃ payload number rest, VarInt.Form payload.length number ∧
      payload.length ≤ VarBytes.maxLength ∧ bytes = number ++ payload ++ rest) ∨
    ∃ e, Fault maxArraySize (tag.byte :: bytes) e := by
  rcases VarInt.exists_form_or_cutShort bytes with ⟨length, number, rest, hnumber, rfl⟩ | hcut
  · by_cases hmax : length ≤ VarBytes.maxLength
    · by_cases hrest : length ≤ rest.length
      · left
        have htake : (rest.take length).length = length := List.length_take_of_le hrest
        refine ⟨rest.take length, number, rest.drop length, ?_, ?_, ?_⟩
        · rwa [htake]
        · rwa [htake]
        · rw [List.append_assoc, List.take_append_drop]
      · exact .inr ⟨_, .cutPayload htag hnumber hmax (Nat.not_le.mp hrest)⟩
    · exact .inr ⟨_, .longPayload htag hnumber (Nat.not_le.mp hmax) rest⟩
  · have hne : tag ≠ .boolean := by
      rcases htag with rfl | rfl <;> decide
    exact .inr ⟨_, .cutNumber hne hcut⟩

private theorem count_form_or_fault (kind : ContainerKind) (bytes : Bytes) :
    (∃ count number rest, VarInt.Form count number ∧ count ≤ maxArraySize ∧
      bytes = number ++ rest) ∨
    ∃ e, Fault maxArraySize (kind.tag.byte :: bytes) e := by
  rcases VarInt.exists_form_or_cutShort bytes with ⟨count, number, rest, hnumber, rfl⟩ | hcut
  · by_cases hmax : count ≤ maxArraySize
    · exact .inl ⟨count, number, rest, hnumber, hmax, rfl⟩
    · exact .inr ⟨_, .manyElements kind hnumber (Nat.not_le.mp hmax) rest⟩
  · have hne : kind.tag ≠ .boolean := by
      cases kind <;> decide
    exact .inr ⟨_, .cutNumber hne hcut⟩

theorem exists_form_or_fault (maxArraySize : Nat) (bytes : Bytes) :
    (∃ token head rest, Form maxArraySize token head ∧ bytes = head ++ rest) ∨
      ∃ e, Fault maxArraySize bytes e := by
  cases bytes with
  | nil => exact .inr ⟨_, .noTag⟩
  | cons b bytes =>
    by_cases htag : ∃ tag : ValueTag, tag.byte = b
    · obtain ⟨tag, rfl⟩ := htag
      have hcontainer : ∀ kind : ContainerKind, kind.tag = tag →
          (∃ token head rest, Form maxArraySize token head ∧ tag.byte :: bytes = head ++ rest) ∨
            ∃ e, Fault maxArraySize (tag.byte :: bytes) e := by
        rintro kind rfl
        apply (count_form_or_fault kind bytes).imp_left
        rintro ⟨count, number, rest, hnumber, hmax, rfl⟩
        exact ⟨_, _, rest, .container kind hnumber hmax, rfl⟩
      cases tag with
      | byteString =>
        apply (payload_form_or_fault (.inl rfl) bytes).imp_left
        rintro ⟨payload, number, rest, hnumber, hmax, rfl⟩
        exact ⟨_, _, rest, .byteString hnumber hmax, rfl⟩
      | integer =>
        apply (payload_form_or_fault (.inr rfl) bytes).imp_left
        rintro ⟨payload, number, rest, hnumber, hmax, rfl⟩
        exact ⟨_, _, rest, .integer hnumber hmax, rfl⟩
      | boolean =>
        cases bytes with
        | nil => exact .inr ⟨_, .noFlag⟩
        | cons flag rest => exact .inl ⟨_, _, rest, .boolean flag, rfl⟩
      | array => exact hcontainer .array rfl
      | struct => exact hcontainer .struct rfl
      | map => exact hcontainer .map rfl
    · exact .inr ⟨_, .unknownTag (fun tag h => htag ⟨tag, h⟩) bytes⟩

end ValueToken

/-- All bytes begin with any number of values or have a first fault. -/
theorem derives_or_firstFault (maxArraySize count : Nat) (bytes : Bytes) :
    (∃ forest front rest, Derives maxArraySize forest front ∧ forest.length = count ∧
      bytes = front ++ rest) ∨
    ∃ e, FirstFault maxArraySize count bytes e := by
  induction hsize : bytes.length using Nat.strongRecOn generalizing count bytes with
  | ind size ih =>
  subst hsize
  cases count with
  | zero => exact .inl ⟨.nil, [], bytes, .nil, rfl, rfl⟩
  | succ count =>
    rcases ValueToken.exists_form_or_fault maxArraySize bytes with
      ⟨token, head, below, hhead, rfl⟩ | ⟨e, he⟩
    · have htwo := hhead.two_le_length
      have hbelow : below.length < (head ++ below).length := by
        rw [List.length_append]
        omega
      rcases ih _ hbelow token.childCount below rfl with
        ⟨inside, body, rest, hbody, hcount, rfl⟩ | ⟨e, he⟩
      · have hrest : rest.length < (head ++ (body ++ rest)).length := by
          simp only [List.length_append]
          omega
        rcases ih _ hrest count rest rfl with ⟨after, front, last, hfront, hafter, rfl⟩ | ⟨e, he⟩
        · left
          refine ⟨.cons token inside after, head ++ (body ++ front), last,
            .cons hhead hcount hbody hfront, ?_, ?_⟩
          · rw [ValueForest.length, hafter]
          · simp only [List.append_assoc]
        · right
          have hfirst := Derives.cons hhead hcount hbody .nil
          have hfault := FirstFault.after hfirst he
          rw [List.append_nil, List.append_assoc] at hfault
          exact ⟨e, hfault⟩
      · exact .inr ⟨e, .inside hhead he⟩
    · exact .inr ⟨e, .token he⟩

theorem Derives.split {forest : ValueForest} {front : Bytes} (h : Derives maxArraySize forest front)
    {first others : Nat} (hlength : forest.length = first + others) :
    ∃ inside after body rest, Derives maxArraySize inside body ∧ inside.length = first ∧
      Derives maxArraySize after rest ∧ after.length = others ∧
      forest.tokens = inside.tokens ++ after.tokens ∧ front = body ++ rest := by
  induction h generalizing first with
  | nil =>
    have hnone : first = 0 ∧ others = 0 := by
      rw [ValueForest.length] at hlength
      omega
    exact ⟨.nil, .nil, [], [], .nil, hnone.1.symm, .nil, hnone.2.symm, rfl, rfl⟩
  | @cons token inside after head body rest hhead hcount hbody hrest _ ih =>
    cases first with
    | zero =>
      have hall := Derives.cons hhead hcount hbody hrest
      rw [Nat.zero_add] at hlength
      exact ⟨.nil, _, [], _, .nil, rfl, hall, hlength, rfl, rfl⟩
    | succ first =>
      rw [ValueForest.length, Nat.add_right_comm] at hlength
      obtain ⟨before, behind, body', rest', hbefore, hfirst, hbehind, hothers, htokens, rfl⟩ :=
        ih (Nat.succ.inj hlength)
      refine ⟨.cons token inside before, behind, _, rest', .cons hhead hcount hbody hbefore, ?_,
        hbehind, hothers, ?_, ?_⟩
      · rw [ValueForest.length, hfirst]
      · simp only [ValueForest.tokens, htokens, List.cons_append, List.append_assoc]
      · simp only [List.append_assoc]

end ContractHost
