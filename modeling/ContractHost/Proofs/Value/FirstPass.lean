import ContractHost.Proofs.Value.Grammar

/-!
# The first pass follows the grammar

The first pass counts the values that are pending instead of calling itself. It takes the tokens of
a derived run of values whatever is pending behind them, and it stops at the first fault with the
error that goes with it. The count stays below its bound because every value takes two bytes.
-/

namespace ContractHost

variable {maxArraySize : Nat}

namespace ValueTag

theorem ofByte?_byte (tag : ValueTag) : ofByte? tag.byte = some tag := by
  cases tag <;> rfl

theorem ofByte?_eq_none {b : UInt8} (h : ∀ tag : ValueTag, tag.byte ≠ b) : ofByte? b = none := by
  apply List.find?_eq_none.mpr
  intro tag _ hsame
  exact h tag (UInt8.toNat_inj.mp (by simpa using hsame))

end ValueTag

namespace Decoder

open ValueToken

theorem ofWire_run {α : Type} {reader : WireReader α} {bytes : Bytes} :
    (ofWire reader).run bytes = (reader.run bytes).mapError .ofWire := by
  simp only [ofWire, StateT.run]
  cases reader bytes <;> rfl

private theorem readToken_tag (tag : ValueTag) (rest : Bytes) :
    (readToken maxArraySize).run (tag.byte :: rest) =
      (readContents maxArraySize tag).run rest := by
  change (readTagged maxArraySize (ValueTag.ofByte? tag.byte)).run rest = _
  rw [ValueTag.ofByte?_byte]
  rfl

private theorem readContents_container (kind : ContainerKind) :
    readContents maxArraySize kind.tag = .container kind <$> readCount maxArraySize := by
  cases kind <;> rfl

private theorem readContents_payload (maxArraySize : Nat) {tag : ValueTag}
    (htag : tag = .byteString ∨ tag = .integer) :
    ∃ token : Bytes → ValueToken, readContents maxArraySize tag =
      token <$> ofWire (VarBytes.read VarBytes.maxLength) := by
  rcases htag with rfl | rfl
  · exact ⟨.byteString, rfl⟩
  · exact ⟨fun payload => .integer (TwosComplement.read payload), rfl⟩

private theorem readCount_form {count : Nat} {number : Bytes} (hnumber : VarInt.Form count number)
    (kind : ContainerKind) (rest : Bytes) :
    (readContents maxArraySize kind.tag).run (number ++ rest) =
      if maxArraySize < count then .error (.tooManyElements count maxArraySize)
      else .ok (.container kind count, rest) := by
  have hword : ¬0xFFFFFFFFFFFFFFFF < count := by
    have hsize : count < 18446744073709551616 := hnumber.lt_size
    omega
  have hread := VarInt.read_form hnumber 0xFFFFFFFFFFFFFFFF rest
  rw [if_neg hword] at hread
  rw [readContents_container, StateT.run_map, readCount, StateT.run_bind, ofWire_run, hread]
  change (_ <$> StateT.run (if maxArraySize < count then _ else _) rest) = _
  split <;> rfl

private theorem readPayload_form {length : Nat} {number : Bytes}
    (hnumber : VarInt.Form length number) (token : Bytes → ValueToken) (rest : Bytes) :
    (token <$> ofWire (VarBytes.read VarBytes.maxLength)).run (number ++ rest) =
      if VarBytes.maxLength < length then .error .malformedData
      else if length ≤ rest.length then .ok (token (rest.take length), rest.drop length)
      else .error .unexpectedEnd := by
  have hread := VarInt.read_form hnumber VarBytes.maxLength rest
  rw [StateT.run_map, ofWire_run, VarBytes.read, StateT.run_bind, hread]
  split
  · rfl
  · change (_ <$> Except.mapError DecodeError.ofWire (Wire.split length rest)) = _
    rw [Wire.split_eq]
    split <;> rfl

private theorem readContents_cutShort {tag : ValueTag} (htag : tag ≠ .boolean) {rest : Bytes}
    (hnumber : VarInt.CutShort rest) :
    (readContents maxArraySize tag).run rest = .error .unexpectedEnd := by
  have hpayload : tag = .byteString ∨ tag = .integer →
      (readContents maxArraySize tag).run rest = .error .unexpectedEnd := by
    intro htag
    obtain ⟨token, htoken⟩ := readContents_payload maxArraySize htag
    rw [htoken, StateT.run_map, ofWire_run, VarBytes.read, StateT.run_bind,
      VarInt.read_cutShort hnumber]
    rfl
  have hcount : ∀ kind : ContainerKind,
      (readContents maxArraySize kind.tag).run rest = .error .unexpectedEnd := by
    intro kind
    rw [readContents_container, StateT.run_map, readCount, StateT.run_bind, ofWire_run,
      VarInt.read_cutShort hnumber]
    rfl
  cases tag with
  | byteString => exact hpayload (.inl rfl)
  | boolean => exact absurd rfl htag
  | integer => exact hpayload (.inr rfl)
  | array => exact hcount .array
  | struct => exact hcount .struct
  | map => exact hcount .map

theorem readToken_form {token : ValueToken} {head : Bytes} (h : token.Form maxArraySize head)
    (rest : Bytes) : (readToken maxArraySize).run (head ++ rest) = .ok (token, rest) := by
  have hpayload : ∀ (payload number : Bytes) (token : Bytes → ValueToken),
      VarInt.Form payload.length number → payload.length ≤ VarBytes.maxLength →
      (token <$> ofWire (VarBytes.read VarBytes.maxLength)).run (number ++ payload ++ rest) =
        .ok (token payload, rest) := by
    intro payload number token hnumber hmax
    rw [List.append_assoc, readPayload_form hnumber, if_neg (Nat.not_lt.mpr hmax)]
    simp
  cases h with
  | byteString hnumber hmax =>
    rw [List.cons_append, readToken_tag]
    exact hpayload _ _ .byteString hnumber hmax
  | boolean b => rfl
  | integer hnumber hmax =>
    rw [List.cons_append, readToken_tag]
    exact hpayload _ _ (fun payload => .integer (TwosComplement.read payload)) hnumber hmax
  | container kind hnumber hmax =>
    rw [List.cons_append, readToken_tag, readCount_form hnumber, if_neg (Nat.not_lt.mpr hmax)]

theorem readToken_fault {bytes : Bytes} {e : DecodeError} (h : Fault maxArraySize bytes e) :
    (readToken maxArraySize).run bytes = .error e := by
  cases h with
  | noTag => rfl
  | @unknownTag b h rest =>
    change (readTagged maxArraySize (ValueTag.ofByte? b)).run rest = _
    rw [ValueTag.ofByte?_eq_none h]
    rfl
  | noFlag => rfl
  | cutNumber htag hnumber => rw [readToken_tag, readContents_cutShort htag hnumber]
  | longPayload htag hnumber hmax rest =>
    obtain ⟨token, htoken⟩ := readContents_payload maxArraySize htag
    rw [readToken_tag, htoken, readPayload_form hnumber, if_pos hmax]
  | cutPayload htag hnumber hmax hrest =>
    obtain ⟨token, htoken⟩ := readContents_payload maxArraySize htag
    rw [readToken_tag, htoken, readPayload_form hnumber, if_neg (Nat.not_lt.mpr hmax),
      if_neg (Nat.not_le.mpr hrest)]
  | manyElements kind hnumber hmax rest =>
    rw [readToken_tag, readCount_form hnumber, if_pos hmax]

theorem readTokens_succ (maxArraySize pending : Nat) (tokens : List ValueToken)
    (bytes : Bytes) :
    readTokens maxArraySize (pending + 1) tokens bytes =
      match (readToken maxArraySize).run bytes with
      | .error e => .error e
      | .ok (token, rest) =>
        if pendingBound ≤ pending + newlyPending token then .error .malformedData
        else readTokens maxArraySize (pending + newlyPending token) (token :: tokens) rest := by
  rw [readTokens]
  split
  next h => simp only [h]
  next h => simp only [h]

/-- Counting the values that are pending will not pass the bound, even if all bytes that are left
are counts. -/
def Room (maxArraySize pending : Nat) (bytes : Bytes) : Prop :=
  pending + maxArraySize * bytes.length < pendingBound

theorem room_of_length_lt {bytes : Bytes} (hlimit : maxArraySize ≤ 0xFFFFFFFF)
    (hbytes : bytes.length < 0x100000000) : Room maxArraySize 1 bytes := by
  have hproduct : maxArraySize * bytes.length ≤ 0xFFFFFFFF * 0xFFFFFFFF :=
    Nat.mul_le_mul hlimit (Nat.le_of_lt_succ hbytes)
  have hbound : pendingBound = 18446744073709551616 := rfl
  unfold Room
  omega

theorem Room.step {pending : Nat} {token : ValueToken} {head rest : Bytes}
    (h : Room maxArraySize (pending + 1) (head ++ rest)) (hhead : token.Form maxArraySize head) :
    newlyPending token = token.childCount ∧
      Room maxArraySize (token.childCount + pending) rest := by
  have hchildren := hhead.childCount_le
  have hbytes := Nat.mul_le_mul_left maxArraySize hhead.two_le_length
  unfold Room at h ⊢
  rw [List.length_append, Nat.mul_add] at h
  refine ⟨Nat.mod_eq_of_lt (by omega), by omega⟩

theorem readTokens_form {pending : Nat} {token : ValueToken} {head rest : Bytes}
    (hroom : Room maxArraySize (pending + 1) (head ++ rest)) (hhead : token.Form maxArraySize head)
    (before : List ValueToken) :
    readTokens maxArraySize (pending + 1) before (head ++ rest) =
      readTokens maxArraySize (token.childCount + pending) (token :: before) rest := by
  obtain ⟨hnew, hrest⟩ := hroom.step hhead
  have hbound : ¬pendingBound ≤ pending + token.childCount := by
    unfold Room at hrest
    omega
  rw [readTokens_succ, readToken_form hhead, Nat.add_comm token.childCount]
  simp only [hnew, if_neg hbound]

/-- The tokens of a derived run are taken off, and what was pending behind it is pending still. -/
theorem readTokens_derived {forest : ValueForest} {front : Bytes}
    (h : Derives maxArraySize forest front) (behind : Nat) (before : List ValueToken) (rest : Bytes)
    (hroom : Room maxArraySize (forest.length + behind) (front ++ rest)) :
    readTokens maxArraySize (forest.length + behind) before (front ++ rest) =
        readTokens maxArraySize behind (forest.tokens.reverse ++ before) rest ∧
      Room maxArraySize behind rest := by
  induction h generalizing behind before rest with
  | nil =>
    rw [ValueForest.length, Nat.zero_add] at hroom ⊢
    exact ⟨rfl, hroom⟩
  | @cons token inside after head body tail hhead hcount _ _ ihBody ihRest =>
    have hpending : (ValueForest.cons token inside after).length + behind =
        after.length + behind + 1 := by
      rw [ValueForest.length]
      omega
    have hbytes : head ++ (body ++ tail) ++ rest = head ++ (body ++ (tail ++ rest)) := by
      simp only [List.append_assoc]
    rw [hpending, hbytes] at hroom ⊢
    have hbelow := (hroom.step hhead).2
    rw [← hcount] at hbelow
    obtain ⟨hbody, hafter⟩ := ihBody (after.length + behind) (token :: before) _ hbelow
    obtain ⟨hrest, hlast⟩ :=
      ihRest behind (inside.tokens.reverse ++ token :: before) rest hafter
    refine ⟨?_, hlast⟩
    rw [readTokens_form hroom hhead, ← hcount, hbody, hrest]
    simp only [ValueForest.tokens, List.reverse_cons, List.reverse_append, List.append_assoc,
      List.singleton_append]

/-- The first fault decides the error, whatever is pending behind it. -/
theorem readTokens_firstFault {count : Nat} {bytes : Bytes} {e : DecodeError}
    (h : FirstFault maxArraySize count bytes e) (behind : Nat) (before : List ValueToken)
    (hroom : Room maxArraySize (count + behind) bytes) :
    readTokens maxArraySize (count + behind) before bytes = .error e := by
  induction h generalizing behind before with
  | @token count bytes e h => rw [Nat.add_right_comm, readTokens_succ, readToken_fault h]
  | @inside count token head rest e hhead h ih =>
    rw [Nat.add_right_comm] at hroom ⊢
    rw [readTokens_form hroom hhead]
    exact ih (count + behind) (token :: before) (hroom.step hhead).2
  | @after count token inside front rest e hfirst h ih =>
    have hpending : count + 1 + behind =
        (ValueForest.cons token inside .nil).length + (count + behind) := by
      simp only [ValueForest.length]
      omega
    rw [hpending] at hroom ⊢
    obtain ⟨hread, hafter⟩ := readTokens_derived hfirst (count + behind) before rest hroom
    rw [hread]
    exact ih behind _ hafter

theorem form_of_readToken {bytes rest : Bytes} {token : ValueToken}
    (h : (readToken maxArraySize).run bytes = .ok (token, rest)) :
    ∃ head, token.Form maxArraySize head ∧ bytes = head ++ rest := by
  rcases exists_form_or_fault maxArraySize bytes with ⟨token', head, rest', hhead, rfl⟩ | ⟨e, hfault⟩
  · rw [readToken_form hhead] at h
    cases h
    exact ⟨head, hhead, rfl⟩
  · rw [readToken_fault hfault] at h
    cases h

theorem exists_derives_of_readTokens (hwrap : 2 * maxArraySize < pendingBound) {pending : Nat}
    {before result : List ValueToken} {bytes : Bytes}
    (h : readTokens maxArraySize pending before bytes = .ok result) :
    ∃ forest front, front <+: bytes ∧ Derives maxArraySize forest front ∧
      forest.length = pending ∧ result = forest.tokens.reverse ++ before ∧
      ∀ rest, readTokens maxArraySize pending before (front ++ rest) = .ok result := by
  induction hsize : bytes.length using Nat.strongRecOn generalizing pending before bytes with
  | ind size ih =>
  subst hsize
  cases pending with
  | zero =>
    rw [readTokens] at h
    cases h
    exact ⟨.nil, [], List.nil_prefix, .nil, rfl, rfl, fun rest => by rw [readTokens]⟩
  | succ pending =>
    rw [readTokens_succ] at h
    cases hread : (readToken maxArraySize).run bytes with
    | error e => rw [hread] at h; cases h
    | ok taken =>
      obtain ⟨token, below⟩ := taken
      obtain ⟨head, hhead, rfl⟩ := form_of_readToken hread
      have hnew : newlyPending token = token.childCount :=
        Nat.mod_eq_of_lt (Nat.lt_of_le_of_lt hhead.childCount_le hwrap)
      rw [hread] at h
      dsimp only at h
      rw [hnew] at h
      by_cases hbound : pendingBound ≤ pending + token.childCount
      · rw [if_pos hbound] at h
        cases h
      rw [if_neg hbound] at h
      obtain ⟨forest, front, ⟨last, rfl⟩, hderives, hlength, hresult, hany⟩ :=
        ih _ (length_lt_of_readToken hread) h rfl
      rw [Nat.add_comm] at hlength
      obtain ⟨inside, after, body, rest, hinside, hcount, hafter, hothers, htokens, rfl⟩ :=
        hderives.split hlength
      refine ⟨.cons token inside after, head ++ (body ++ rest), ⟨last, by simp⟩,
        .cons hhead hcount hinside hafter, congrArg Nat.succ hothers, ?_, fun more => ?_⟩
      · rw [hresult, htokens]
        simp [ValueForest.tokens]
      · rw [List.append_assoc, readTokens_succ, readToken_form hhead]
        simp only [hnew, if_neg hbound, hany]

end Decoder

theorem Derives.unique {forest forest' : ValueForest} {front front' rest rest' : Bytes}
    (h : Derives maxArraySize forest front) (h' : Derives maxArraySize forest' front')
    (hlength : forest.length = forest'.length) (hbytes : front ++ rest = front' ++ rest') :
    forest = forest' ∧ front = front' := by
  induction h generalizing forest' front' rest rest' with
  | nil =>
    cases h' with
    | nil => exact ⟨rfl, rfl⟩
    | cons => cases hlength
  | @cons token inside after head body tail hhead hcount _ _ ihBody ihRest =>
    cases h' with
    | nil => cases hlength
    | @cons token' inside' after' head' body' tail' hhead' hcount' hbody' hrest' =>
      simp only [List.append_assoc] at hbytes
      have hread := Decoder.readToken_form hhead (body ++ (tail ++ rest))
      rw [hbytes, Decoder.readToken_form hhead'] at hread
      obtain ⟨rfl, hbelow⟩ :
          token' = token ∧ body' ++ (tail' ++ rest') = body ++ (tail ++ rest) := by
        simpa using hread
      rw [hbelow] at hbytes
      obtain rfl := List.append_cancel_right hbytes
      obtain ⟨rfl, rfl⟩ := ihBody hbody' (hcount.trans hcount'.symm) hbelow.symm
      obtain ⟨rfl, rfl⟩ :=
        ihRest hrest' (Nat.succ.inj hlength) (List.append_cancel_left hbelow).symm
      exact ⟨rfl, rfl⟩

end ContractHost
