import ContractHost.Proofs.Value.FirstPass
import ContractHost.Proofs.Value.Integers
import ContractHost.Proofs.Value.Spelling

/-!
# Spelled values are read back

The bytes of each token are read back as that token or refused for its size. The first pass of the
reader therefore takes exactly the tokens of the spelled values and nothing behind them: it counts
the values that are pending, and each of them still has a token to come.
-/

namespace ContractHost

namespace ValueToken

def bytes : ValueToken → Bytes
  | byteString payload => ValueTag.byteString.byte :: VarBytes.write payload
  | boolean flag => [ValueTag.boolean.byte, if flag then 1 else 0]
  | integer value => ValueTag.integer.byte :: VarBytes.write (TwosComplement.write value)
  | container kind count => kind.tag.byte :: VarInt.write count

/-- A payload or a count that readers accept. -/
def Fits (maxArraySize : Nat) : ValueToken → Prop
  | byteString payload => payload.length ≤ VarBytes.maxLength
  | boolean _ => True
  | integer value => (TwosComplement.write value).length ≤ VarBytes.maxLength
  | container _ count => count ≤ maxArraySize

instance (maxArraySize : Nat) : DecidablePred (Fits maxArraySize) := fun token =>
  match token with
  | byteString _ | integer _ | container _ _ => Nat.decLe _ _
  | boolean _ => .isTrue trivial

theorem length_bytes_pos (token : ValueToken) : 0 < token.bytes.length := by
  cases token <;> exact Nat.succ_pos _

theorem length_le_flatMap_bytes (tokens : List ValueToken) :
    tokens.length ≤ (tokens.flatMap bytes).length := by
  induction tokens with
  | nil => exact Nat.le_refl _
  | cons token tokens ih =>
    have := token.length_bytes_pos
    simp only [List.length_cons, List.flatMap_cons, List.length_append]
    omega

variable {token : ValueToken} {maxArraySize : Nat} (hbytes : token.bytes.length < UInt64.size)
  (hcount : token.childCount < UInt64.size)

include hbytes

private theorem length_payload_lt {tag : UInt8} {payload : Bytes}
    (h : token.bytes = tag :: VarBytes.write payload) : payload.length < UInt64.size := by
  rw [h, List.length_cons, VarBytes.length_write, VarBytes.size] at hbytes
  omega

include hcount

theorem form_bytes (hfits : token.Fits maxArraySize) : token.Form maxArraySize token.bytes := by
  cases token with
  | byteString payload =>
    exact .byteString (VarInt.form_write (length_payload_lt hbytes rfl)) hfits
  | boolean flag =>
    cases flag with
    | true => exact .boolean 1
    | false => exact .boolean 0
  | integer value =>
    have hnumber := VarInt.form_write (length_payload_lt hbytes rfl)
    have hform : Form maxArraySize _ (integer value).bytes := .integer hnumber hfits
    rwa [TwosComplement.read_write] at hform
  | container kind count =>
    have hword : count < UInt64.size := by
      cases kind <;> simp only [childCount] at hcount <;> omega
    exact .container kind (VarInt.form_write hword) hfits

theorem fault_bytes (h : ¬token.Fits maxArraySize) (rest : Bytes) :
    ∃ e, Fault maxArraySize (token.bytes ++ rest) e := by
  cases token with
  | byteString payload =>
    have hnumber := VarInt.form_write (length_payload_lt hbytes rfl)
    refine ⟨.malformedData, ?_⟩
    rw [bytes, VarBytes.write, List.cons_append, List.append_assoc]
    exact .longPayload (.inl rfl) hnumber (Nat.not_le.mp h) _
  | boolean flag => exact absurd trivial h
  | integer value =>
    have hnumber := VarInt.form_write (length_payload_lt hbytes rfl)
    refine ⟨.malformedData, ?_⟩
    rw [bytes, VarBytes.write, List.cons_append, List.append_assoc]
    exact .longPayload (.inr rfl) hnumber (Nat.not_le.mp h) _
  | container kind count =>
    have hword : count < UInt64.size := by
      cases kind <;> simp only [childCount] at hcount <;> omega
    exact ⟨_, .manyElements kind (VarInt.form_write hword) (Nat.not_le.mp h) rest⟩

end ValueToken

namespace Decoder

open ValueToken

theorem readToken_bytes {token : ValueToken} (hbytes : token.bytes.length < UInt64.size)
    (hcount : token.childCount < UInt64.size) (maxArraySize : Nat) (rest : Bytes) :
    ∃ e, (readToken maxArraySize).run (token.bytes ++ rest) =
      if token.Fits maxArraySize then .ok (token, rest) else .error e := by
  by_cases hfits : token.Fits maxArraySize
  · have hform := form_bytes hbytes hcount hfits
    exact ⟨.malformedData, by rw [if_pos hfits, readToken_form hform]⟩
  · obtain ⟨e, hfault⟩ := fault_bytes hbytes hcount hfits rest
    exact ⟨e, by rw [if_neg hfits, readToken_fault hfault]⟩

/-- The first pass takes the tokens of the pending values, or refuses the first that does not
fit. -/
theorem readTokens_spelled {heap : Heap} {values : List StackValue} {tokens : List ValueToken}
    (h : heap.Spells values tokens) (hsize : (tokens.flatMap bytes).length < UInt64.size)
    (maxArraySize : Nat) (before : List ValueToken) (rest : Bytes) :
    ∃ e, readTokens maxArraySize values.length before (tokens.flatMap bytes ++ rest) =
      if ∀ token ∈ tokens, token.Fits maxArraySize then .ok (tokens.reverse ++ before)
      else .error e := by
  induction h generalizing before with
  | nil => exact ⟨.malformedData, by rw [List.length_nil, readTokens]; simp⟩
  | @cons value values token tokens htoken hrest ih =>
    have hlength := length_le_flatMap_bytes tokens
    have hpending := hrest.length_le
    have hcount := Heap.childCount_of_token htoken
    simp only [List.flatMap_cons, List.length_append] at hsize hpending
    have hnew : newlyPending token = token.childCount :=
      Nat.mod_eq_of_lt (by rw [pendingBound]; omega)
    have hbytes : token.bytes.length < UInt64.size := by omega
    obtain ⟨e, hread⟩ := readToken_bytes hbytes (by omega) maxArraySize
      (tokens.flatMap bytes ++ rest)
    rw [List.flatMap_cons, List.append_assoc, List.length_cons, readTokens_succ, hread]
    by_cases hfits : token.Fits maxArraySize
    · obtain ⟨e, htail⟩ := ih (by omega) (token :: before)
      have hlater : values.length + token.childCount = (heap.children value ++ values).length := by
        rw [List.length_append, hcount, Nat.add_comm]
      have hbound : ¬pendingBound ≤ (heap.children value ++ values).length := by
        rw [pendingBound, ← hlater]
        omega
      refine ⟨e, ?_⟩
      simp only [hfits, if_true, hnew, if_neg hbound, hlater, htail, List.forall_mem_cons, true_and,
        List.reverse_cons, List.append_assoc, List.singleton_append]
    · exact ⟨e, by simp only [hfits, if_false, List.forall_mem_cons, false_and]⟩

end Decoder

end ContractHost
