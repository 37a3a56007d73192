import ContractHost.Proofs.Value.RoundTrip
import ContractHost.Proofs.Wire.Unambiguous

/-!
# One form for equal values

The bytes of a token say where they end, and a token says how many values follow, so the bytes of
a run of values determine its tokens. Structural equality holds between the values of one spelling
and between no others. The two together make the binary form a canonical one.
-/

namespace ContractHost

theorem ValueTag.byte_injective : Function.Injective ValueTag.byte := by
  intro a b h
  have hread := ofByte?_byte a
  rw [h, ofByte?_byte] at hread
  exact (Option.some.inj hread).symm

theorem ContainerKind.tag_injective : Function.Injective ContainerKind.tag := by
  intro a b h
  cases a <;> cases b <;> first | rfl | cases h

namespace VarBytes

theorem length_lt_of_write {payload : Bytes} {size : Nat} (h : (write payload).length < size) :
    payload.length < size := by
  rw [length_write, VarBytes.size] at h
  omega

end VarBytes

namespace ValueToken

def tag : ValueToken → ValueTag
  | byteString _ => .byteString
  | boolean _ => .boolean
  | integer _ => .integer
  | container kind _ => kind.tag

theorem head_bytes (token : ValueToken) : ∃ body, token.bytes = token.tag.byte :: body := by
  cases token <;> exact ⟨_, rfl⟩

/-- A token whose sizes can be written in eight bytes. -/
structure Sized (token : ValueToken) : Prop where
  bytes : token.bytes.length < UInt64.size
  childCount : token.childCount < UInt64.size

theorem Sized.count_lt {kind : ContainerKind} {count : Nat} (h : (container kind count).Sized) :
    count < UInt64.size := by
  have hcount := h.childCount
  cases kind <;> simp only [ValueToken.childCount] at hcount <;> omega

theorem bytes_append_inj {a b : ValueToken} (ha : a.Sized) (hb : b.Sized) {rest rest' : Bytes}
    (h : a.bytes ++ rest = b.bytes ++ rest') : a = b ∧ rest = rest' := by
  have htag : a.tag = b.tag := by
    obtain ⟨body, hbody⟩ := a.head_bytes
    obtain ⟨body', hbody'⟩ := b.head_bytes
    rw [hbody, hbody'] at h
    exact ValueTag.byte_injective (List.cons.inj h).1
  cases a with
  | byteString payload =>
    cases b with
    | byteString payload' =>
      obtain ⟨rfl, hrest⟩ := VarBytes.separates
        (VarBytes.length_lt_of_write (Nat.lt_of_succ_lt ha.bytes))
        (VarBytes.length_lt_of_write (Nat.lt_of_succ_lt hb.bytes)) (List.cons.inj h).2
      exact ⟨rfl, hrest⟩
    | boolean | integer => cases htag
    | container kind => cases kind <;> cases htag
  | boolean flag =>
    cases b with
    | boolean flag' =>
      obtain ⟨hflag, hrest⟩ := List.cons.inj (List.cons.inj h).2
      refine ⟨congrArg boolean ?_, hrest⟩
      cases flag <;> cases flag' <;> first | rfl | exact absurd hflag (by decide)
    | byteString | integer => cases htag
    | container kind => cases kind <;> cases htag
  | integer value =>
    cases b with
    | integer value' =>
      obtain ⟨hwritten, hrest⟩ := VarBytes.separates
        (VarBytes.length_lt_of_write (Nat.lt_of_succ_lt ha.bytes))
        (VarBytes.length_lt_of_write (Nat.lt_of_succ_lt hb.bytes)) (List.cons.inj h).2
      have hread := congrArg TwosComplement.read hwritten
      rw [TwosComplement.read_write, TwosComplement.read_write] at hread
      exact ⟨congrArg integer hread, hrest⟩
    | byteString | boolean => cases htag
    | container kind => cases kind <;> cases htag
  | container kind count =>
    cases b with
    | container kind' count' =>
      obtain rfl := ContainerKind.tag_injective htag
      obtain ⟨rfl, hrest⟩ :=
        VarInt.separates ha.count_lt hb.count_lt (List.cons.inj h).2
      exact ⟨rfl, hrest⟩
    | byteString | boolean | integer => cases kind <;> cases htag

end ValueToken

namespace Heap

variable {heap later : Heap} {value other : StackValue} {values others : List StackValue}
  {tokens tokens' : List ValueToken}

namespace Spells

theorem sized (h : heap.Spells values tokens)
    (hsize : (tokens.flatMap ValueToken.bytes).length < UInt64.size) :
    ∀ token ∈ tokens, token.Sized := by
  induction h with
  | nil => simp
  | @cons value values token tokens htoken hrest ih =>
    have hlength := ValueToken.length_le_flatMap_bytes tokens
    have hbelow := hrest.length_le
    have hcount := childCount_of_token htoken
    simp only [List.flatMap_cons, List.length_append] at hsize hbelow
    exact List.forall_mem_cons.mpr ⟨⟨by omega, by omega⟩, ih (by omega)⟩

theorem bytes_append_inj (h : heap.Spells values tokens) (h' : later.Spells others tokens')
    (hsized : ∀ token ∈ tokens, token.Sized) (hsized' : ∀ token ∈ tokens', token.Sized)
    (hlength : values.length = others.length) {rest rest' : Bytes}
    (hbytes : tokens.flatMap ValueToken.bytes ++ rest =
      tokens'.flatMap ValueToken.bytes ++ rest') : tokens = tokens' ∧ rest = rest' := by
  induction h generalizing others tokens' with
  | nil =>
    obtain rfl := List.length_eq_zero_iff.mp hlength.symm
    cases h'
    exact ⟨rfl, hbytes⟩
  | @cons value values token tokens htoken _ ih =>
    cases h' with
    | nil => cases hlength
    | @cons other others token' tokens' htoken' hrest' =>
      simp only [List.forall_mem_cons] at hsized hsized'
      simp only [List.flatMap_cons, List.append_assoc] at hbytes
      obtain ⟨rfl, hbelow⟩ := ValueToken.bytes_append_inj hsized.1 hsized'.1 hbytes
      have hcount : (heap.children value ++ values).length =
          (later.children other ++ others).length := by
        rw [List.length_append, List.length_append, ← childCount_of_token htoken,
          ← childCount_of_token htoken', Nat.succ.inj hlength]
      obtain ⟨rfl, hrest⟩ := ih hrest' hsized.2 hsized'.2 hcount hbelow
      exact ⟨rfl, hrest⟩

end Spells

private theorem spelling_eq_of_forall₂
    (h : List.Forall₂ (fun a b => ∀ own own', heap.Spells [a] own → heap.Spells [b] own' →
      own = own') values others)
    (hvalues : heap.Spells values tokens) (hothers : heap.Spells others tokens') :
    tokens = tokens' := by
  induction h generalizing tokens tokens' with
  | nil =>
    cases hvalues
    cases hothers
    rfl
  | @cons a b values others hpair _ ih =>
    rw [← List.singleton_append] at hvalues hothers
    obtain ⟨own, rest, rfl, hown, hrest⟩ := hvalues.of_append
    obtain ⟨own', rest', rfl, hown', hrest'⟩ := hothers.of_append
    rw [hpair own own' hown hown', ih hrest hrest']

private theorem forall₂_of_equalLists {depth : Nat}
    (h : equalWithin.equalLists heap depth values others = true) :
    List.Forall₂ (fun a b => heap.equalWithin depth a b = true) values others := by
  rw [equalWithin.equalLists, Bool.and_eq_true, beq_iff_eq, List.all_eq_true] at h
  exact List.forall₂_iff_zip.mpr ⟨h.1, fun hmem => h.2 _ hmem⟩

private theorem equalWithin_cases {depth : Nat} (hhandle : value.handle? = none)
    (h : heap.equalWithin (depth + 1) value other = true) :
    value = other ∨ value.type = other.type ∧ value.container?.isSome = true ∧
      equalWithin.equalLists heap depth (heap.children value) (heap.children other) = true := by
  cases value with
  | byteString | boolean | integer =>
    left
    cases other <;> simp_all [equalWithin, StackValue.keyEq]
  | handle => cases hhandle
  | array | struct | map =>
    cases other <;>
      simp_all [equalWithin, StackValue.keyEq, StackValue.type, StackValue.container?, children]

private theorem token_eq_of_type {token token' : ValueToken} (htype : value.type = other.type)
    (hcontainer : value.container?.isSome = true) (htoken : heap.token? value = some token)
    (htoken' : later.token? other = some token') (hcount : token.childCount = token'.childCount) :
    token = token' := by
  cases value with
  | byteString | boolean | integer | handle => cases hcontainer
  | array | struct | map =>
    cases other <;> cases htype
    obtain ⟨_, -, rfl⟩ := Option.map_eq_some_iff.mp htoken
    obtain ⟨_, -, rfl⟩ := Option.map_eq_some_iff.mp htoken'
    simp only [ValueToken.childCount] at hcount
    simp only [ValueToken.container.injEq, true_and]
    omega

theorem spelling_eq_of_equalWithin {depth : Nat} (heq : heap.equalWithin depth value other = true)
    (hvalue : heap.Spells [value] tokens) (hother : heap.Spells [other] tokens') :
    tokens = tokens' := by
  induction depth generalizing value other tokens tokens' with
  | zero => simp [equalWithin] at heq
  | succ depth ih =>
    obtain ⟨token, below, rfl, htoken, hbelow⟩ := hvalue.exists_children
    rcases equalWithin_cases (handle_of_token htoken) heq with rfl | ⟨htype, hcontainer, hlists⟩
    · exact hvalue.unique hother
    · obtain ⟨token', below', rfl, htoken', hbelow'⟩ := hother.exists_children
      have hpairs := forall₂_of_equalLists hlists
      have hcount : token.childCount = token'.childCount := by
        rw [childCount_of_token htoken, childCount_of_token htoken', hpairs.length_eq]
      have hbelows : below = below' := spelling_eq_of_forall₂
        (hpairs.imp fun a b hab own own' hown hown' => ih hab hown hown') hbelow hbelow'
      rw [token_eq_of_type htype hcontainer htoken htoken' hcount, hbelows]

/-- Of values that can be spelled, just those of one spelling are equal. -/
theorem equal_iff_spelling_eq (hvalue : heap.Spells [value] tokens)
    (hother : heap.Spells [other] tokens') : heap.equal value other = true ↔ tokens = tokens' := by
  constructor
  · intro heq
    exact spelling_eq_of_equalWithin heq hvalue hother
  · rintro rfl
    exact equal_of_spells hvalue hother

theorem equal_of_keyEq (heap : Heap) (h : value.keyEq other = true) :
    heap.equal value other = true := by
  cases value <;> cases other <;> simp_all [equal, equalWithin, StackValue.keyEq]

private theorem type_eq_of_token {token : ValueToken} (htoken : heap.token? value = some token)
    (htoken' : later.token? other = some token) :
    value.type = other.type ∧ (value.container? = none → value = other) := by
  cases value with
  | byteString | boolean | integer => cases htoken; cases other <;> simp_all [token?, StackValue.type]
  | handle => cases htoken
  | array | struct | map =>
    obtain ⟨_, -, rfl⟩ := Option.map_eq_some_iff.mp htoken
    cases other <;> simp_all [token?, StackValue.type, StackValue.container?]

/-- Equality is told from the kind of two values, from plain data as such, and from what is inside
containers, one by one. -/
theorem Spells.equal_iff (hvalue : heap.Spells [value] tokens)
    (hother : heap.Spells [other] tokens') :
    heap.equal value other = true ↔ value.type = other.type ∧
      (value.container? = none → value = other) ∧
      List.Forall₂ (fun a b => heap.equal a b = true) (heap.children value)
        (heap.children other) := by
  rw [equal_iff_spelling_eq hvalue hother]
  obtain ⟨token, below, rfl, htoken, hbelow⟩ := hvalue.exists_children
  obtain ⟨token', below', rfl, htoken', hbelow'⟩ := hother.exists_children
  constructor
  · intro hsame
    obtain ⟨rfl, rfl⟩ := List.cons.inj hsame
    obtain ⟨htype, hplain⟩ := type_eq_of_token htoken htoken'
    refine ⟨htype, hplain, (hbelow.forall₂ hbelow').imp ?_⟩
    rintro a b ⟨own, hown, hown'⟩
    exact equal_of_spells hown hown'
  · rintro ⟨htype, hplain, hchildren⟩
    cases hcontainer : value.container? with
    | none =>
      obtain rfl := hplain hcontainer
      exact hvalue.unique hother
    | some id =>
      have hcount : token.childCount = token'.childCount := by
        rw [childCount_of_token htoken, childCount_of_token htoken', hchildren.length_eq]
      have hbelows : below = below' := by
        apply spelling_eq_of_forall₂ _ hbelow hbelow'
        refine hchildren.imp fun a b hab own own' hown hown' => ?_
        exact (equal_iff_spelling_eq hown hown').mp hab
      rw [token_eq_of_type htype (by rw [hcontainer]; rfl) htoken htoken' hcount, hbelows]

/-- A value that has a binary form, whatever its size, in a heap that holds all of it. -/
def Encodable (heap : Heap) (value : StackValue) : Prop :=
  heap.HasWithin value ∧ ∃ limits bytes, value.encode heap limits = .ok bytes

theorem exists_spelling_of_encode {limits : ValueLimits} {bytes : Bytes}
    (hheld : heap.HasWithin value) (h : value.encode heap limits = .ok bytes) :
    ∃ tokens, heap.Spells [value] tokens ∧ bytes = tokens.flatMap ValueToken.bytes ∧
      ∀ token ∈ tokens, token.Sized := by
  obtain ⟨hwritable, hbytes, hfit⟩ := StackValue.encode_eq_ok_iff.mp h
  obtain ⟨tokens, hspell, hform⟩ := hheld.exists_spelling hwritable
  rw [← hform] at hbytes
  rw [hbytes] at hfit
  exact ⟨tokens, hspell, hbytes, hspell.sized (Nat.lt_of_le_of_lt hfit limits.maxItemSize.toNat_lt)⟩

end Heap

open Heap in
/-- Two values have one binary form, in whichever heaps and under whichever limits they are encoded,
exactly if one spelling is that of both, and otherwise neither form begins with the other. In a heap
that holds both of them these are just the values that are structurally equal. Equality is told from
the kind of the values, from plain data, and from what is inside, one by one and in order, whether
shared or not; so it distinguishes kinds and orders, it is an equivalence, and it holds of equal map
keys. -/
theorem StackValue.encode_canonical {heap heap' : Heap} {value other : StackValue}
    (hvalue : heap.HasWithin value) (hother : heap'.HasWithin other) {limits limits' : ValueLimits}
    {bytes bytes' : Bytes} (h : value.encode heap limits = .ok bytes)
    (h' : other.encode heap' limits' = .ok bytes') :
    (bytes <+: bytes' → bytes = bytes') ∧ (bytes' <+: bytes → bytes = bytes') ∧
    (bytes = bytes' ↔ ∃ tokens, heap.Spells [value] tokens ∧ heap'.Spells [other] tokens) ∧
    ∀ joint : Heap, heap.Extends joint → heap'.Extends joint →
      (joint.equal value other = true ↔ bytes = bytes') ∧
      (joint.equal value other = true ↔ value.type = other.type ∧
        (value.container? = none → value = other) ∧
        List.Forall₂ (fun a b => joint.equal a b = true) (joint.children value)
          (joint.children other)) ∧
      (value.keyEq other = true → joint.equal value other = true) ∧
      Equivalence fun a b : { v // joint.Encodable v } => joint.equal a b = true := by
  obtain ⟨tokens, hspell, rfl, hsized⟩ := exists_spelling_of_encode hvalue h
  obtain ⟨tokens', hspell', rfl, hsized'⟩ := exists_spelling_of_encode hother h'
  have hunique : ∀ rest rest', tokens.flatMap ValueToken.bytes ++ rest =
      tokens'.flatMap ValueToken.bytes ++ rest' → tokens = tokens' := by
    intro rest rest' hbytes
    exact (hspell.bytes_append_inj hspell' hsized hsized' rfl hbytes).1
  refine ⟨?_, ?_, ⟨fun hbytes => ?_, ?_⟩, fun joint hext hext' => ?_⟩
  · rintro ⟨rest, hrest⟩
    rw [hunique rest [] (by rw [hrest, List.append_nil])]
  · rintro ⟨rest, hrest⟩
    rw [hunique [] rest (by rw [hrest, List.append_nil])]
  · exact ⟨tokens, hspell, hunique [] [] (by rw [hbytes]) ▸ hspell'⟩
  · rintro ⟨both, hboth, hboth'⟩
    rw [hspell.unique hboth, hspell'.unique hboth']
  · have hjoint := hspell.later hext
    have hjoint' := hspell'.later hext'
    refine ⟨?_, hjoint.equal_iff hjoint', equal_of_keyEq joint, ?_⟩
    · rw [equal_iff_spelling_eq hjoint hjoint']
      exact ⟨fun hsame => hsame ▸ rfl, fun hbytes => hunique [] [] (by rw [hbytes])⟩
    · have hown : ∀ v : { v // joint.Encodable v }, ∃ own, joint.Spells [v.1] own := by
        rintro ⟨v, hheld, limits, bytes, hencode⟩
        obtain ⟨own, hown, -⟩ := exists_spelling_of_encode hheld hencode
        exact ⟨own, hown⟩
      choose spelling hspelling using hown
      simp only [equal_iff_spelling_eq (hspelling _) (hspelling _)]
      exact ⟨fun _ => rfl, Eq.symm, Eq.trans⟩

/-- An array that has another one in it twice, and an array with two arrays in it. -/
def twins : Heap := ⟨#[[], [], [.array 0, .array 0], [.array 0, .array 1]], #[], 0⟩

theorem StackValue.encode_canonical_twins :
    (array 2).encode twins ⟨6, 0⟩ = .ok [0x80, 2, 0x80, 0, 0x80, 0] ∧
      (array 3).encode twins ⟨100, 0⟩ = .ok [0x80, 2, 0x80, 0, 0x80, 0] ∧
      twins.equal (.array 2) (.array 3) = true := by
  have hshared : twins.Spells [.array 2]
      [.container .array 2, .container .array 0, .container .array 0] :=
    .cons rfl (.cons rfl (.cons rfl .nil))
  have hapart : twins.Spells [.array 3]
      [.container .array 2, .container .array 0, .container .array 0] :=
    .cons rfl (.cons rfl (.cons rfl .nil))
  have hencode : (array 2).encode twins ⟨6, 0⟩ = .ok [0x80, 2, 0x80, 0, 0x80, 0] :=
    encode_spelled hshared (by decide)
  have hencode' : (array 3).encode twins ⟨100, 0⟩ = .ok [0x80, 2, 0x80, 0, 0x80, 0] :=
    encode_spelled hapart (by decide)
  obtain ⟨-, -, -, hjoint⟩ :=
    encode_canonical hshared.hasWithin hapart.hasWithin hencode hencode'
  exact ⟨hencode, hencode', (hjoint twins (.refl _) (.refl _)).1.mpr rfl⟩

end ContractHost
