import ContractHost.Proofs.Value.Reading
import ContractHost.Proofs.Value.Rebuilding
import ContractHost.Proofs.Value.Sameness
import ContractHost.Proofs.Value.WorkList

/-!
# Values are read back

What the encoder writes are the bytes of the tokens that spell the value. The decoder takes the
tokens off again and builds a value that they spell, too, so the two are equal; the only values it
refuses are those with a count or a payload that is more than it reads.
-/

namespace ContractHost

namespace Heap

/-- The heap holds what a value refers to. -/
def Has (heap : Heap) (value : StackValue) : Prop := ∀ id ∈ value.container?, id ∈ heap.containers

instance (heap : Heap) : DecidablePred heap.Has := fun value =>
  inferInstanceAs (Decidable (∀ id ∈ value.container?, id ∈ heap.containers))

/-- Heaps as they come about: what is inside a container is held, and maps come from inserting and
removing. -/
structure Sound (heap : Heap) : Prop where
  items : ∀ items ∈ heap.sequences, ∀ value ∈ items, heap.Has value
  pairs : ∀ m ∈ heap.maps, ∀ e ∈ m.entries, heap.Has e.1 ∧ heap.Has e.2
  built : ∀ m ∈ heap.maps, m.Built

theorem Sound.has_of_child {heap : Heap} (hheap : heap.Sound) {outer inner : StackValue}
    (hc : heap.Child outer inner) : heap.Has inner := by
  obtain ⟨id, hid, hmem⟩ := hc.mem_containers
  cases outer with
  | array ref | struct ref =>
    cases hid
    have hlt : ref < heap.sequences.size := by simpa [containers] using hmem
    rw [Child, children, items_of_getElem? (Array.getElem?_eq_getElem hlt)] at hc
    exact hheap.items _ (Array.getElem_mem hlt) inner hc
  | map ref =>
    cases hid
    have hlt : ref < heap.maps.size := by simpa [containers] using hmem
    rw [Child, children, pairs_of_getElem? (Array.getElem?_eq_getElem hlt)] at hc
    obtain ⟨e, he, hinner⟩ := List.mem_flatMap.mp hc
    obtain ⟨hkey, hvalue⟩ := hheap.pairs _ (Array.getElem_mem hlt) e he
    rcases List.mem_pair.mp hinner with rfl | rfl
    · exact hkey
    · exact hvalue
  | byteString | boolean | integer | handle => cases hid

/-- The heap holds what a value and everything inside it refers to. -/
def HasWithin (heap : Heap) (value : StackValue) : Prop :=
  ∀ inner, heap.Reaches value inner → heap.Has inner

theorem Sound.hasWithin {heap : Heap} (hheap : heap.Sound) {value : StackValue}
    (hvalue : heap.Has value) : heap.HasWithin value := by
  intro inner hr
  induction hr with
  | refl => exact hvalue
  | tail _ hc _ => exact hheap.has_of_child hc

theorem Spells.hasWithin {heap : Heap} {value : StackValue} {tokens : List ValueToken}
    (h : heap.Spells [value] tokens) : heap.HasWithin value := by
  intro inner hr
  obtain ⟨own, hown, -⟩ := h.of_reaches hr
  obtain ⟨token, below, -, htoken, -⟩ := hown.exists_children
  exact container_mem_of_token htoken

theorem exists_token {heap : Heap} {value : StackValue} {entry : EncodedItem}
    (hitem : Encoder.item heap value = .ok entry) (hvalue : heap.Has value) :
    ∃ token, heap.token? value = some token ∧ token.bytes = Encoder.ownBytes entry := by
  cases value with
  | byteString | boolean | integer =>
    cases hitem
    exact ⟨_, rfl, rfl⟩
  | handle => cases hitem
  | array ref | struct ref =>
    cases hitem
    have hlt : ref < heap.sequences.size := by simpa [containers] using hvalue _ rfl
    have hitems := Array.getElem?_eq_getElem hlt
    refine ⟨_, congrArg (Option.map _) hitems, ?_⟩
    rw [← items_of_getElem? hitems]
    rfl
  | map ref =>
    cases hitem
    have hlt : ref < heap.maps.size := by simpa [containers] using hvalue _ rfl
    have hpairs := Array.getElem?_eq_getElem hlt
    refine ⟨_, congrArg (Option.map _) hpairs, ?_⟩
    rw [← pairs_of_getElem? hpairs]
    rfl

private theorem exists_spelling_of_all {heap : Heap} {formOf : StackValue → Bytes}
    (children : List StackValue)
    (h : ∀ child ∈ children, ∃ tokens, heap.Spells [child] tokens ∧
      tokens.flatMap ValueToken.bytes = formOf child) :
    ∃ tokens, heap.Spells children tokens ∧
      tokens.flatMap ValueToken.bytes = children.flatMap formOf := by
  induction children with
  | nil => exact ⟨[], .nil, rfl⟩
  | cons child children ih =>
    obtain ⟨own, hown, hbytes⟩ := h child List.mem_cons_self
    obtain ⟨rest, hrest, hbytes'⟩ := ih fun c hc => h c (List.mem_cons_of_mem _ hc)
    exact ⟨own ++ rest, hown.append hrest, by
      rw [List.flatMap_append, hbytes, hbytes', List.flatMap_cons]⟩

theorem HasWithin.exists_spelling {heap : Heap} {enclosing : List ContainerId} {value : StackValue}
    (hheld : heap.HasWithin value)
    (hwritable : Encoder.Writable heap enclosing value) :
    ∃ tokens, heap.Spells [value] tokens ∧
      tokens.flatMap ValueToken.bytes = Encoder.form heap enclosing value := by
  induction hroom : heap.room enclosing using Nat.strongRecOn generalizing enclosing value with
  | ind room ih =>
  subst hroom
  obtain ⟨hhandle, hfree, hchildren⟩ := Encoder.writable_iff.mp hwritable
  obtain ⟨entry, hitem⟩ := Encoder.item_of_handle heap hhandle
  obtain ⟨token, htoken, hbytes⟩ := exists_token hitem (hheld value (heap.reaches_self value))
  obtain ⟨below, hbelow, hform⟩ := exists_spelling_of_all (heap.children value) fun child hc =>
    ih _ (Encoder.room_enclose_lt hfree hitem (by rwa [Encoder.children_of_item hitem]))
      (fun inner hr => hheld inner (Child.reaches hc hr)) (hchildren child hc) rfl
  refine ⟨token :: below, .cons htoken (by rwa [List.append_nil]), ?_⟩
  rw [List.flatMap_cons, hbytes, hform, ← Encoder.form_of_item hfree hitem]

theorem exists_spelling {heap : Heap} (hheap : heap.Sound) {enclosing : List ContainerId}
    {value : StackValue} (hvalue : heap.Has value)
    (hwritable : Encoder.Writable heap enclosing value) :
    ∃ tokens, heap.Spells [value] tokens ∧
      tokens.flatMap ValueToken.bytes = Encoder.form heap enclosing value := by
  exact (hheap.hasWithin hvalue).exists_spelling hwritable

theorem Spells.form_eq {heap : Heap} {value : StackValue} {tokens : List ValueToken}
    (h : heap.Spells [value] tokens) :
    Encoder.form heap [] value = tokens.flatMap ValueToken.bytes := by
  obtain ⟨tokens', hspell, hform⟩ := h.hasWithin.exists_spelling h.writable
  rw [← hform, h.unique hspell]

/-- What readers accept of a value by itself: a payload of at most `VarBytes.maxLength` bytes,
and at most as many elements or pairs as the limits say. -/
def Acceptable (limits : ValueLimits) (heap : Heap) : StackValue → Prop
  | .byteString bytes => bytes.length ≤ VarBytes.maxLength
  | .integer value => (TwosComplement.write value).length ≤ VarBytes.maxLength
  | .array ref | .struct ref => (heap.items ref).length ≤ limits.maxArraySize.toNat
  | .map ref => (heap.pairs ref).size ≤ limits.maxArraySize.toNat
  | .boolean _ | .handle _ => True

instance (limits : ValueLimits) (heap : Heap) : DecidablePred (heap.Acceptable limits) :=
  fun value =>
    match value with
    | .byteString _ | .integer _ | .array _ | .struct _ | .map _ => Nat.decLe _ _
    | .boolean _ | .handle _ => .isTrue trivial

theorem fits_iff_acceptable {heap : Heap} {value : StackValue} {token : ValueToken}
    (h : heap.token? value = some token) (limits : ValueLimits) :
    token.Fits limits.maxArraySize.toNat ↔ heap.Acceptable limits value := by
  cases value with
  | byteString | boolean | integer => cases h; rfl
  | handle => cases h
  | array ref | struct ref =>
    obtain ⟨items, hitems, rfl⟩ := Option.map_eq_some_iff.mp h
    rw [Acceptable, items_of_getElem? hitems, ValueToken.Fits]
  | map ref =>
    obtain ⟨pairs, hpairs, rfl⟩ := Option.map_eq_some_iff.mp h
    rw [Acceptable, pairs_of_getElem? hpairs, ValueToken.Fits]

theorem Spells.forall_fits_iff {heap : Heap} {value : StackValue} {tokens : List ValueToken}
    (h : heap.Spells [value] tokens) (limits : ValueLimits) :
    (∀ token ∈ tokens, token.Fits limits.maxArraySize.toNat) ↔
      ∀ inner, heap.Reaches value inner → heap.Acceptable limits inner := by
  rw [h.forall_token_iff]
  simp only [List.mem_singleton, forall_eq]
  refine forall₂_congr fun inner hr => ?_
  obtain ⟨own, hown, -⟩ := h.of_reaches hr
  obtain ⟨token, below, -, htoken, -⟩ := hown.exists_children
  rw [← fits_iff_acceptable htoken, htoken]
  simp

end Heap

namespace StackValue

/-- Encoding succeeds exactly for values that can be written and whose form fits. -/
theorem encode_eq_ok_iff {heap : Heap} {limits : ValueLimits} {value : StackValue} {bytes : Bytes} :
    value.encode heap limits = .ok bytes ↔ Encoder.Writable heap [] value ∧
      bytes = Encoder.form heap [] value ∧ bytes.length ≤ limits.maxItemSize.toNat := by
  rw [encode, Encoder.run_eq_writeNested]
  exact Encoder.writeNested_eq_ok_iff heap _ [] [] bytes value (Nat.zero_le _)

theorem encode_spelled {heap : Heap} {limits : ValueLimits} {value : StackValue}
    {tokens : List ValueToken} (h : heap.Spells [value] tokens)
    (hfit : (tokens.flatMap ValueToken.bytes).length ≤ limits.maxItemSize.toNat) :
    value.encode heap limits = .ok (tokens.flatMap ValueToken.bytes) :=
  encode_eq_ok_iff.mpr ⟨h.writable, h.form_eq.symm, hfit⟩

/-- Bytes that tokens spell are decoded into a copy that the same tokens spell, in any heap. -/
theorem decode_spelled_into (start : Heap) {heap : Heap} {value : StackValue}
    {tokens : List ValueToken} (h : heap.Spells [value] tokens)
    (hkeys : ∀ ref, heap.Reaches value (.map ref) →
      StackMap.KeysDistinct (heap.pairs ref).entries)
    (hsize : (tokens.flatMap ValueToken.bytes).length < UInt64.size) (limits : ValueLimits) :
    ∃ copy later, start.Extends later ∧ later.Spells [copy] tokens ∧ ∀ rest, ∃ e,
      decode limits (tokens.flatMap ValueToken.bytes ++ rest) start =
        if ∀ token ∈ tokens, token.Fits limits.maxArraySize.toNat then .ok (copy, later)
        else .error e := by
  obtain ⟨copies, later, hrebuild, hext, hspell, hcopies, -⟩ :=
    Decoder.rebuild_spelled (by simpa using hkeys) h [] start
  obtain ⟨copy, rest, -, hnil, rfl⟩ := List.forall₂_cons_left_iff.mp hcopies
  cases hnil
  refine ⟨copy, later, hext, hspell, fun rest => ?_⟩
  obtain ⟨e, hread⟩ := Decoder.readTokens_spelled h hsize limits.maxArraySize.toNat [] rest
  refine ⟨e, ?_⟩
  rw [List.length_singleton] at hread
  rw [decode, Decoder.flatten, hread]
  by_cases hfits : ∀ token ∈ tokens, token.Fits limits.maxArraySize.toNat
  · simp only [if_pos hfits, Decoder.reconstruct, List.append_nil, hrebuild]
  · simp only [if_neg hfits]

theorem decode_spelled {heap : Heap} (hmaps : ∀ m ∈ heap.maps, m.Built) {value : StackValue}
    {tokens : List ValueToken} (h : heap.Spells [value] tokens)
    (hsize : (tokens.flatMap ValueToken.bytes).length < UInt64.size) (limits : ValueLimits) :
    ∃ copy later, heap.Extends later ∧ later.Spells [copy] tokens ∧ ∀ rest, ∃ e,
      decode limits (tokens.flatMap ValueToken.bytes ++ rest) heap =
        if ∀ token ∈ tokens, token.Fits limits.maxArraySize.toNat then .ok (copy, later)
        else .error e := by
  apply decode_spelled_into heap h _ hsize limits
  intro ref hr
  obtain ⟨own, hown, -⟩ := h.of_reaches hr
  obtain ⟨token, below, -, htoken, -⟩ := hown.exists_children
  obtain ⟨pairs, hpairs, -⟩ := Option.map_eq_some_iff.mp htoken
  rw [Heap.pairs_of_getElem? hpairs]
  exact (hmaps pairs (Array.mem_of_getElem? hpairs)).keysDistinct

/-- What was encoded is decoded exactly if every count and every payload at and inside the value is
one that readers accept, whatever follows the bytes. The result is then a copy that is equal to the
value, container by container and pair by pair, and it does not depend on what follows. -/
theorem decode_encode {heap : Heap} (hheap : heap.Sound) {value : StackValue}
    (hvalue : heap.Has value) (writing reading : ValueLimits) {bytes : Bytes}
    (h : value.encode heap writing = .ok bytes) :
    (∀ rest, (∃ result, decode reading (bytes ++ rest) heap = .ok result) ↔
      ∀ inner, heap.Reaches value inner → heap.Acceptable reading inner) ∧
    ∀ rest copy later, decode reading (bytes ++ rest) heap = .ok (copy, later) →
      heap.Extends later ∧ later.equal copy value = true ∧ later.equal value copy = true ∧
      (∃ tokens, heap.Spells [value] tokens ∧ later.Spells [copy] tokens) ∧
      ∀ other, decode reading (bytes ++ other) heap = .ok (copy, later) := by
  have hnested := Encoder.run_eq_writeNested heap writing.maxItemSize.toNat value
  rw [← encode, h] at hnested
  obtain ⟨hwritable, hbytes, hfit⟩ :=
    (Encoder.writeNested_eq_ok_iff heap _ [] [] bytes value (Nat.zero_le _)).mp hnested.symm
  obtain ⟨tokens, hspell, hform⟩ := Heap.exists_spelling hheap hvalue hwritable
  rw [List.nil_append, ← hform] at hbytes
  subst hbytes
  have hsize := Nat.lt_of_le_of_lt hfit writing.maxItemSize.toNat_lt
  obtain ⟨copy, later, hext, hcopy, hdecode⟩ := decode_spelled hheap.built hspell hsize reading
  rw [← hspell.forall_fits_iff]
  constructor
  · intro rest
    obtain ⟨e, hrest⟩ := hdecode rest
    rw [hrest]
    split
    next hfits => exact ⟨fun _ => hfits, fun _ => ⟨_, rfl⟩⟩
    next hnot => exact ⟨fun ⟨_, h⟩ => (by cases h), fun hfits => absurd hfits hnot⟩
  · intro rest copy' later' hok
    obtain ⟨e, hrest⟩ := hdecode rest
    rw [hrest] at hok
    split at hok
    next hfits =>
      cases hok
      have hvalue' := hspell.later hext
      refine ⟨hext, Heap.equal_of_spells hcopy hvalue', Heap.equal_of_spells hvalue' hcopy,
        ⟨tokens, hspell, hcopy⟩, fun other => ?_⟩
      obtain ⟨e, hother⟩ := hdecode other
      rw [hother, if_pos hfits]
    next => cases hok

/-- Two arrays without elements, which are different keys of one map, and a struct with the map and
one of its keys. -/
def emptyKeys : Heap :=
  ⟨#[[], [], [.map 0, .array 1]],
    #[(((StackMap.empty.insert (.array 0) (.integer 5)).2.insert (.array 1) (.boolean true)).2)], 0⟩

theorem decode_encode_emptyKeys : ∃ copy later,
    decode ⟨100, 2⟩ ([0x81, 2, 0x82, 2, 0x80, 0, 0x02, 1, 5, 0x80, 0, 0x01, 1, 0x80, 0] ++ [0xFF])
      emptyKeys = .ok (copy, later) ∧
    later.equal copy (.struct 2) = true := by
  have hsound : emptyKeys.Sound := by
    refine ⟨?_, ?_, ?_⟩
    · decide
    · decide
    · simp only [emptyKeys, List.mem_toArray, List.mem_singleton, forall_eq]
      exact .insert (.insert .empty _ _) _ _
  have hencode : (struct 2).encode emptyKeys ⟨100, 2⟩ =
      .ok [0x81, 2, 0x82, 2, 0x80, 0, 0x02, 1, 5, 0x80, 0, 0x01, 1, 0x80, 0] := by
    have hitems : emptyKeys.items 0 = [] ∧ emptyKeys.items 1 = [] ∧
        emptyKeys.items 2 = [.map 0, .array 1] := by decide
    have hpairs : (emptyKeys.pairs 0).entries =
        [(.array 0, .integer 5), (.array 1, .boolean true)] := by decide
    have hfive : TwosComplement.write 5 = [5] := by decide
    simp [encode, Encoder.run, Encoder.descend, container?, Encoder.item, hitems, hpairs,
      StackMap.size, EncodedItem.appendTo, ValueTag.byte, VarInt.write, VarBytes.write,
      littleEndian, hfive]
    rfl
  obtain ⟨hread, hcopy⟩ := decode_encode hsound (by decide) ⟨100, 2⟩ ⟨100, 2⟩ hencode
  have hreaches : ∀ inner, emptyKeys.Reaches (struct 2) inner → inner ∈
      [struct 2, map 0, array 1, array 0, integer 5, boolean true] := by
    intro inner hr
    have hclosed : ∀ outer ∈ [struct 2, map 0, array 1, array 0, integer 5, boolean true],
        ∀ child ∈ emptyKeys.children outer,
          child ∈ [struct 2, map 0, array 1, array 0, integer 5, boolean true] := by decide
    induction hr with
    | refl => exact List.mem_cons_self
    | tail _ hc ih => exact hclosed _ ih _ hc
  have hsmall : ∀ inner ∈ [struct 2, map 0, array 1, array 0, integer 5, boolean true],
      emptyKeys.Acceptable ⟨100, 2⟩ inner := by decide
  obtain ⟨⟨copy, later⟩, hdecode⟩ :=
    (hread [0xFF]).mpr fun inner hr => hsmall inner (hreaches inner hr)
  exact ⟨copy, later, hdecode, (hcopy [0xFF] copy later hdecode).2.1⟩

end StackValue

end ContractHost
