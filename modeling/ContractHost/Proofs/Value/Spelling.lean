import ContractHost.Proofs.Value.NestedWriting
import ContractHost.Value.Decoder

/-!
# Values spelled by tokens

The tokens of a value in pre-order spell it out: every token is followed by the spelling of what is
directly inside. Only values without cycles and handles are spelled, and tokens determine a value
up to which containers are shared.
-/

namespace ContractHost

namespace Heap

/-- The token of a value by itself. A handle has none, nor has a reference to nothing. -/
def token? (heap : Heap) : StackValue → Option ValueToken
  | .byteString bytes => some (.byteString bytes)
  | .boolean flag => some (.boolean flag)
  | .integer value => some (.integer value)
  | .handle _ => none
  | .array ref => heap.sequences[ref]?.map fun items => .container .array items.length
  | .struct ref => heap.sequences[ref]?.map fun items => .container .struct items.length
  | .map ref => heap.maps[ref]?.map fun pairs => .container .map pairs.size

/-- The tokens spell the values in order, each with everything inside it. -/
inductive Spells (heap : Heap) : List StackValue → List ValueToken → Prop
  | nil : Spells heap [] []
  | cons {value : StackValue} {values : List StackValue} {token : ValueToken}
      {tokens : List ValueToken} (htoken : heap.token? value = some token)
      (hrest : Spells heap (heap.children value ++ values) tokens) :
      Spells heap (value :: values) (token :: tokens)

/-- A heap still has the containers of another, with the same contents. -/
structure Extends (heap later : Heap) : Prop where
  sequences : ∀ (ref : SequenceRef) items,
    heap.sequences[ref]? = some items → later.sequences[ref]? = some items
  maps : ∀ (ref : MapRef) pairs, heap.maps[ref]? = some pairs → later.maps[ref]? = some pairs

theorem Extends.refl (heap : Heap) : heap.Extends heap := ⟨fun _ _ h => h, fun _ _ h => h⟩

theorem Extends.trans {a b c : Heap} (hab : a.Extends b) (hbc : b.Extends c) : a.Extends c :=
  ⟨fun ref items h => hbc.sequences ref items (hab.sequences ref items h),
    fun ref pairs h => hbc.maps ref pairs (hab.maps ref pairs h)⟩

theorem items_of_getElem? {heap : Heap} {ref : SequenceRef} {items : List StackValue}
    (h : heap.sequences[ref]? = some items) : heap.items ref = items := by
  simp [Heap.items, Array.getD_eq_getD_getElem?, h]

theorem pairs_of_getElem? {heap : Heap} {ref : MapRef} {pairs : StackMap}
    (h : heap.maps[ref]? = some pairs) : heap.pairs ref = pairs := by
  simp [Heap.pairs, Array.getD_eq_getD_getElem?, h]

theorem childCount_of_token {heap : Heap} {value : StackValue} {token : ValueToken}
    (h : heap.token? value = some token) : token.childCount = (heap.children value).length := by
  cases value with
  | byteString | boolean | integer => cases h; rfl
  | handle => cases h
  | array ref | struct ref =>
    obtain ⟨items, hitems, rfl⟩ := Option.map_eq_some_iff.mp h
    simp [ValueToken.childCount, children, items_of_getElem? hitems]
  | map ref =>
    obtain ⟨pairs, hpairs, rfl⟩ := Option.map_eq_some_iff.mp h
    simp [ValueToken.childCount, children, pairs_of_getElem? hpairs, StackMap.size,
      List.map_const', Nat.mul_comm]

theorem container_mem_of_token {heap : Heap} {value : StackValue} {token : ValueToken}
    (h : heap.token? value = some token) : ∀ id ∈ value.container?, id ∈ heap.containers := by
  intro id hid
  cases value with
  | byteString | boolean | integer => cases hid
  | handle => cases h
  | array ref | struct ref =>
    cases hid
    obtain ⟨items, hitems, -⟩ := Option.map_eq_some_iff.mp h
    obtain ⟨hlt, -⟩ := Array.getElem?_eq_some_iff.mp hitems
    simp [containers, hlt]
  | map ref =>
    cases hid
    obtain ⟨pairs, hpairs, -⟩ := Option.map_eq_some_iff.mp h
    obtain ⟨hlt, -⟩ := Array.getElem?_eq_some_iff.mp hpairs
    simp [containers, hlt]

theorem handle_of_token {heap : Heap} {value : StackValue} {token : ValueToken}
    (h : heap.token? value = some token) : value.handle? = none := by
  cases value <;> first | rfl | cases h

theorem Extends.token {heap later : Heap} (hext : heap.Extends later) {value : StackValue}
    {token : ValueToken} (h : heap.token? value = some token) :
    later.token? value = some token ∧ later.children value = heap.children value := by
  cases value with
  | byteString | boolean | integer => exact ⟨h, rfl⟩
  | handle => cases h
  | array ref | struct ref =>
    obtain ⟨items, hitems, rfl⟩ := Option.map_eq_some_iff.mp h
    have hlater := hext.sequences ref items hitems
    exact ⟨by simp [token?, hlater],
      by simp only [children, items_of_getElem? hlater, items_of_getElem? hitems]⟩
  | map ref =>
    obtain ⟨pairs, hpairs, rfl⟩ := Option.map_eq_some_iff.mp h
    have hlater := hext.maps ref pairs hpairs
    exact ⟨by simp [token?, hlater],
      by simp only [children, pairs_of_getElem? hlater, pairs_of_getElem? hpairs]⟩

namespace Spells

variable {heap : Heap} {values others : List StackValue} {tokens more : List ValueToken}

theorem later {later : Heap} (h : heap.Spells values tokens) (hext : heap.Extends later) :
    later.Spells values tokens := by
  induction h with
  | nil => exact .nil
  | cons htoken _ ih =>
    obtain ⟨hlater, hchildren⟩ := hext.token htoken
    exact .cons hlater (hchildren ▸ ih)

theorem unique (h : heap.Spells values tokens) (h' : heap.Spells values more) : tokens = more := by
  induction h generalizing more with
  | nil => cases h'; rfl
  | cons htoken _ ih =>
    cases h' with
    | cons htoken' hrest' =>
      rw [htoken] at htoken'
      rw [Option.some.inj htoken', ih hrest']

theorem append (h : heap.Spells values tokens) (h' : heap.Spells others more) :
    heap.Spells (values ++ others) (tokens ++ more) := by
  induction h with
  | nil => exact h'
  | cons htoken _ ih =>
    rw [List.append_assoc] at ih
    exact .cons htoken ih

theorem of_append (h : heap.Spells (values ++ others) tokens) :
    ∃ front back, tokens = front ++ back ∧ heap.Spells values front ∧
      heap.Spells others back := by
  generalize hall : values ++ others = all at h
  induction h generalizing values with
  | nil =>
    obtain ⟨rfl, rfl⟩ := List.append_eq_nil_iff.mp hall
    exact ⟨[], [], rfl, .nil, .nil⟩
  | @cons value rest token tokens htoken hrest ih =>
    cases values with
    | nil =>
      rw [List.nil_append] at hall
      exact ⟨[], token :: tokens, rfl, .nil, hall ▸ .cons htoken hrest⟩
    | cons v values =>
      obtain ⟨rfl, rfl⟩ := List.cons.inj hall
      obtain ⟨front, back, rfl, hfront, hback⟩ := ih (List.append_assoc _ values others)
      exact ⟨token :: front, back, rfl, .cons htoken hfront, hback⟩

theorem length_le (h : heap.Spells values tokens) : values.length ≤ tokens.length := by
  induction h with
  | nil => exact Nat.le_refl _
  | cons _ _ ih =>
    rw [List.length_append] at ih
    simp only [List.length_cons]
    omega

theorem of_mem (h : heap.Spells values tokens) {value : StackValue} (hmem : value ∈ values) :
    ∃ own, heap.Spells [value] own ∧ own.length ≤ tokens.length := by
  obtain ⟨before, after, rfl⟩ := List.append_of_mem hmem
  obtain ⟨_, back, rfl, -, hback⟩ := h.of_append
  rw [← List.singleton_append] at hback
  obtain ⟨own, rest, rfl, hown, -⟩ := hback.of_append
  exact ⟨own, hown, by simp only [List.length_append]; omega⟩

end Spells

end Heap

end ContractHost
