import ContractHost.Proofs.Value.SecondPass

/-!
# Reading makes no handles

A container holds the handles among the values it was made from. Values read from bytes are made
from plain data alone, so neither they nor their containers have handles in them.
-/

namespace ContractHost

namespace Heap

/-- Some container holds a handle. -/
def Holds (heap : Heap) (handle : Handle) : Prop :=
  ∃ container, .handle handle ∈ heap.children container

theorem mem_children_newSequence {heap : Heap} {items : List StackValue}
    {container value : StackValue}
    (h : value ∈ (heap.newSequence items).2.children container) :
    value ∈ heap.children container ∨ value ∈ items := by
  cases container with
  | array ref | struct ref =>
    rw [children, Heap.items, newSequence, Array.getD_eq_getD_getElem?, Array.getElem?_push] at h
    split at h
    · exact .inr h
    · rw [children, Heap.items, Array.getD_eq_getD_getElem?]
      exact .inl h
  | map ref => exact .inl h
  | byteString | boolean | integer | handle => cases h

theorem mem_children_newMap {heap : Heap} {pairs : StackMap} {container value : StackValue}
    (h : value ∈ (heap.newMap pairs).2.children container) :
    value ∈ heap.children container ∨ value ∈ inTurn pairs.entries := by
  cases container with
  | map ref =>
    rw [children, Heap.pairs, newMap, Array.getD_eq_getD_getElem?, Array.getElem?_push] at h
    split at h
    · exact .inr h
    · rw [children, Heap.pairs, Array.getD_eq_getD_getElem?]
      exact .inl h
  | array ref | struct ref => exact .inl h
  | byteString | boolean | integer | handle => cases h

end Heap

namespace Decoder

/-- There are no handles among values. -/
def Plain (values : List StackValue) : Prop := ∀ handle, .handle handle ∉ values

theorem Plain.cons {value : StackValue} {values : List StackValue}
    (hvalue : ∀ handle, .handle handle ≠ value) (h : Plain values) : Plain (value :: values) := by
  intro handle hmem
  rcases List.mem_cons.mp hmem with heq | hmem
  · exact hvalue handle heq
  · exact h handle hmem

theorem build_plain {token : ValueToken} {built built' : List StackValue} {heap heap' : Heap}
    (h : build token built heap = .ok (built', heap')) (hbuilt : Plain built) :
    Plain built' ∧ ∀ handle, heap'.Holds handle → heap.Holds handle := by
  obtain ⟨items, rest, hcount, rfl, -, rfl, rfl⟩ := build_ok h
  have hitems : Plain items := fun handle hmem => hbuilt handle (List.mem_append_left _ hmem)
  have hrest : Plain rest := fun handle hmem => hbuilt handle (List.mem_append_right _ hmem)
  cases token with
  | byteString | boolean | integer => exact ⟨hrest.cons nofun, fun _ hholds => hholds⟩
  | container kind count =>
    cases kind with
    | array | struct =>
      exact ⟨hrest.cons nofun, fun handle ⟨container, hmem⟩ =>
        ⟨container, (Heap.mem_children_newSequence hmem).resolve_right (hitems handle)⟩⟩
    | map =>
      rw [← (inTurn_pairUp hcount).1] at hitems
      exact ⟨hrest.cons nofun, fun handle ⟨container, hmem⟩ =>
        ⟨container, (Heap.mem_children_newMap hmem).resolve_right (hitems handle)⟩⟩

theorem rebuild_plain {tokens : List ValueToken} {built built' : List StackValue}
    {heap heap' : Heap} (h : rebuild built heap tokens = .ok (built', heap'))
    (hbuilt : Plain built) :
    Plain built' ∧ ∀ handle, heap'.Holds handle → heap.Holds handle := by
  induction tokens generalizing built heap with
  | nil =>
    cases h
    exact ⟨hbuilt, fun _ hholds => hholds⟩
  | cons token tokens ih =>
    rw [rebuild] at h
    cases hbuild : build token built heap with
    | error e =>
      rw [hbuild] at h
      cases h
    | ok result =>
      rw [hbuild] at h
      obtain ⟨hplain, hheap⟩ := build_plain hbuild hbuilt
      obtain ⟨hplain', hheap'⟩ := ih h hplain
      exact ⟨hplain', fun handle hholds => hheap handle (hheap' handle hholds)⟩

end Decoder

/-- Neither a value read from bytes nor the containers made for it have handles in them. -/
theorem StackValue.decode_plain {limits : ValueLimits} {bytes : Bytes} {value : StackValue}
    {heap heap' : Heap} (h : StackValue.decode limits bytes heap = .ok (value, heap')) :
    (∀ handle, value ≠ .handle handle) ∧ ∀ handle, heap'.Holds handle → heap.Holds handle := by
  rw [decode] at h
  split at h
  next => cases h
  next tokens _ =>
    rw [Decoder.reconstruct] at h
    split at h
    next => cases h
    next value heap' hrebuild =>
      cases h
      obtain ⟨hplain, hheap⟩ := Decoder.rebuild_plain hrebuild fun handle hmem => by cases hmem
      refine ⟨fun handle heq => ?_, hheap⟩
      exact hplain handle (heq ▸ List.mem_singleton_self _)
    next => cases h

end ContractHost
