import ContractHost.Value.StackMap

/-!
# Containers

The elements of arrays and structs and the pairs of maps live in a heap, and values refer to them
by their position in it. Structural equality follows the references; a container is equal to
itself without a look inside.
-/

namespace ContractHost

structure Heap where
  sequences : Array (List StackValue)
  maps : Array StackMap
  handleCount : Nat

namespace Heap

def empty : Heap := ⟨#[], #[], 0⟩

instance : Inhabited Heap := ⟨empty⟩

/-- The elements of a container. A reference to nothing has none. -/
def items (heap : Heap) (ref : SequenceRef) : List StackValue := heap.sequences.getD ref []

def pairs (heap : Heap) (ref : MapRef) : StackMap := heap.maps.getD ref .empty

def newSequence (heap : Heap) (items : List StackValue) : SequenceRef × Heap :=
  (heap.sequences.size, { heap with sequences := heap.sequences.push items })

def newArray (heap : Heap) (items : List StackValue) : StackValue × Heap :=
  let (ref, heap) := heap.newSequence items
  (.array ref, heap)

def newStruct (heap : Heap) (items : List StackValue) : StackValue × Heap :=
  let (ref, heap) := heap.newSequence items
  (.struct ref, heap)

def newMap (heap : Heap) (pairs : StackMap) : StackValue × Heap :=
  (.map heap.maps.size, { heap with maps := heap.maps.push pairs })

/-- A handle that no other handle is the same as. -/
def newHandle (heap : Heap) (object : HostObject) : StackValue × Heap :=
  (.handle ⟨heap.handleCount, object⟩, { heap with handleCount := heap.handleCount + 1 })

def setItems (heap : Heap) (ref : SequenceRef) (items : List StackValue) : Heap :=
  { heap with sequences := heap.sequences.setIfInBounds ref items }

def setPairs (heap : Heap) (ref : MapRef) (pairs : StackMap) : Heap :=
  { heap with maps := heap.maps.setIfInBounds ref pairs }

/-- The values directly inside a container, a map's keys before their values. -/
def children (heap : Heap) : StackValue → List StackValue
  | .array ref | .struct ref => heap.items ref
  | .map ref => (heap.pairs ref).entries.flatMap fun e => [e.1, e.2]
  | _ => []

/-- Structural equality down to `depth` containers below one another. -/
def equalWithin (heap : Heap) : Nat → StackValue → StackValue → Bool
  | 0, _, _ => false
  | depth + 1, left, right =>
    match left, right with
    | .array a, .array b | .struct a, .struct b =>
      a == b || equalLists depth (heap.items a) (heap.items b)
    | .map a, .map b =>
      a == b || equalLists depth (heap.children left) (heap.children right)
    | _, _ => left.keyEq right
where
  equalLists (depth : Nat) (left right : List StackValue) : Bool :=
    left.length == right.length &&
      (left.zip right).all fun (a, b) => equalWithin heap depth a b

/-- Structural equality. Values without cycles nest no deeper than there are containers, so the
bound never decides for them. -/
def equal (heap : Heap) (left right : StackValue) : Bool :=
  heap.equalWithin (heap.sequences.size + heap.maps.size + 1) left right

end Heap

end ContractHost
