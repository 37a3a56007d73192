import Mathlib.Logic.Relation
import ContractHost.Value.Encoder

/-!
# What is inside a value

Containers may be shared and may contain themselves, so the values inside a value form a graph and
not a tree. A heap has finitely many containers with something in them, which bounds how deep one
can descend without meeting a container again.
-/

namespace ContractHost

namespace Heap

def Child (heap : Heap) (outer inner : StackValue) : Prop := inner ∈ heap.children outer

/-- A value is another one or somewhere inside it. -/
def Reaches (heap : Heap) : StackValue → StackValue → Prop := Relation.ReflTransGen heap.Child

/-- A value is somewhere inside another. -/
def Inside (heap : Heap) : StackValue → StackValue → Prop := Relation.TransGen heap.Child

/-- A container is its own descendant. -/
def ContainsItself (heap : Heap) (value : StackValue) : Prop :=
  ∃ inner, heap.Inside value inner ∧ value.container?.isSome ∧ inner.container? = value.container?

def containers (heap : Heap) : List ContainerId :=
  (List.range heap.sequences.size).map .sequence ++ (List.range heap.maps.size).map .map

/-- How many containers can still be entered below those that enclose a place. -/
def room (heap : Heap) (enclosing : List ContainerId) : Nat :=
  (heap.containers.filter (· ∉ enclosing)).length

theorem reaches_self (heap : Heap) (value : StackValue) : heap.Reaches value value :=
  Relation.ReflTransGen.refl

theorem Child.reaches {heap : Heap} {outer child inner : StackValue} (hc : heap.Child outer child)
    (hr : heap.Reaches child inner) : heap.Reaches outer inner :=
  Relation.ReflTransGen.head hc hr

theorem Child.inside {heap : Heap} {outer child inner : StackValue} (hc : heap.Child outer child)
    (hr : heap.Reaches child inner) : heap.Inside outer inner :=
  Relation.TransGen.head' hc hr

theorem Inside.exists_child {heap : Heap} {outer inner : StackValue} (h : heap.Inside outer inner) :
    ∃ child, heap.Child outer child ∧ heap.Reaches child inner :=
  Relation.TransGen.head'_iff.mp h

theorem Reaches.cases {heap : Heap} {outer inner : StackValue} (h : heap.Reaches outer inner) :
    inner = outer ∨ ∃ child, heap.Child outer child ∧ heap.Reaches child inner :=
  (Relation.ReflTransGen.cases_head h).imp Eq.symm id

theorem Child.mem_containers {heap : Heap} {outer inner : StackValue} (h : heap.Child outer inner) :
    ∃ id, outer.container? = some id ∧ id ∈ heap.containers := by
  cases outer with
  | array ref | struct ref =>
    refine ⟨.sequence ref, rfl, ?_⟩
    by_cases hr : ref < heap.sequences.size
    · simp [containers, hr]
    · simp [Child, children, items, hr] at h
  | map ref =>
    refine ⟨.map ref, rfl, ?_⟩
    by_cases hr : ref < heap.maps.size
    · simp [containers, hr]
    · simp [Child, children, pairs, StackMap.empty, hr] at h
  | byteString | boolean | integer | handle => simp [Child, children] at h

theorem children_eq_of_container {heap : Heap} {a b : StackValue}
    (ha : a.container?.isSome) (h : a.container? = b.container?) :
    heap.children a = heap.children b := by
  cases a <;> cases b <;> simp_all [StackValue.container?, children]

theorem room_cons_lt {heap : Heap} {enclosing : List ContainerId} {id : ContainerId}
    (hid : id ∈ heap.containers) (hout : id ∉ enclosing) :
    heap.room (id :: enclosing) < heap.room enclosing := by
  have hsub : heap.containers.filter (· ∉ id :: enclosing) =
      (heap.containers.filter (· ∉ enclosing)).filter (· ≠ id) := by
    rw [List.filter_filter]
    apply List.filter_congr
    intro i _
    simp [not_or]
  unfold room
  rw [hsub]
  apply List.length_filter_lt_length_iff_exists.mpr
  exact ⟨id, by simp [hid, hout], by simp⟩

theorem room_nil (heap : Heap) : heap.room [] = heap.sequences.size + heap.maps.size := by
  have hall : heap.containers.filter (· ∉ ([] : List ContainerId)) = heap.containers :=
    List.filter_eq_self.mpr (by simp)
  rw [room, hall]
  simp [containers]

end Heap

end ContractHost
