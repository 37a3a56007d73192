import Std.Data.HashSet
import ContractHost.Value.Format

/-!
# Writing stack values

Values are written in pre-order from a list of pending work, so nesting needs no stack of calls.
The identities of the containers being written form the path from the root; meeting one of them
again is a cycle, while a container met twice on different paths is written twice. The size is
checked after each item.
-/

namespace ContractHost

/-- Pending work: a value still to be written, or a container whose contents end here. -/
inductive EncodeTask
  | enter (value : StackValue)
  | leave (container : ContainerId)

/-- What a value adds to the output before its children, and the children. -/
structure EncodedItem where
  tag : ValueTag
  body : Bytes
  children : List StackValue

def EncodedItem.appendTo (entry : EncodedItem) (output : Array UInt8) : Array UInt8 :=
  output.push entry.tag.byte ++ entry.body.toArray

theorem EncodedItem.size_appendTo (entry : EncodedItem) (output : Array UInt8) :
    (entry.appendTo output).size = output.size + 1 + entry.body.length := by
  simp only [appendTo, Array.size_append, Array.size_push, List.size_toArray]

namespace Encoder

/-- A value without its children; handles have no form. -/
def item (heap : Heap) : StackValue → Except EncodeError EncodedItem
  | .byteString bytes => .ok ⟨.byteString, VarBytes.write bytes, []⟩
  | .boolean flag => .ok ⟨.boolean, [if flag then 1 else 0], []⟩
  | .integer value => .ok ⟨.integer, VarBytes.write (TwosComplement.write value), []⟩
  | .handle _ => .error .unsupportedType
  | .array ref =>
    let items := heap.items ref
    .ok ⟨.array, VarInt.write items.length, items⟩
  | .struct ref =>
    let items := heap.items ref
    .ok ⟨.struct, VarInt.write items.length, items⟩
  | .map ref =>
    let pairs := heap.pairs ref
    .ok ⟨.map, VarInt.write pairs.size, pairs.entries.flatMap fun e => [e.1, e.2]⟩

/-- The path inside a value, with the work that takes it off again; a container on the path
already is a cycle. -/
def descend (path : Std.HashSet ContainerId) (value : StackValue) :
    Except EncodeError (Std.HashSet ContainerId × List EncodeTask) :=
  match value.container? with
  | none => .ok (path, [])
  | some id =>
    if path.contains id then .error .cyclicStructure else .ok (path.insert id, [.leave id])

/-- Works off the pending tasks. Every value adds a byte at least, so the size limit bounds the
number of values entered. -/
def run (heap : Heap) (maxSize : Nat) (tasks : List EncodeTask)
    (path : Std.HashSet ContainerId) (output : Array UInt8) : Except EncodeError (Array UInt8) :=
  match tasks with
  | [] => .ok output
  | .leave id :: rest => run heap maxSize rest (path.erase id) output
  | .enter value :: rest =>
    match descend path value with
    | .error e => .error e
    | .ok (path, after) =>
      match item heap value with
      | .error e => .error e
      | .ok entry =>
        if maxSize < (entry.appendTo output).size then
          .error (.itemTooLarge (entry.appendTo output).size maxSize)
        else
          run heap maxSize (entry.children.map .enter ++ (after ++ rest)) path
            (entry.appendTo output)
termination_by (maxSize + 1 - output.size, tasks.length)
decreasing_by
  · apply Prod.Lex.right
    simp
  · apply Prod.Lex.left
    have := entry.size_appendTo output
    omega

end Encoder

/-- The binary form of a value, if it has no cycle and no handle and fits the limit. -/
def StackValue.encode (heap : Heap) (limits : ValueLimits) (value : StackValue) :
    Except EncodeError Bytes :=
  (Encoder.run heap limits.maxItemSize.toNat [.enter value] ∅ #[]).map Array.toList

end ContractHost
