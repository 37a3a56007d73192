import ContractHost.Value.Basic

/-!
# Maps of the evaluation stack

The pairs of a map are kept in the order in which their keys became present. No two keys are equal
in the sense of `StackValue.keyEq`.
-/

namespace ContractHost

structure StackMap where
  entries : List (StackValue × StackValue)
deriving DecidableEq, Inhabited

namespace StackMap

def empty : StackMap := ⟨[]⟩

def size (m : StackMap) : Nat := m.entries.length

def isEmpty (m : StackMap) : Bool := m.entries.isEmpty

def get? (m : StackMap) (key : StackValue) : Option StackValue :=
  (m.entries.find? fun e => e.1.keyEq key).map Prod.snd

def contains (m : StackMap) (key : StackValue) : Bool := (m.get? key).isSome

def replaceFirst (key value : StackValue) :
    List (StackValue × StackValue) → List (StackValue × StackValue)
  | [] => []
  | e :: rest => if e.1.keyEq key then (e.1, value) :: rest else e :: replaceFirst key value rest

/-- Stores a value and hands back the one it replaces. A present key keeps its place and stays the
key it was; a new one goes last. -/
def insert (m : StackMap) (key value : StackValue) : Option StackValue × StackMap :=
  match m.get? key with
  | some previous => (some previous, ⟨replaceFirst key value m.entries⟩)
  | none => (none, ⟨m.entries ++ [(key, value)]⟩)

/-- Takes a key out and hands back its value. -/
def remove (m : StackMap) (key : StackValue) : Option StackValue × StackMap :=
  match m.get? key with
  | some value => (some value, ⟨m.entries.eraseP fun e => e.1.keyEq key⟩)
  | none => (none, m)

end StackMap

end ContractHost
