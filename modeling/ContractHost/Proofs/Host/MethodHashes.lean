import Mathlib.Data.List.Nodup
import ContractHost.Host.Function

/-!
# Finding functions by name and by method hash

No two functions have the same name or the same method hash, so both find the function they belong
to. The names are short enough to be hashed in one block, with the schedule of its words as a list,
newest word first.
-/

namespace ContractHost

namespace Hash

theorem foldBlocks_one {σ : Type} {size : Nat} (positive : 0 < size) (absorb : σ → Bytes → σ)
    (state : σ) {message : Bytes} (h : message.length = size) :
    foldBlocks size positive absorb state message = absorb state message := by
  cases message with
  | nil => exact absurd h (Nat.ne_of_lt positive)
  | cons byte rest =>
    have hle := Nat.le_of_eq h
    rw [foldBlocks, List.take_of_length_le hle, List.drop_of_length_le hle, foldBlocks]

namespace Sha256

/-- Extends a list of words, newest first, each new word mixed from four earlier ones. -/
def stretchList (words : List UInt32) : Nat → List UInt32
  | 0 => words
  | n + 1 =>
    let x := words.getD 14 0
    let y := words.getD 1 0
    let s0 := rotateRight32 x 7 ^^^ rotateRight32 x 18 ^^^ (x >>> 3)
    let s1 := rotateRight32 y 17 ^^^ rotateRight32 y 19 ^^^ (y >>> 10)
    stretchList ((words.getD 15 0 + s0 + words.getD 6 0 + s1) :: words) n

def compressList (s : State) (block : Bytes) : State :=
  let words := (List.range 16).map fun i => word32 (group block 4 i).reverse
  let schedule := (stretchList words.reverse 48).reverse
  let t := (roundConstants.toList.zip schedule).foldl (fun s kw => round s kw.1 kw.2) s
  ⟨s.a + t.a, s.b + t.b, s.c + t.c, s.d + t.d, s.e + t.e, s.f + t.f, s.g + t.g, s.h + t.h⟩

def pad (message : Bytes) : Bytes :=
  padTo56 message ++ (littleEndian 8 (8 * message.length)).reverse

private theorem getD_size_sub (w : Array UInt32) {k : Nat} (hk : k < w.size) :
    w.getD (w.size - (k + 1)) 0 = w.toList.reverse.getD k 0 := by
  have hindex : w.size - (k + 1) = w.toList.length - 1 - k := by
    rw [Array.length_toList]
    omega
  rw [Array.getD_eq_getD_getElem?, List.getD_eq_getElem?_getD, ← Array.getElem?_toList, hindex,
    List.getElem?_reverse (by rwa [Array.length_toList])]

theorem toList_stretch {w : Array UInt32} (hw : 16 ≤ w.size) (n : Nat) :
    (stretch w n).toList = (stretchList w.toList.reverse n).reverse := by
  induction n generalizing w with
  | zero => exact (List.reverse_reverse _).symm
  | succ n ih =>
    have hsize {word : UInt32} : 16 ≤ (w.push word).size := by
      rw [Array.size_push]
      exact Nat.le_succ_of_le hw
    rw [stretch, ih hsize, Array.toList_push, List.reverse_append, stretchList,
      ← getD_size_sub w (by omega : 14 < w.size), ← getD_size_sub w (by omega : 1 < w.size),
      ← getD_size_sub w (by omega : 15 < w.size), ← getD_size_sub w (by omega : 6 < w.size)]
    rfl

theorem compress_eq_compressList (s : State) (block : Bytes) :
    compress s block = compressList s block := by
  let words := (Array.range 16).map fun i => word32 (group block 4 i).reverse
  have hwords : words.toList = (List.range 16).map fun i => word32 (group block 4 i).reverse := by
    simp [words]
  have hsize : 16 ≤ words.size := by simp [words]
  rw [compress, compressList, ← hwords, ← toList_stretch hsize, ← Array.toList_zip,
    Array.foldl_toList]

theorem hash_of_one_block {message : Bytes} (h : (pad message).length = wordBlock) :
    hash message = finish (compressList start (pad message)) := by
  rw [← compress_eq_compressList]
  exact congrArg finish (foldBlocks_one wordBlock_pos compress start h)

end Sha256

end Hash

namespace HostFunction

open Hash.Sha256

def shortHash (name : String) : UInt32 :=
  UInt32.ofNat (ofLittleEndian
    ((finish (compressList start (pad (Text.utf8 name)))).bytes.take 4))

def methodHashes : List UInt32 := [
  4143741362, 2688056809, 2364286968, 1634664853, 2521294799, 59294647, 3367732206, 3218599391,
  527627646, 4133176436, 764561283, 1217222118, 2978493002, 1095484841, 1484336862, 2704869048,
  275955450, 1690479381, 627757844, 1873795520, 125905718, 657497786, 4028473286, 203567461,
  3462919835, 3798709494, 837311890, 2216181734, 3989133359, 332315930]

theorem mem_all (f : HostFunction) : f ∈ all := by
  cases f <;> decide

theorem methodHash_eq_shortHash (f : HostFunction) : f.methodHash = shortHash f.name := by
  have hlength : ∀ f ∈ all, (pad (Text.utf8 f.name)).length = Hash.wordBlock := by
    decide +kernel
  rw [methodHash, hashOfName, hash_of_one_block (hlength f f.mem_all), shortHash]

theorem map_methodHash_all : all.map methodHash = methodHashes := by
  have hshort : all.map methodHash = all.map (shortHash ∘ name) :=
    List.map_congr_left fun f _ => f.methodHash_eq_shortHash
  -- Nothing is left here that recurses otherwise than on lists and numbers.
  rw [hshort]
  decide +kernel

private theorem find?_key {κ : Type} [DecidableEq κ] {key : HostFunction → κ}
    (h : (all.map key).Nodup) (f : HostFunction) :
    (all.find? fun g => key g == key f) = some f := by
  cases hfound : all.find? fun g => key g == key f with
  | none => exact absurd (beq_self_eq_true (key f)) (List.find?_eq_none.mp hfound f f.mem_all)
  | some g =>
    have hkey := List.find?_some hfound
    rw [List.inj_on_of_nodup_map h g.mem_all f.mem_all (eq_of_beq hkey)]

theorem ofName?_name (f : HostFunction) : ofName? f.name = some f :=
  find?_key (by decide +kernel) f

theorem ofMethodHash?_methodHash (f : HostFunction) : ofMethodHash? f.methodHash = some f := by
  refine find?_key ?_ f
  rw [map_methodHash_all]
  decide

end HostFunction

end ContractHost
