import ContractHost.Bytes

/-!
# Block-wise hashing

A hash function absorbs its message one block at a time. The two 32-bit hashes of this library
close the message with one set bit, zeros, and the bit length in eight bytes.
-/

namespace ContractHost.Hash

/-- Feeds the blocks of `size` bytes to `absorb`, first block first; a shorter rest is the last. -/
def foldBlocks {σ : Type} (size : Nat) (positive : 0 < size) (absorb : σ → Bytes → σ)
    (state : σ) (message : Bytes) : σ :=
  match message with
  | [] => state
  | byte :: rest =>
    foldBlocks size positive absorb (absorb state ((byte :: rest).take size))
      ((byte :: rest).drop size)
termination_by message.length
decreasing_by simp only [List.length_drop, List.length_cons]; omega

def wordBlock : Nat := 64

theorem wordBlock_pos : 0 < wordBlock := by decide

/-- The message, the byte `80`, and zeros up to eight bytes short of a whole 64-byte block. -/
def padTo56 (message : Bytes) : Bytes :=
  message ++ 0x80 :: List.replicate ((119 - message.length % 64) % 64) 0

def word32 (bytes : Bytes) : UInt32 :=
  bytes.foldr (fun b w => b.toUInt32 ||| (w <<< 8)) 0

def word64 (bytes : Bytes) : UInt64 :=
  bytes.foldr (fun b w => b.toUInt64 ||| (w <<< 8)) 0

def rotateLeft32 (w : UInt32) (n : UInt32) : UInt32 := (w <<< n) ||| (w >>> (32 - n))

def rotateRight32 (w : UInt32) (n : UInt32) : UInt32 := (w >>> n) ||| (w <<< (32 - n))

def rotateRight64 (w : UInt64) (n : UInt64) : UInt64 := (w >>> n) ||| (w <<< (64 - n))

def group (block : Bytes) (width i : Nat) : Bytes := (block.drop (width * i)).take width

end ContractHost.Hash
