import ContractHost.Ledger.Hashes
import ContractHost.Wire.VarInt

/-!
# Blocks and transactions

Transactions and headers are named by the digest of their wire form; a block has the name of its
header.
-/

namespace ContractHost

/-- A script to run and the accounts that signed for it. -/
structure Transaction where
  version : UInt32
  nonce : UInt64
  script : Bytes
  signers : List ScriptHash
deriving DecidableEq, Inhabited

/-- A transaction and the height of the block that includes it. -/
structure TransactionState where
  blockIndex : UInt32
  transaction : Transaction
deriving DecidableEq, Inhabited

structure Header where
  version : UInt32
  prevHash : BlockHash
  merkleRoot : Digest
  timestamp : UInt64
  index : UInt32
  nextConsensus : ScriptHash
deriving DecidableEq, Inhabited

structure Block where
  header : Header
  transactions : List Transaction
deriving DecidableEq, Inhabited

/-- Height and name of the block persisted last. -/
structure ChainTip where
  height : UInt32
  hash : BlockHash
deriving DecidableEq, Inhabited

namespace Transaction

def size (t : Transaction) : Nat :=
  4 + 8 + VarBytes.size t.script + VarInt.size t.signers.length +
    (t.signers.map WireWrite.size).foldr (· + ·) 0

/-- Version, nonce, framed script, and the counted signers. -/
def encode (t : Transaction) : Bytes :=
  WireWrite.encode t.version ++ WireWrite.encode t.nonce ++ VarBytes.write t.script ++
    VarInt.write t.signers.length ++ t.signers.flatMap WireWrite.encode

instance : WireWrite Transaction where
  size := size
  encode := encode
  toBytes := Wire.intoBuffer size encode

/-- The digest of the wire form; a transaction too large for one has the digest of nothing. -/
def hash (t : Transaction) : TransactionHash :=
  ⟨Digest.hash ((Wire.serialize t).toOption.getD [])⟩

end Transaction

namespace Header

def size (h : Header) : Nat :=
  4 + WireWrite.size h.prevHash + WireWrite.size h.merkleRoot + 8 + 4 +
    WireWrite.size h.nextConsensus

def encode (h : Header) : Bytes :=
  WireWrite.encode h.version ++ WireWrite.encode h.prevHash ++ WireWrite.encode h.merkleRoot ++
    WireWrite.encode h.timestamp ++ WireWrite.encode h.index ++ WireWrite.encode h.nextConsensus

instance : WireWrite Header where
  size := size
  encode := encode
  toBytes := Wire.intoBuffer size encode

def hash (h : Header) : BlockHash :=
  ⟨Digest.hash ((Wire.serialize h).toOption.getD [])⟩

/-- The first block of a chain has no parent to name. -/
def isGenesis (h : Header) : Bool := h.prevHash.digest.isZero

end Header

def Block.hash (b : Block) : BlockHash := b.header.hash

end ContractHost
