import ContractHost.Settings.Toml
import ContractHost.Value.Format

/-!
# Settings of the host

Bounds on values and storage keys, and the nominal time between blocks. A document gives any of
them; the others keep their defaults.
-/

namespace ContractHost

structure EngineConfig where
  maxItemSize : UInt32
  maxArraySize : UInt32
  maxStorageKeySize : UInt32
  secondsPerBlock : UInt64
deriving DecidableEq

namespace EngineConfig

def default : EngineConfig := ⟨1024 * 1024, 1024, 1024, 15⟩

instance : Inhabited EngineConfig := ⟨default⟩

def limits (c : EngineConfig) : ValueLimits := ⟨c.maxItemSize.toUInt64, c.maxArraySize.toUInt64⟩

def word? : Toml.Value → Option UInt32
  | .integer n => if 0 ≤ n ∧ n < UInt32.size then some (UInt32.ofNat n.toNat) else none
  | _ => none

def longWord? : Toml.Value → Option UInt64
  | .integer n => if 0 ≤ n ∧ n < UInt64.size then some (UInt64.ofNat n.toNat) else none
  | _ => none

/-- Takes over one pair of a document, if it is a setting of the host. -/
def adopt (c : EngineConfig) : String × Toml.Value → Option EngineConfig
  | ("max_item_size", v) => (word? v).map fun n => { c with maxItemSize := n }
  | ("max_array_size", v) => (word? v).map fun n => { c with maxArraySize := n }
  | ("max_storage_key_size", v) => (word? v).map fun n => { c with maxStorageKeySize := n }
  | ("seconds_per_block", v) => (longWord? v).map fun n => { c with secondsPerBlock := n }
  | _ => none

def ofToml? (text : String) : Option EngineConfig := do
  let document ← Toml.parse? text
  document.foldlM adopt default

def toToml (c : EngineConfig) : String :=
  s!"max_item_size = {c.maxItemSize.toNat}\n" ++
  s!"max_array_size = {c.maxArraySize.toNat}\n" ++
  s!"max_storage_key_size = {c.maxStorageKeySize.toNat}\n" ++
  s!"seconds_per_block = {c.secondsPerBlock.toNat}\n"

def display (c : EngineConfig) : String :=
  "EngineConfig \x7b max_item_size: " ++ toString c.maxItemSize.toNat ++
  ", max_array_size: " ++ toString c.maxArraySize.toNat ++
  ", max_storage_key_size: " ++ toString c.maxStorageKeySize.toNat ++
  ", seconds_per_block: " ++ toString c.secondsPerBlock.toNat ++ " \x7d"

end EngineConfig

end ContractHost
