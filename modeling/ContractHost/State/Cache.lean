import ContractHost.Ledger.StateKey
import ContractHost.Ledger.StoredValue

/-!
# The cache of a snapshot

Values read from a store are kept as long as their weights fit a limit; the entry used longest ago
goes first. Written values and pruned keys are never dropped and hide what was read.
-/

namespace ContractHost

structure Cache where
  /-- The weight that the values read may have together. -/
  limit : UInt64
  weigh : StateKey → StoredValue → UInt64
  /-- The weight of the values read, as far as 64 bits hold it. -/
  weight : UInt64
  /-- The values read, the one used longest ago first. -/
  reads : List (StateKey × StoredValue)
  writes : List (StateKey × StoredValue)
  prunes : List StateKey

namespace Cache

def new (limit : UInt64) (weigh : StateKey → StoredValue → UInt64) : Cache :=
  ⟨limit, weigh, 0, [], [], []⟩

def cleared (c : Cache) : Cache := new c.limit c.weigh

def find? (pairs : List (StateKey × StoredValue)) (key : StateKey) : Option StoredValue :=
  (pairs.find? fun e => e.1 == key).map Prod.snd

def without (pairs : List (StateKey × StoredValue)) (key : StateKey) :
    List (StateKey × StoredValue) :=
  pairs.filter fun e => e.1 != key

/-- Drops entries from the front until the weight is within the limit. -/
def evict (limit : UInt64) (weigh : StateKey → StoredValue → UInt64) (weight : UInt64) :
    List (StateKey × StoredValue) → UInt64 × List (StateKey × StoredValue)
  | [] => (weight, [])
  | (key, value) :: rest =>
    if limit < weight then evict limit weigh (weight - weigh key value) rest
    else (weight, (key, value) :: rest)

def insertRead (c : Cache) (key : StateKey) (value : StoredValue) : Cache :=
  let replaced := match find? c.reads key with
    | some previous => c.weight - c.weigh key previous
    | none => c.weight
  let (weight, reads) :=
    evict c.limit c.weigh (replaced + c.weigh key value) (without c.reads key ++ [(key, value)])
  { c with weight := weight, reads := reads }

def insertWrite (c : Cache) (key : StateKey) (value : StoredValue) : Cache :=
  { c with
    prunes := c.prunes.filter (· != key)
    writes := (key, value) :: without c.writes key }

def insertPrune (c : Cache) (key : StateKey) : Cache :=
  { c with
    writes := without c.writes key
    prunes := key :: c.prunes.filter (· != key) }

def isPruned (c : Cache) (key : StateKey) : Bool := c.prunes.contains key

/-- The value held for a key. Finding it among the values read makes it the one used last. -/
def get (c : Cache) (key : StateKey) : Option StoredValue × Cache :=
  if c.isPruned key then (none, c)
  else match find? c.writes key with
    | some value => (some value, c)
    | none =>
      match find? c.reads key with
      | some value => (some value, { c with reads := without c.reads key ++ [(key, value)] })
      | none => (none, c)

end Cache

end ContractHost
