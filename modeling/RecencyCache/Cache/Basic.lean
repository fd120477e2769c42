import RecencyCache.Chains
import RecencyCache.Policy
import RecencyCache.Recency
import RecencyCache.Settings
import RecencyCache.Tally
import RecencyCache.Time.HandClock
/-!
# The cache

A cache keeps its entries in the nodes of one pool. The same nodes lie on the hash chains, which
find an entry by its key, and in the order of recency, which says what to evict. The policy says
when an entry has to leave; the clock stamps every push.
-/
namespace RecencyCache

/-- A bounded container of entries with distinct keys, ordered by their last push. -/
structure Cache (κ ν : Type) where
  nodes : Pool (Node κ ν) := {}
  chains : Chains
  order : Recency := {}
  /-- The number of entries that the policy compares with. -/
  capacity : Nat
  policy : Policy
  clock : HandClock
  /-- The hash of a key. Keys that count as equal have to have equal hashes. -/
  hash : κ → UInt64
  /-- The events so far. -/
  tally : Tally := {}

namespace Cache

variable {κ ν : Type}

/-- The answer of an operation that can be refused, and the cache after it. -/
abbrev Outcome (κ ν α : Type) := Except Refusal α × Cache κ ν

/-! ## Construction -/

/-- A cache without entries, and with at least one hash chain. -/
def empty (capacity chainCount : Nat) (policy : Policy) (hash : κ → UInt64)
    (clock : HandClock := .initial) : Cache κ ν :=
  { chains := .empty chainCount, capacity, policy, clock, hash }

/-- Limits the number of nodes. Nodes already in use stay. -/
def limitNodes (c : Cache κ ν) (limit : Nat) : Cache κ ν :=
  { c with nodes := c.nodes.setLimit (some limit) }

/-- A cache without entries that has the counts of the settings, if these have no flaw. -/
def ofSettings (s : Settings) (policy : Policy) (hash : κ → UInt64) (clock : HandClock) :
    Except Refusal (Cache κ ν) := do
  s.check
  let c := empty s.capacity.toNat s.chainCount.toNat policy hash clock
  pure (match s.nodeLimit with
    | some limit => c.limitNodes limit.toNat
    | none => c)

/-- A cache from settings that evicts by size only. -/
def sizedOfSettings (s : Settings) (hash : κ → UInt64) : Except Refusal (Cache κ ν) :=
  ofSettings s .bySize hash .initial

/-- A cache from settings that evicts by size and age. -/
def timedOfSettings (s : Settings) (hash : κ → UInt64) (clock : HandClock) :
    Except Refusal (Cache κ ν) :=
  ofSettings s (.bySizeAndAge s.window) hash clock

/-! ## Counts -/

/-- The number of entries. -/
def size (c : Cache κ ν) : Nat := c.order.size

/-- Whether there are no entries. -/
def isEmpty (c : Cache κ ν) : Bool := c.size == 0

/-- The number of hash chains. -/
def chainCount (c : Cache κ ν) : Nat := c.chains.count

/-- The length of the longest hash chain. -/
def longestChain (c : Cache κ ν) : Except Fault Nat := c.chains.longest c.nodes

/-- The events so far and the number of entries now. -/
def summary (c : Cache κ ν) : Tally := { c.tally with entries := c.size }

/-- Counts one event. -/
def count (c : Cache κ ν) (e : Event) : Cache κ ν := { c with tally := c.tally.count e }

/-! ## The policy's verdict -/

/-- When the oldest entry was last pushed. -/
def oldestStamp? (c : Cache κ ν) : Except Fault (Option Instant) :=
  c.order.tail.mapM fun i => Node.stamp <$> c.nodes.get i

/-- Whether the oldest entry would have to leave a cache of `size` entries. -/
def wouldEvict (c : Cache κ ν) (size : Nat) : Except Fault Bool := do
  let oldest ← c.oldestStamp?
  pure (c.policy.evicts c.clock.now size c.capacity oldest)

/-! ## Putting nodes in and taking them out -/

/-- Puts a node on the chain of its hash and at the front of the order. -/
def link (c : Cache κ ν) (i : SlotId) : Except Fault (Cache κ ν) := do
  let (chains, nodes) ← c.chains.prepend c.nodes i
  let (order, nodes) ← c.order.prepend nodes i
  pure { c with nodes, chains, order }

/-- Takes a node out of its chain and out of the order. It keeps its slot. -/
def unlink (c : Cache κ ν) (i : SlotId) : Except Fault (Cache κ ν) := do
  let (chains, nodes) ← c.chains.remove c.nodes i
  let (order, nodes) ← c.order.remove nodes i
  pure { c with nodes, chains, order }

/-- Takes a node out of the cache, frees its slot and answers the entry that it held. -/
def discard (c : Cache κ ν) (i : SlotId) : Except Fault (Option (Entry κ ν) × Cache κ ν) := do
  let c ← c.unlink i
  let (node, nodes) ← c.nodes.release i
  pure (node.map Node.entry, { c with nodes })

end Cache
end RecencyCache
