import RecencyCache.Pool
import RecencyCache.Time.Instant
/-!
# Nodes

A node stores one entry of a cache together with what the cache keeps about it: when the entry was
last pushed, the hash of its key, and its neighbours on two strands. The recency strand runs through
all nodes, from the most to the least recently pushed one; the chain strand runs through the nodes
that share a hash chain. Neighbours are slot numbers of the pool that holds the nodes.
-/
namespace RecencyCache

/-- A key with its value. A set stores keys alone: its values are of type `Unit`. -/
@[ext] structure Entry (κ ν : Type) where
  key : κ
  value : ν
  deriving DecidableEq, Repr

/-- The two kinds of list that every node lies on. -/
inductive Strand where
  | recency
  | chain
  deriving DecidableEq, Repr

/-- The neighbours of a node on one strand. -/
@[ext] structure Link where
  prev : Option SlotId := none
  next : Option SlotId := none
  deriving DecidableEq, Repr

/-- An entry and what the cache keeps about it. -/
@[ext] structure Node (κ ν : Type) where
  entry : Entry κ ν
  /-- When the entry was last pushed. -/
  stamp : Instant
  /-- The hash of the entry's key. -/
  hash : UInt64
  recency : Link := {}
  chain : Link := {}
  deriving Repr

namespace Node

variable {κ ν : Type}

/-- The node's neighbours on a strand. -/
def link (n : Node κ ν) : Strand → Link
  | .recency => n.recency
  | .chain => n.chain

/-- The node with changed neighbours on a strand. -/
def mapLink (n : Node κ ν) (s : Strand) (f : Link → Link) : Node κ ν :=
  match s with
  | .recency => { n with recency := f n.recency }
  | .chain => { n with chain := f n.chain }

section Fields

variable (n : Node κ ν) (s : Strand) (f : Link → Link)

@[simp] theorem link_mapLink : (n.mapLink s f).link s = f (n.link s) := by
  cases s <;> rfl

theorem link_mapLink_of_ne {t : Strand} (h : t ≠ s) : (n.mapLink s f).link t = n.link t := by
  cases s <;> cases t <;> simp_all [link, mapLink]

@[simp] theorem entry_mapLink : (n.mapLink s f).entry = n.entry := by
  cases s <;> rfl

@[simp] theorem stamp_mapLink : (n.mapLink s f).stamp = n.stamp := by
  cases s <;> rfl

@[simp] theorem hash_mapLink : (n.mapLink s f).hash = n.hash := by
  cases s <;> rfl

end Fields

end Node
end RecencyCache
