import RecencyCache.Strand
/-!
# Hash chains

A fixed number of chains, each of them a list of nodes. A node lies on the chain that the hash of
its key selects, so a lookup follows one chain only. The number of chains is at least one and never
changes.
-/
namespace RecencyCache

/-- The first node of each chain. -/
structure Chains where
  heads : Array (Option SlotId)
  heads_pos : 0 < heads.size
  deriving DecidableEq, Repr

namespace Chains

variable {κ ν : Type}

/-- As many empty chains as asked for, but at least one. -/
def empty (count : Nat) : Chains :=
  ⟨Array.replicate (max count 1) none, by rw [Array.size_replicate]; omega⟩

/-- The number of chains. -/
def count (c : Chains) : Nat := c.heads.size

/-- The chain that a hash selects. -/
def select (c : Chains) (hash : UInt64) : Fin c.heads.size :=
  ⟨hash.toNat % c.heads.size, Nat.mod_lt _ c.heads_pos⟩

/-- The first node of chain `s`, if there is such a chain and it is not empty. -/
def head? (c : Chains) (s : Nat) : Option SlotId :=
  c.heads[s]?.join

/-- Gives a chain another first node. -/
def setHead (c : Chains) (s : Fin c.heads.size) (head : Option SlotId) : Chains :=
  ⟨c.heads.set s head, by simpa using c.heads_pos⟩

/-- Puts a node in front of the chain of its hash. -/
def prepend (c : Chains) (nodes : Strand.Nodes κ ν) (i : SlotId) :
    Except Fault (Chains × Strand.Nodes κ ν) := do
  let s := c.select (← nodes.get i).hash
  let nodes ← Strand.chain.attach nodes i c.heads[s]
  pure (c.setHead s (some i), nodes)

/-- Takes a node out of its chain. -/
def remove (c : Chains) (nodes : Strand.Nodes κ ν) (i : SlotId) :
    Except Fault (Chains × Strand.Nodes κ ν) := do
  let s := c.select (← nodes.get i).hash
  let (link, nodes) ← Strand.chain.detach nodes i
  pure (if link.prev.isNone then c.setHead s link.next else c, nodes)

/-- The first node from `start` on, among at most `n`, that has the hash and an accepted entry. A
longer list without such a node is a fault. -/
def findFrom (nodes : Strand.Nodes κ ν) (hash : UInt64) (accepts : Entry κ ν → Bool) :
    Nat → Option SlotId → Except Fault (Option SlotId)
  | _, none => pure none
  | 0, some _ => throw .endless
  | n + 1, some i => do
    let node ← nodes.get i
    if node.hash == hash && accepts node.entry then
      pure (some i)
    else
      findFrom nodes hash accepts n node.chain.next

/-- The first node on the chain of `hash` that has this hash and an accepted entry. -/
def find (c : Chains) (nodes : Strand.Nodes κ ν) (hash : UInt64) (accepts : Entry κ ν → Bool) :
    Except Fault (Option SlotId) :=
  findFrom nodes hash accepts nodes.live c.heads[c.select hash]

/-- The nodes of chain `s`, first to last. -/
def chain (c : Chains) (nodes : Strand.Nodes κ ν) (s : Nat) : Except Fault (List SlotId) :=
  Strand.chain.walk nodes (c.head? s)

/-- The lengths of all chains. -/
def lengths (c : Chains) (nodes : Strand.Nodes κ ν) : Except Fault (List Nat) :=
  (List.range c.count).mapM fun s => List.length <$> c.chain nodes s

/-- The length of the longest chain. -/
def longest (c : Chains) (nodes : Strand.Nodes κ ν) : Except Fault Nat :=
  (·.foldl max 0) <$> c.lengths nodes

/-- As many chains, all empty. -/
def clear (c : Chains) : Chains := empty c.count

end Chains
end RecencyCache
