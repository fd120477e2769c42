import RecencyCache.Cache.Basic
/-!
# Auditing a cache

An audit checks that the order of recency and the hash chains describe the same nodes: the links of
the order are inverse to each other and reach every node once, and each node lies once on the chain
of its key, where no other node has an equal key. The audit reports the first disagreement.
-/
namespace RecencyCache

/-- A disagreement between the parts of a cache. -/
inductive Violation where
  /-- The pool and the order count differently. -/
  | liveCount (live size : Nat)
  /-- The order leads to a slot that holds no node. -/
  | deadNode (slot : SlotId)
  /-- A node's backward link does not lead to the node before it. -/
  | backLink (slot : SlotId)
  /-- The order leads to more nodes than it counts. -/
  | cycle
  /-- The order leads to fewer nodes than it counts, or ends at another node than its tail. -/
  | walkedCount (walked size : Nat)
  /-- A node's key has another hash than the stored one, or belongs on another chain. -/
  | wrongChain (slot : SlotId)
  /-- Two nodes of a chain have equal keys. -/
  | duplicateKey (chain : Nat)
  /-- The chains hold another number of nodes than the order. -/
  | chainedCount (chained size : Nat)
  deriving DecidableEq, Repr

namespace Violation

/-- The disagreement in words. -/
def reason : Violation → String
  | liveCount live size => s!"arena holds {live} nodes, list reports {size}"
  | deadNode slot => s!"list links dead node {slot}"
  | backLink slot => s!"broken back link at node {slot}"
  | cycle => "recency list has a cycle"
  | walkedCount walked size => s!"walked {walked} list nodes, expected {size}"
  | wrongChain slot => s!"node {slot} sits in the wrong chain"
  | duplicateKey chain => s!"duplicate key in chain {chain}"
  | chainedCount chained size => s!"bucket chains hold {chained} nodes, list holds {size}"

/-- The disagreement as a refusal. -/
def refusal (v : Violation) : Refusal := .disagreement v.reason

end Violation

namespace Cache

variable {κ ν : Type}

/-- A part of an audit, and what it found out. -/
abbrev Audit (α : Type) := ExceptT Violation (Except Fault) α

/-- Follows the order from `cursor`, where `prev` was visited last and `n` nodes are expected.
Answers the number of expected nodes that were missing, and the last node. -/
def auditOrder (c : Cache κ ν) :
    Nat → Option SlotId → Option SlotId → Audit (Nat × Option SlotId)
  | n, prev, none => pure (n, prev)
  | n, prev, some i => do
    match c.nodes.get? i with
    | none => throw (.deadNode i)
    | some node =>
      if node.recency.prev ≠ prev then
        throw (.backLink i)
      else
        match n with
        | 0 => throw .cycle
        | n + 1 => c.auditOrder n (some i) node.recency.next

variable [BEq κ]

/-- Checks nodes of chain `s`, before which nodes with the keys `seen` were found on it. -/
def auditNodes (c : Cache κ ν) (s : Nat) (seen : List κ) : List SlotId → Audit Unit
  | [] => pure ()
  | i :: rest => do
    let node ← c.nodes.get i
    if c.hash node.entry.key ≠ node.hash ∨ (c.chains.select node.hash).val ≠ s then
      throw (.wrongChain i)
    else if seen.any (· == node.entry.key) then
      throw (.duplicateKey s)
    else
      c.auditNodes s (seen ++ [node.entry.key]) rest

/-- Checks chain `s` and answers its length. A chain is followed to at most one node more than the
cache has. -/
def auditChain (c : Cache κ ν) (s : Nat) : Audit Nat := do
  let slots ← Strand.chain.follow c.nodes (c.size + 1) (c.chains.head? s)
  c.auditNodes s [] slots
  pure slots.length

/-- Looks for a disagreement between the order and the chains. -/
def audit (c : Cache κ ν) : Audit Unit := do
  if c.nodes.live ≠ c.size then
    throw (.liveCount c.nodes.live c.size)
  let (missing, last) ← c.auditOrder c.size none c.order.head
  if missing ≠ 0 ∨ c.order.tail ≠ last then
    throw (.walkedCount (c.size - missing) c.size)
  let lengths ← (List.range c.chainCount).mapM c.auditChain
  let chained := lengths.foldl (· + ·) 0
  if chained ≠ c.size then
    throw (.chainedCount chained c.size)

/-- The outcome of an audit as an answer to a caller. -/
def verdict (c : Cache κ ν) : Except Fault (Except Refusal Unit) :=
  Except.mapError Violation.refusal <$> c.audit.run

end Cache
end RecencyCache
