import RecencyCache.Strand
/-!
# The order of recency

All nodes of a cache in the order of their last push. The most recently pushed one is the head; the
least recently pushed one, which is the next to be evicted, is the tail.
-/
namespace RecencyCache

/-- The two ends of the order and its length. -/
@[ext] structure Recency where
  head : Option SlotId := none
  tail : Option SlotId := none
  size : Nat := 0
  deriving DecidableEq, Repr

namespace Recency

variable {κ ν : Type}

/-- Makes a node that is on no list the most recently pushed one. -/
def prepend (r : Recency) (nodes : Strand.Nodes κ ν) (i : SlotId) :
    Except Fault (Recency × Strand.Nodes κ ν) := do
  let nodes ← Strand.recency.attach nodes i r.head
  let tail := if r.head.isNone then some i else r.tail
  pure ({ head := some i, tail, size := r.size + 1 }, nodes)

/-- Takes a node out of the order. -/
def remove (r : Recency) (nodes : Strand.Nodes κ ν) (i : SlotId) :
    Except Fault (Recency × Strand.Nodes κ ν) := do
  let (link, nodes) ← Strand.recency.detach nodes i
  let head := if link.prev.isNone then link.next else r.head
  let tail := if link.next.isNone then link.prev else r.tail
  match r.size with
  | 0 => throw .underflow
  | size + 1 => pure ({ head, tail, size }, nodes)

/-- Makes a node of the order the most recently pushed one. -/
def promote (r : Recency) (nodes : Strand.Nodes κ ν) (i : SlotId) :
    Except Fault (Recency × Strand.Nodes κ ν) :=
  if r.head = some i then
    pure (r, nodes)
  else do
    let (r, nodes) ← r.remove nodes i
    r.prepend nodes i

end Recency
end RecencyCache
