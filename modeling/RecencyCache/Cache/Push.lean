import RecencyCache.Cache.Lookup
/-!
# Pushing entries

A push makes its entry the most recently pushed one. A present key is overwritten in place. An
absent key takes over the node of the oldest entry if that would have to leave a cache with one
entry more, and a new node otherwise. Only the last of these can be refused.
-/
namespace RecencyCache.Cache

variable {κ ν : Type}

/-- Overwrites the entry in slot `i`, stamps it and promotes it. -/
def refresh (c : Cache κ ν) (i : SlotId) (e : Entry κ ν) : Except Fault (Cache κ ν) := do
  let nodes ← c.nodes.modify i fun n => { n with entry := e, stamp := c.clock.now }
  let (order, nodes) ← c.order.promote nodes i
  pure ({ c with nodes, order }.count .refresh)

/-- Gives the node in slot `i` to a new entry. Positions of the old entry become stale. -/
def replace (c : Cache κ ν) (i : SlotId) (e : Entry κ ν) : Except Fault (Cache κ ν) := do
  let c ← c.unlink i
  let nodes ← c.nodes.modify i fun n =>
    { n with entry := e, stamp := c.clock.now, hash := c.hash e.key }
  let c ← { c with nodes := nodes.renew i }.link i
  pure ((c.count .eviction).count .insertion)

/-- Stores a new entry in a node of its own, unless the node limit is reached. -/
def insertNew (c : Cache κ ν) (e : Entry κ ν) : Except Fault (Outcome κ ν Bool) := do
  match ← c.nodes.store { entry := e, stamp := c.clock.now, hash := c.hash e.key } with
  | .refused limit => pure (.error (.nodeLimitReached limit), c)
  | .granted i nodes =>
    let c ← { c with nodes }.link i
    pure (.ok true, c.count .insertion)

/-- The node that a new entry has to take over, if there is one. -/
def victim? (c : Cache κ ν) : Except Fault (Option SlotId) := do
  pure (if ← c.wouldEvict (c.size + 1) then c.order.tail else none)

/-- Inserts or refreshes an entry. Answers whether its key is new. -/
def push [BEq κ] (c : Cache κ ν) (e : Entry κ ν) : Except Fault (Outcome κ ν Bool) := do
  match ← c.slot? e.key with
  | some i => pure (.ok false, ← c.refresh i e)
  | none =>
    match ← c.victim? with
    | some i => pure (.ok true, ← c.replace i e)
    | none => c.insertNew e

end RecencyCache.Cache
