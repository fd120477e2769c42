import RecencyCache.Cache.Lookup
/-!
# Removing entries

Popping the oldest entry, removing one by key or by position, dropping all, and evicting until a
changed capacity or window is met. Evictions and removals are counted apart; dropping all entries
counts as neither.
-/
namespace RecencyCache.Cache

variable {κ ν : Type}

/-! ## Eviction -/

/-- Evicts the oldest entry and answers it. -/
def pop (c : Cache κ ν) : Except Fault (Outcome κ ν (Entry κ ν)) := do
  match c.order.tail with
  | none => pure (.error .noEntries, c)
  | some i =>
    match ← c.discard i with
    | (some e, c) => pure (.ok e, c.count .eviction)
    | (none, c) => pure (.error .noEntries, c)

/-- Pops the oldest entry while it has to leave, at most `n` times. Answers how many entries it
popped; that one more would have to leave is a fault. -/
def evictWithin (c : Cache κ ν) (n : Nat) : Except Fault (Nat × Cache κ ν) := do
  if ← c.wouldEvict c.size then
    match n with
    | 0 => throw .endless
    | n + 1 =>
      match ← c.pop with
      | (.ok _, c) =>
        let (evicted, c) ← c.evictWithin n
        pure (evicted + 1, c)
      | (.error _, c) => pure (0, c)
  else
    pure (0, c)

/-- Pops the oldest entry while it has to leave. Answers how many entries it popped. -/
def evictExcess (c : Cache κ ν) : Except Fault (Nat × Cache κ ν) :=
  c.evictWithin c.size

/-- Sets the capacity and evicts what then has to leave. Answers the number of evicted entries. -/
def setCapacity (c : Cache κ ν) (capacity : Nat) : Except Fault (Nat × Cache κ ν) :=
  { c with capacity }.evictExcess

/-- Sets the freshness window, also of the entries already there, and evicts what then has to leave.
Answers the number of evicted entries. -/
def setWindow (c : Cache κ ν) (window : Duration) : Except Fault (Nat × Cache κ ν) :=
  { c with policy := c.policy.withWindow window }.evictExcess

/-! ## Removal -/

/-- Removes the entry at a position and answers the position of the entry that followed it. A stale
position is left alone. -/
def eraseAt (c : Cache κ ν) (pos : Position) : Except Fault (Option Position × Cache κ ν) := do
  match c.nodes.resolve pos with
  | none => pure (none, c)
  | some i =>
    let next := (← c.nodes.get i).recency.next
    match ← c.discard i with
    | (some _, c) => pure (← next.mapM c.nodes.position, c.count .removal)
    | (none, c) => pure (none, c)

/-- Removes the entry with key `k` and answers the position of the entry that followed it. -/
def erase [BEq κ] (c : Cache κ ν) (k : κ) : Except Fault (Option Position × Cache κ ν) := do
  match ← c.position? k with
  | some pos => c.eraseAt pos
  | none => pure (none, c)

/-- Removes the entry with key `k` and answers it. -/
def take [BEq κ] (c : Cache κ ν) (k : κ) : Except Fault (Option (Entry κ ν) × Cache κ ν) := do
  match ← c.slot? k with
  | none => pure (none, c)
  | some i =>
    match ← c.discard i with
    | (some e, c) => pure (some e, c.count .removal)
    | (none, c) => pure (none, c)

/-- Drops every entry. Limits, chain count and tally stay. -/
def clear (c : Cache κ ν) : Cache κ ν :=
  { c with nodes := c.nodes.clear, chains := c.chains.clear, order := {} }

end RecencyCache.Cache
