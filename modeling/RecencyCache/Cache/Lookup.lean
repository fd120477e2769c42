import RecencyCache.Cache.Basic
/-!
# Lookups

Finding entries by key, by position and at the two ends of the order. Lookups change nothing: they
neither promote an entry nor renew its freshness.
-/
namespace RecencyCache.Cache

variable {κ ν : Type}

/-- The entry in slot `i`. -/
def entryIn (c : Cache κ ν) (i : SlotId) : Except Fault (Entry κ ν) :=
  Node.entry <$> c.nodes.get i

/-! ## By key -/

section Key

variable [BEq κ]

/-- The slot of the entry with key `k`. -/
def slot? (c : Cache κ ν) (k : κ) : Except Fault (Option SlotId) :=
  c.chains.find c.nodes (c.hash k) (·.key == k)

/-- The entry with key `k`. -/
def find? (c : Cache κ ν) (k : κ) : Except Fault (Option (Entry κ ν)) := do
  (← c.slot? k).mapM c.entryIn

/-- Whether there is an entry with key `k`. -/
def contains (c : Cache κ ν) (k : κ) : Except Fault Bool :=
  Option.isSome <$> c.slot? k

/-- The position of the entry with key `k`. -/
def position? (c : Cache κ ν) (k : κ) : Except Fault (Option Position) := do
  (← c.slot? k).mapM c.nodes.position

/-- The value stored with key `k`. -/
def get? (c : Cache κ ν) (k : κ) : Except Fault (Option ν) :=
  Option.map Entry.value <$> c.find? k

/-- The value stored with key `k`, which has to be present. -/
def get (c : Cache κ ν) (k : κ) : Except Fault (Except Refusal ν) :=
  (·.elim (.error .absentKey) .ok) <$> c.get? k

/-- The last instant at which the entry with key `k` is fresh. -/
def deadline? (c : Cache κ ν) (k : κ) : Except Fault (Option Instant) := do
  match ← c.slot? k with
  | some i => pure (c.policy.deadline? (← c.nodes.get i).stamp)
  | none => pure none

/-- Whether there is an entry with key `k` and it is past its deadline. -/
def isExpired (c : Cache κ ν) (k : κ) : Except Fault Bool := do
  match ← c.slot? k with
  | some i => pure (c.policy.isExpired (← c.nodes.get i).stamp c.clock.now)
  | none => pure false

end Key

/-! ## At the ends -/

/-- The most recently pushed entry. -/
def newest? (c : Cache κ ν) : Except Fault (Option (Entry κ ν)) :=
  c.order.head.mapM c.entryIn

/-- The least recently pushed entry, the next to be evicted. -/
def oldest? (c : Cache κ ν) : Except Fault (Option (Entry κ ν)) :=
  c.order.tail.mapM c.entryIn

/-- The position of the most recently pushed entry. -/
def newestPosition? (c : Cache κ ν) : Except Fault (Option Position) :=
  c.order.head.mapM c.nodes.position

/-- The position of the least recently pushed entry. -/
def oldestPosition? (c : Cache κ ν) : Except Fault (Option Position) :=
  c.order.tail.mapM c.nodes.position

/-! ## By position -/

/-- The entry at a position; there is none at a stale one. -/
def entryAt? (c : Cache κ ν) (pos : Position) : Except Fault (Option (Entry κ ν)) :=
  (c.nodes.resolve pos).mapM c.entryIn

/-- The position of the entry that follows the one at `pos` in the order of recency. -/
def positionAfter? (c : Cache κ ν) (pos : Position) : Except Fault (Option Position) := do
  match c.nodes.resolve pos with
  | some i => (← c.nodes.get i).recency.next.mapM c.nodes.position
  | none => pure none

end RecencyCache.Cache
