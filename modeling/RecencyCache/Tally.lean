/-!
# Tallies

How often entries were inserted, refreshed, evicted and removed, and the share of pushes that found
their key present. Lookups are not counted.
-/
namespace RecencyCache

/-- What is counted. -/
inductive Event where
  /-- A push added a key. -/
  | insertion
  /-- A push found its key present. -/
  | refresh
  /-- An entry was displaced by a push, evicted to fit the capacity, or popped. -/
  | eviction
  /-- An entry was erased or taken. -/
  | removal
  deriving DecidableEq, Repr

/-- Event counts, and the number of entries at the time of the count. -/
@[ext] structure Tally where
  insertions : Nat := 0
  refreshes : Nat := 0
  evictions : Nat := 0
  removals : Nat := 0
  entries : Nat := 0
  deriving DecidableEq, Repr

namespace Tally

/-- Counts one event. -/
def count (t : Tally) : Event → Tally
  | .insertion => { t with insertions := t.insertions + 1 }
  | .refresh => { t with refreshes := t.refreshes + 1 }
  | .eviction => { t with evictions := t.evictions + 1 }
  | .removal => { t with removals := t.removals + 1 }

/-- The number of pushes that were not refused. -/
def pushes (t : Tally) : Nat := t.insertions + t.refreshes

/-- Refreshes divided by pushes, and zero before the first push. Counts are below `2 ^ 64`; each is
rounded to the nearest float before the division. -/
def hitRate (t : Tally) : Float :=
  if t.pushes = 0 then 0.0
  else (UInt64.ofNat t.refreshes).toFloat / (UInt64.ofNat t.pushes).toFloat

end Tally
end RecencyCache
