import RecencyCache.Cache.Basic
/-!
# Walking a cache from both ends

A cursor spans a stretch of the order of recency and hands out the entries of that stretch one at a
time, from its recent end or from its old end. It counts the entries that are still to come, so its
two ends never cross.
-/
namespace RecencyCache

/-- The entries from `front` to `back` that are still to come, `remaining` in number. -/
structure Cursor (κ ν : Type) where
  nodes : Pool (Node κ ν)
  front : Option SlotId
  back : Option SlotId
  remaining : Nat

namespace Cursor

variable {κ ν : Type}

/-- Takes the most recent entry that is still to come. -/
def popFront? (w : Cursor κ ν) : Except Fault (Option (Entry κ ν) × Cursor κ ν) :=
  match w.remaining, w.front with
  | remaining + 1, some i => do
    let node ← w.nodes.get i
    pure (some node.entry, { w with front := node.recency.next, remaining })
  | _, _ => pure (none, w)

/-- Takes the least recent entry that is still to come. -/
def popBack? (w : Cursor κ ν) : Except Fault (Option (Entry κ ν) × Cursor κ ν) :=
  match w.remaining, w.back with
  | remaining + 1, some i => do
    let node ← w.nodes.get i
    pure (some node.entry, { w with back := node.recency.prev, remaining })
  | _, _ => pure (none, w)

/-- A lower and an upper bound on the number of entries still to come. Both are exact. -/
def bounds (w : Cursor κ ν) : Nat × Nat := (w.remaining, w.remaining)

/-- The entries that a way of taking them takes, at most `n`. -/
def collect (pop? : Cursor κ ν → Except Fault (Option (Entry κ ν) × Cursor κ ν)) :
    Nat → Cursor κ ν → Except Fault (List (Entry κ ν))
  | 0, _ => pure []
  | n + 1, w => do
    match ← pop? w with
    | (some e, w) =>
      let rest ← collect pop? n w
      pure (e :: rest)
    | (none, _) => pure []

/-- The entries still to come, most recent first. -/
def toList (w : Cursor κ ν) : Except Fault (List (Entry κ ν)) :=
  collect popFront? w.remaining w

/-- The entries still to come, least recent first. -/
def toListRev (w : Cursor κ ν) : Except Fault (List (Entry κ ν)) :=
  collect popBack? w.remaining w

end Cursor

namespace Cache

variable {κ ν : Type}

/-- A cursor over all entries. -/
def cursor (c : Cache κ ν) : Cursor κ ν :=
  ⟨c.nodes, c.order.head, c.order.tail, c.size⟩

/-- All entries, most recently pushed first. -/
def toList (c : Cache κ ν) : Except Fault (List (Entry κ ν)) := c.cursor.toList

/-- All entries, least recently pushed first. -/
def toListRev (c : Cache κ ν) : Except Fault (List (Entry κ ν)) := c.cursor.toListRev

/-- All keys, most recently pushed first. -/
def keys (c : Cache κ ν) : Except Fault (List κ) := List.map Entry.key <$> c.toList

/-- All values, most recently pushed first. -/
def values (c : Cache κ ν) : Except Fault (List ν) := List.map Entry.value <$> c.toList

end Cache
end RecencyCache
