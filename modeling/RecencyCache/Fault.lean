/-!
# Faults

A fault is a promise that the parts of a cache make to each other and that was broken: a link to a
slot that holds no node, a count taken below zero, a list of links that never ends. Operations on
linked nodes answer in `Except Fault`, so each of these promises is visible where it is relied on.
What a caller can do wrong is not a fault but a `Refusal`.
-/
namespace RecencyCache

/-- A broken internal promise. -/
inductive Fault where
  /-- A node was asked for in a slot that holds none. -/
  | vacant (slot : Nat)
  /-- A slot on the free stack already holds a node. -/
  | occupied (slot : Nat)
  /-- A slot number past the last slot. -/
  | outOfRange (slot : Nat)
  /-- A count of nodes would drop below zero. -/
  | underflow
  /-- A walk along links took more steps than there are nodes, or a pass evicted more entries than
  there are. -/
  | endless
  deriving DecidableEq, Repr

end RecencyCache
