import RecencyCache.Time.Instant
/-!
# Eviction policies

A policy says when a cache has to give up its oldest entry. It looks at the number of entries, at
the capacity, at the time, and at the time of the oldest entry's last push. `bySize` asks only
whether there are more entries than the capacity. `bySizeAndAge` asks in addition that the oldest
entry has aged past a window: an entry that is still fresh never has to leave, so such a cache may
hold more entries than its capacity.
-/
namespace RecencyCache

/-- What makes a cache give up its oldest entry. -/
inductive Policy where
  /-- More entries than the capacity. -/
  | bySize
  /-- More entries than the capacity, the oldest of them last pushed more than `window` ago. -/
  | bySizeAndAge (window : Duration)
  deriving DecidableEq, Repr

namespace Policy

/-- The freshness window, if the policy has one. -/
def window? : Policy → Option Duration
  | bySize => none
  | bySizeAndAge window => some window

/-- The policy with another freshness window; a policy without one stays as it is. -/
def withWindow (window : Duration) : Policy → Policy
  | bySize => bySize
  | bySizeAndAge _ => bySizeAndAge window

/-- The last instant at which an entry pushed at `touched` is fresh. There is none without a window,
and none if that instant is past the end of time. -/
def deadline? (p : Policy) (touched : Instant) : Option Instant :=
  p.window?.bind touched.add?

/-- An entry is expired when its deadline lies strictly before `now`. -/
def isExpired (p : Policy) (touched now : Instant) : Bool :=
  match p.deadline? touched with
  | some deadline => deadline < now
  | none => false

/-- Whether the oldest of `size` entries has to leave, `oldest` being the time of its last push. -/
def evicts (p : Policy) (now : Instant) (size capacity : Nat) (oldest : Option Instant) : Bool :=
  match p with
  | bySize => capacity < size
  | bySizeAndAge _ => capacity < size && oldest.any (p.isExpired · now)

end Policy
end RecencyCache
