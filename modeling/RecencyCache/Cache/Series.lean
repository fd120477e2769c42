import RecencyCache.Cache.Push
/-!
# Pushing a series of entries

Entries that are pushed one after the other, with a count of the answers. Where there is room for
one entry only, each push of another key does the same: the slot takes its next generation, and an
eviction and an insertion are counted. `pushVaried` makes all such pushes but the first at once.
-/
namespace RecencyCache

/-- Starts `n` generations of slot `i` at once. -/
def Pool.renewTimes {α : Type} (p : Pool α) (i : SlotId) (n : Nat) : Pool α :=
  { p with
    slots := p.slots.modify i fun s => { s with generation := s.generation + UInt32.ofNat n } }

/-- How many pushes added a key, found it present, and were refused. -/
structure PushCounts where
  added : Nat := 0
  refreshed : Nat := 0
  refused : Nat := 0
  deriving DecidableEq, Repr

/-- Counts the answer of one push. -/
def PushCounts.count (t : PushCounts) : Except Refusal Bool → PushCounts
  | .ok true => { t with added := t.added + 1 }
  | .ok false => { t with refreshed := t.refreshed + 1 }
  | .error _ => { t with refused := t.refused + 1 }

/-- The integer keys `start`, `start + step`, `start + 2 * step` and so on, in wrapping arithmetic,
each with its value. -/
structure Series (ν : Type) where
  start : Int64
  step : Int64
  value : Int64 → ν

/-- Key number `j`, from zero. -/
def Series.key {ν : Type} (r : Series ν) (j : Nat) : Int64 := r.start + Int64.ofNat j * r.step

/-- Entry number `j`, from zero. -/
def Series.entry {ν : Type} (r : Series ν) (j : Nat) : Entry Int64 ν := ⟨r.key j, r.value (r.key j)⟩

namespace Cache

variable {κ ν : Type}

/-- The slot of the only entry, where there is room for one entry only. -/
def soleSlot? (c : Cache κ ν) : Option SlotId :=
  if c.size = 1 ∧ c.capacity = 1 ∧ c.policy = .bySize then c.order.tail else none

/-- The cache as if `n` more entries had taken over the node in slot `i` before the present one. -/
def turnOver (c : Cache κ ν) (i : SlotId) (n : Nat) : Cache κ ν :=
  { c with
    nodes := c.nodes.renewTimes i n
    tally := { c.tally with
      insertions := c.tally.insertions + n, evictions := c.tally.evictions + n } }

section Key

variable [BEq κ]

/-- Pushes `n` entries, from `f j` on, and goes on counting the answers. -/
def pushFrom (f : Nat → Entry κ ν) : Nat → Nat → PushCounts → Cache κ ν →
    Except Fault (PushCounts × Cache κ ν)
  | _, 0, t, c => pure (t, c)
  | j, n + 1, t, c => do
    let (answer, c) ← c.push (f j)
    pushFrom f (j + 1) n (t.count answer) c

/-- Pushes the first `n` entries of `f` one by one and counts the answers. -/
def pushEach (c : Cache κ ν) (f : Nat → Entry κ ν) (n : Nat) :
    Except Fault (PushCounts × Cache κ ν) :=
  c.pushFrom f 0 n {}

/-- As `pushEach`, for entries each of which has another key than the one before it. -/
def pushVaried (c : Cache κ ν) (f : Nat → Entry κ ν) (n : Nat) :
    Except Fault (PushCounts × Cache κ ν) :=
  match c.soleSlot?, n with
  | some i, n + 2 => do
    let (answer, c) ← c.push (f 0)
    let c ← c.replace i (f (n + 1))
    let t := PushCounts.count {} answer
    pure ({ t with added := t.added + (n + 1) }, c.turnOver i n)
  | _, n => c.pushEach f n

end Key

/-- As `pushEach`, for the first `n` entries of a series. -/
def pushSeries (c : Cache Int64 ν) (r : Series ν) (n : Nat) :
    Except Fault (PushCounts × Cache Int64 ν) :=
  if r.step = 0 then c.pushEach r.entry n else c.pushVaried r.entry n

end Cache
end RecencyCache
