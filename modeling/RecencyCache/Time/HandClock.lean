import RecencyCache.Time.Instant
/-!
# A clock moved by hand

The clock stands still until it is advanced. It counts the nanoseconds since its origin in one
64-bit word, which stays at its largest value once it has reached it. The origin leaves room for all
of these nanoseconds, so the clock always has a reading: `origin_add?_elapsed`.
-/
namespace RecencyCache

/-- The sum of two words, or the largest word if the sum is larger. -/
def saturatingAdd (a b : UInt64) : UInt64 :=
  if a.toNat + b.toNat < UInt64.size then a + b else UInt64.ofNat (UInt64.size - 1)

theorem toNat_saturatingAdd (a b : UInt64) :
    (saturatingAdd a b).toNat = min (a.toNat + b.toNat) (UInt64.size - 1) := by
  unfold saturatingAdd
  split
  · rename_i h
    rw [UInt64.toNat_add, Nat.mod_eq_of_lt h]
    exact (Nat.min_eq_left (Nat.le_sub_one_of_lt h)).symm
  · rename_i h
    rw [UInt64.toNat_ofNat_of_lt' (by decide)]
    exact (Nat.min_eq_right (Nat.le_trans (Nat.sub_le ..) (Nat.le_of_not_lt h))).symm

/-- A clock that moves only when told to. -/
@[ext] structure HandClock where
  origin : Instant := {}
  /-- Nanoseconds since the origin. -/
  offset : UInt64 := 0
  /-- The largest offset after the origin is still an instant. -/
  room : origin.seconds.toInt + (UInt64.size / nanosPerSecond + 1 : Nat) < Instant.secondsEnd := by
    decide
  deriving DecidableEq, Repr

namespace HandClock

/-- The clock that no one has moved yet. -/
def initial : HandClock := {}

/-- Moves the clock forward. -/
def advance (c : HandClock) (d : Duration) : HandClock :=
  { c with offset := saturatingAdd c.offset d.clampedNanos }

/-- The time since the origin. -/
def elapsed (c : HandClock) : Duration :=
  Duration.ofNanos c.offset.toNat

theorem isSome_origin_add?_elapsed (c : HandClock) : (c.origin.add? c.elapsed).isSome := by
  have hroom := c.room
  have hoffset := c.offset.toNat_lt
  have hnanos := c.origin.nanos_lt
  have hseconds : c.offset.toNat / nanosPerSecond < UInt64.size :=
    Nat.lt_of_le_of_lt (Nat.div_le_self ..) hoffset
  simp only [Instant.add?, elapsed, Duration.ofNanos, UInt64.toNat_ofNat_of_lt' hseconds]
  simp only [nanosPerSecond, UInt64.size] at *
  rw [if_pos (by omega)]
  rfl

/-- The clock's reading. -/
def now (c : HandClock) : Instant :=
  (c.origin.add? c.elapsed).get c.isSome_origin_add?_elapsed

theorem origin_add?_elapsed (c : HandClock) : c.origin.add? c.elapsed = some c.now := by
  simp [now]

end HandClock
end RecencyCache
