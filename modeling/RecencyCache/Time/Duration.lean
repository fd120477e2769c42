/-!
# Durations

A span of time is a 64-bit count of seconds and a count of nanoseconds below one second, so every
duration has one form. `totalNanos` is its exact length.
-/
namespace RecencyCache

/-- Nanoseconds in one second. -/
abbrev nanosPerSecond : Nat := 1000000000

/-- A span of time. -/
@[ext] structure Duration where
  seconds : UInt64 := 0
  nanos : Nat := 0
  nanos_lt : nanos < nanosPerSecond := by decide
  deriving DecidableEq, Repr

namespace Duration

/-- The exact length in nanoseconds. -/
def totalNanos (d : Duration) : Nat :=
  d.seconds.toNat * nanosPerSecond + d.nanos

/-- The duration of `n` nanoseconds, for `n` below `2 ^ 64` seconds. -/
def ofNanos (n : Nat) : Duration where
  seconds := UInt64.ofNat (n / nanosPerSecond)
  nanos := n % nanosPerSecond
  nanos_lt := Nat.mod_lt _ (by decide)

/-- The duration of `ms` milliseconds. -/
def ofMillis (ms : UInt64) : Duration :=
  ofNanos (ms.toNat * 1000000)

/-- The length in nanoseconds as a word; a longer duration counts as the largest word. -/
def clampedNanos (d : Duration) : UInt64 :=
  if d.totalNanos < UInt64.size then UInt64.ofNat d.totalNanos else UInt64.ofNat (UInt64.size - 1)

/-- Durations are ordered by length. -/
instance : LE Duration where
  le a b := a.totalNanos ≤ b.totalNanos

instance (a b : Duration) : Decidable (a ≤ b) :=
  inferInstanceAs (Decidable (a.totalNanos ≤ b.totalNanos))

theorem le_def {a b : Duration} : a ≤ b ↔ a.totalNanos ≤ b.totalNanos := Iff.rfl

theorem totalNanos_ofNanos {n : Nat} (h : n / nanosPerSecond < UInt64.size) :
    (ofNanos n).totalNanos = n := by
  simp only [totalNanos, ofNanos, UInt64.toNat_ofNat_of_lt' h]
  exact Nat.div_add_mod' n nanosPerSecond

theorem toNat_clampedNanos (d : Duration) :
    d.clampedNanos.toNat = min d.totalNanos (UInt64.size - 1) := by
  unfold clampedNanos
  split
  · rename_i h
    rw [UInt64.toNat_ofNat_of_lt' h]
    exact (Nat.min_eq_left (Nat.le_sub_one_of_lt h)).symm
  · rename_i h
    rw [UInt64.toNat_ofNat_of_lt' (by decide)]
    exact (Nat.min_eq_right (Nat.le_trans (Nat.sub_le ..) (Nat.le_of_not_lt h))).symm

end Duration
end RecencyCache
