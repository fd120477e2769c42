import RecencyCache.Time.Duration
/-!
# Instants

A point in time is a signed 64-bit count of seconds and a count of nanoseconds below one second.
`lt_iff_totalNanos_lt` and `add?_eq_some_iff` say that comparing and adding agree with exact
arithmetic on nanoseconds; a sum has no instant exactly when its seconds leave the 64 bits, and it
is later than every instant then (`lt_of_add?_eq_none`).
-/
namespace RecencyCache

/-- A point in time. -/
@[ext] structure Instant where
  seconds : Int64 := 0
  nanos : Nat := 0
  nanos_lt : nanos < nanosPerSecond := by decide
  deriving Repr

namespace Instant

instance : DecidableEq Instant := fun a b =>
  decidable_of_iff (a.seconds = b.seconds ∧ a.nanos = b.nanos) Instant.ext_iff.symm

/-- The least count of seconds that is too large for a signed 64-bit word. -/
abbrev secondsEnd : Int := 9223372036854775808

/-- The exact time in nanoseconds. -/
def totalNanos (t : Instant) : Int :=
  t.seconds.toInt * nanosPerSecond + t.nanos

/-- Earlier means fewer seconds, or as many seconds and fewer nanoseconds. -/
instance : LT Instant where
  lt a b := a.seconds < b.seconds ∨ a.seconds = b.seconds ∧ a.nanos < b.nanos

instance (a b : Instant) : Decidable (a < b) :=
  inferInstanceAs (Decidable (a.seconds < b.seconds ∨ a.seconds = b.seconds ∧ a.nanos < b.nanos))

theorem lt_def {a b : Instant} :
    a < b ↔ a.seconds < b.seconds ∨ a.seconds = b.seconds ∧ a.nanos < b.nanos := Iff.rfl

/-- The instant `d` after `t`: nanoseconds carry into the seconds, and seconds past the largest
64-bit count have no instant. -/
def add? (t : Instant) (d : Duration) : Option Instant :=
  let nanos := t.nanos + d.nanos
  let seconds := t.seconds.toInt + d.seconds.toNat + (nanos / nanosPerSecond : Nat)
  if seconds < secondsEnd then
    some ⟨Int64.ofInt seconds, nanos % nanosPerSecond, Nat.mod_lt _ (by decide)⟩
  else
    none

/-- The time from `start` to `t`; none at all if `t` is not the later one. -/
def since (t start : Instant) : Duration :=
  Duration.ofNanos (t.totalNanos - start.totalNanos).toNat

theorem lt_iff_totalNanos_lt {a b : Instant} : a < b ↔ a.totalNanos < b.totalNanos := by
  have ha := a.nanos_lt
  have hb := b.nanos_lt
  have heq : a.seconds = b.seconds ↔ a.seconds.toInt = b.seconds.toInt := Int64.toInt_inj.symm
  rw [lt_def, Int64.lt_iff_toInt_lt, heq]
  simp only [totalNanos, nanosPerSecond] at *
  omega

theorem add?_eq_some_iff {t u : Instant} {d : Duration} :
    t.add? d = some u ↔ u.totalNanos = t.totalNanos + d.totalNanos := by
  have ht := t.nanos_lt
  have hd := d.nanos_lt
  have hu := u.nanos_lt
  have hlow := t.seconds.le_toInt
  have hhigh := u.seconds.toInt_lt
  simp only [add?]
  constructor
  · intro h
    split at h
    · rename_i hlt
      cases h
      simp only [totalNanos, Duration.totalNanos, nanosPerSecond, secondsEnd] at *
      rw [Int64.toInt_ofInt_of_le (by omega) (by omega)]
      omega
    · cases h
  · intro h
    simp only [totalNanos, Duration.totalNanos, nanosPerSecond, secondsEnd] at *
    have hseconds : t.seconds.toInt + d.seconds.toNat + ((t.nanos + d.nanos) / 1000000000 : Nat) =
        u.seconds.toInt := by omega
    rw [if_pos (by omega)]
    congr 1
    ext1
    · simp only [hseconds, Int64.ofInt_toInt]
    · simp only; omega

/-- A sum without an instant is later than every instant. -/
theorem lt_of_add?_eq_none {t : Instant} {d : Duration} (h : t.add? d = none) (u : Instant) :
    u.totalNanos < t.totalNanos + d.totalNanos := by
  have hu := u.nanos_lt
  have hhigh := u.seconds.toInt_lt
  simp only [add?] at h
  split at h
  · cases h
  · rename_i hend
    simp only [totalNanos, Duration.totalNanos, nanosPerSecond, secondsEnd] at *
    omega

end Instant
end RecencyCache
