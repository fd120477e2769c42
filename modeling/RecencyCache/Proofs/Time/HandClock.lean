import RecencyCache.Time.HandClock

/-!
# What a clock moved by hand reads

A reading is as far from the origin as the clock was moved, up to the largest word
(`totalNanos_now`, `since_origin`), and moving a clock adds to its offset up to the same bound
(`toNat_offset_advance`). So no clock goes back: `now_le_advance`.
-/
namespace RecencyCache.HandClock

theorem totalNanos_elapsed (c : HandClock) : c.elapsed.totalNanos = c.offset.toNat :=
  Duration.totalNanos_ofNanos (Nat.lt_of_le_of_lt (Nat.div_le_self ..) c.offset.toNat_lt)

theorem totalNanos_now (c : HandClock) :
    c.now.totalNanos = c.origin.totalNanos + c.offset.toNat := by
  have hsum := Instant.add?_eq_some_iff.1 c.origin_add?_elapsed
  rwa [totalNanos_elapsed] at hsum

theorem since_origin (c : HandClock) : c.now.since c.origin = c.elapsed := by
  rw [Instant.since, totalNanos_now, Int.add_comm, Int.add_sub_cancel, Int.toNat_natCast, elapsed]

/-- Said apart, for `rfl` would compare the offsets. -/
theorem origin_advance (c : HandClock) (d : Duration) : (c.advance d).origin = c.origin := by
  rw [advance]

/-- The length of a move is cut off at the largest word, and so is the sum. Together they cut off
nothing but the exact sum. -/
theorem toNat_offset_advance (c : HandClock) (d : Duration) :
    (c.advance d).offset.toNat = min (c.offset.toNat + d.totalNanos) (UInt64.size - 1) := by
  rw [advance, toNat_saturatingAdd, Duration.toNat_clampedNanos]
  omega

theorem offset_le_advance (c : HandClock) (d : Duration) :
    c.offset.toNat ≤ (c.advance d).offset.toNat := by
  rw [toNat_offset_advance]
  exact Nat.le_min.2 ⟨Nat.le_add_right .., Nat.le_sub_one_of_lt c.offset.toNat_lt⟩

theorem now_le_of_offset_le {c : HandClock} {offset : UInt64}
    (h : c.offset.toNat ≤ offset.toNat) :
    c.now.totalNanos ≤ { c with offset }.now.totalNanos := by
  rw [totalNanos_now, totalNanos_now]
  exact Int.add_le_add_left (Int.ofNat_le.2 h) _

/-- Also where the count of nanoseconds stays at its largest value. -/
theorem now_le_advance (c : HandClock) (d : Duration) :
    c.now.totalNanos ≤ (c.advance d).now.totalNanos :=
  now_le_of_offset_le (c.offset_le_advance d)

end RecencyCache.HandClock
