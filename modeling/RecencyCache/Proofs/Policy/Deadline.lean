import RecencyCache.Proofs.Policy

/-!
# Deadlines in exact time

The deadline of an entry is the instant of its last push plus the window. Where that sum has no
instant, its seconds are past the largest 64-bit count (`Instant.add?_eq_none_iff`), and the entry
counts as fresh for ever. No reading of a clock tells the difference: the verdict on an entry is
always the one about the exact sum. So it can only change from fresh to expired as time goes on, and
an earlier push or a shorter window can only bring that forward: `isExpired_exact`.
-/
namespace RecencyCache

namespace Instant

/-- Not later. -/
instance : LE Instant where
  le a b := ¬b < a

instance (a b : Instant) : Decidable (a ≤ b) :=
  inferInstanceAs (Decidable (¬b < a))

theorem le_iff_totalNanos_le {a b : Instant} : a ≤ b ↔ a.totalNanos ≤ b.totalNanos := by
  rw [← Int.not_lt, ← lt_iff_totalNanos_lt]
  rfl

/-- The exact sum has no instant exactly if its seconds are too many, after the carry of the
nanoseconds. -/
theorem add?_eq_none_iff {t : Instant} {d : Duration} :
    t.add? d = none ↔ secondsEnd ≤ (t.totalNanos + d.totalNanos) / nanosPerSecond := by
  have ht := t.nanos_lt
  have hd := d.nanos_lt
  have hseconds : t.seconds.toInt + d.seconds.toNat + ((t.nanos + d.nanos) / nanosPerSecond : Nat) =
      (t.totalNanos + d.totalNanos) / nanosPerSecond := by
    simp only [totalNanos, Duration.totalNanos, nanosPerSecond] at *
    omega
  simp only [add?, hseconds]
  split
  · rename_i hlt
    exact iff_of_false (Option.some_ne_none _) (Int.not_le.2 hlt)
  · rename_i hlt
    exact iff_of_true rfl (Int.not_lt.1 hlt)

end Instant

namespace Policy

variable {v w : Duration} {t t' now now' : Instant} {size n : Nat} {oldest : Option Instant}

theorem deadline?_eq_none_iff : (bySizeAndAge w).deadline? t = none ↔
    Instant.secondsEnd ≤ (t.totalNanos + w.totalNanos) / nanosPerSecond := by
  rw [deadline?, window?, Option.bind_some, Instant.add?_eq_none_iff]

/-- What is expired has been so under every shorter window, for every earlier push, and stays so. -/
theorem isExpired_of_earlier (hw : v ≤ w) (ht : t' ≤ t) (hnow : now ≤ now')
    (h : (bySizeAndAge w).isExpired t now = true) : (bySizeAndAge v).isExpired t' now' = true := by
  rw [isExpired_iff] at h ⊢
  calc t'.totalNanos + v.totalNanos
      ≤ t.totalNanos + w.totalNanos := Int.add_le_add (Instant.le_iff_totalNanos_le.1 ht)
        (Int.ofNat_le.2 (Duration.le_def.1 hw))
    _ < now.totalNanos := h
    _ ≤ now'.totalNanos := Instant.le_iff_totalNanos_le.1 hnow

theorem evicts_bySizeAndAge_iff_exists : (bySizeAndAge w).evicts now size n oldest = true ↔
    n < size ∧ ∃ t, oldest = some t ∧ t.totalNanos + w.totalNanos < now.totalNanos := by
  cases oldest with
  | none => simp [evicts]
  | some t => simp [evicts_bySizeAndAge_iff]

/-- **Verdicts in exact time.** An entry is expired exactly if its last push plus the window is
before now, in exact arithmetic. That is monotone in all three times, and neither it nor the verdict
of a full cache depends on whether the sum has an instant. -/
theorem isExpired_exact :
    (∀ w t now, (bySizeAndAge w).isExpired t now = true ↔
      t.totalNanos + w.totalNanos < now.totalNanos) ∧
    (∀ v w t t' now now', v ≤ w → t' ≤ t → now ≤ now' →
      (bySizeAndAge w).isExpired t now = true → (bySizeAndAge v).isExpired t' now' = true) ∧
    (∀ w t, (bySizeAndAge w).deadline? t = none ↔
      Instant.secondsEnd ≤ (t.totalNanos + w.totalNanos) / nanosPerSecond) ∧
    ∀ w now size n oldest, (bySizeAndAge w).evicts now size n oldest = true ↔
      n < size ∧ ∃ t, oldest = some t ∧ t.totalNanos + w.totalNanos < now.totalNanos :=
  ⟨fun _ _ _ => isExpired_iff, fun _ _ _ _ _ _ => isExpired_of_earlier,
    fun _ _ => deadline?_eq_none_iff, fun _ _ _ _ _ => evicts_bySizeAndAge_iff_exists⟩

/-- At the last instant, an entry is expired if its deadline is a nanosecond earlier. With two
nanoseconds more, it has no deadline. -/
theorem isExpired_exact_at_last :
    let t : Instant := { seconds := 9223372036854775806, nanos := 999999999 }
    let t' : Instant := { seconds := 9223372036854775806, nanos := 1 }
    let last : Instant := { seconds := 9223372036854775807, nanos := 999999999 }
    let v : Duration := { nanos := 2 }
    let w : Duration := { nanos := 999999999 }
    (v ≤ w ∧ t' ≤ t ∧ last ≤ last ∧ (bySizeAndAge w).isExpired t last = true) ∧
      (bySizeAndAge v).isExpired t' last = true ∧
      (bySizeAndAge { seconds := 1, nanos := 1 }).deadline? t = none := by
  intro t t' last v w
  have hw : v ≤ w := by decide
  have ht : t' ≤ t := by decide
  have hlast : last ≤ last := by decide
  have h : (bySizeAndAge w).isExpired t last = true :=
    (isExpired_exact.1 w t last).2 (by decide)
  exact ⟨⟨hw, ht, hlast, h⟩, isExpired_exact.2.1 v w t t' last last hw ht hlast h,
    (isExpired_exact.2.2.1 _ t).2 (by decide)⟩

end Policy
end RecencyCache
