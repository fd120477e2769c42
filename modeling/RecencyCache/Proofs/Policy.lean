import RecencyCache.Policy

/-!
# Stricter and laxer policies

Policies of one kind are ordered by their windows. Whatever a policy keeps under some capacity, a
laxer one keeps under a larger capacity: `evicts_of_le`. The verdict of a policy with a window is
one about exact times: `isExpired_iff`.
-/
namespace RecencyCache.Policy

variable {p q : Policy} {v w : Duration} {t now : Instant} {size m n : Nat}
  {oldest : Option Instant}

theorem isExpired_iff_exists :
    (bySizeAndAge w).isExpired t now = true ↔ ∃ d, t.add? w = some d ∧ d < now := by
  simp only [isExpired, deadline?, window?, Option.bind_some]
  cases t.add? w <;> simp

/-- An entry is past its deadline exactly if more than the window has passed since its push, also
where the deadline is no instant. -/
theorem isExpired_iff : (bySizeAndAge w).isExpired t now = true ↔
    t.totalNanos + w.totalNanos < now.totalNanos := by
  simp only [isExpired, deadline?, window?, Option.bind_some]
  cases hd : t.add? w with
  | some deadline =>
    rw [decide_eq_true_eq, Instant.lt_iff_totalNanos_lt, Instant.add?_eq_some_iff.1 hd]
  | none => simpa using Int.le_of_lt (Instant.lt_of_add?_eq_none hd now)

theorem evicts_bySizeAndAge_iff : (bySizeAndAge w).evicts now size n (some t) = true ↔
    n < size ∧ t.totalNanos + w.totalNanos < now.totalNanos := by
  simp only [evicts, Option.any_some, Bool.and_eq_true, decide_eq_true_eq, isExpired_iff]

/-- Only among more entries than the capacity does one have to leave. -/
theorem lt_of_evicts (h : p.evicts now size n oldest = true) : n < size := by
  cases p with
  | bySize => exact of_decide_eq_true h
  | bySizeAndAge w => exact of_decide_eq_true (Bool.and_eq_true_iff.1 h).1

/-- The second policy is of the same kind, and its window is at least as long. -/
instance : LE Policy where
  le
    | bySize, bySize => True
    | bySizeAndAge v, bySizeAndAge w => v ≤ w
    | _, _ => False

theorem le_refl (p : Policy) : p ≤ p := by
  cases p with
  | bySize => trivial
  | bySizeAndAge w => exact Nat.le_refl w.totalNanos

theorem bySizeAndAge_le (h : v ≤ w) : bySizeAndAge v ≤ bySizeAndAge w := h

theorem isExpired_of_le (h : v ≤ w) (he : (bySizeAndAge w).isExpired t now = true) :
    (bySizeAndAge v).isExpired t now = true := by
  rw [isExpired_iff] at he ⊢
  have hle := Duration.le_def.1 h
  omega

/-- What has to leave under the laxer policy and the larger capacity has to leave under the others
as well. -/
theorem evicts_of_le (h : p ≤ q) (hn : m ≤ n) (he : q.evicts now size n oldest = true) :
    p.evicts now size m oldest = true := by
  have hsize : m < size := Nat.lt_of_le_of_lt hn (lt_of_evicts he)
  cases p with
  | bySize => exact decide_eq_true hsize
  | bySizeAndAge v =>
    cases q with
    | bySize => exact h.elim
    | bySizeAndAge w =>
      obtain ⟨t, rfl, ht⟩ := (Option.any_eq_true ..).1 (Bool.and_eq_true_iff.1 he).2
      exact Bool.and_eq_true_iff.2 ⟨decide_eq_true hsize, isExpired_of_le h ht⟩

end RecencyCache.Policy
