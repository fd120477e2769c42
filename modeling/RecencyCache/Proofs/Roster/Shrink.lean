import RecencyCache.Proofs.Policy
import RecencyCache.Proofs.Roster

/-!
# What a shrinking roster gives up

Shrinking drops records from the old end. What remains is the longest part of which the oldest
record does not have to leave (`shrink_append`, `not_evicts_of_kept`), each dropped record had to
leave when it was the oldest one (`exists_dropped`), and a laxer policy or a larger capacity drops
no more (`fst_shrink_le`).
-/
namespace RecencyCache

/-! ## Trimming a list, oldest record first -/

namespace Policy

variable {κ ν : Type} {p q : Policy} {now : Instant} {m n : Nat}

theorem trim_suffix (p : Policy) (now : Instant) (n : Nat) (l : List (Record κ ν)) :
    p.trim now n l <:+ l := by
  induction l with
  | nil => exact List.suffix_refl []
  | cons r newer ih =>
    unfold trim
    split
    · exact ih.trans (List.suffix_cons r newer)
    · exact List.suffix_refl _

/-- Every record in front of what remains had to leave when all before it had left. -/
theorem exists_trimmed (p : Policy) (now : Instant) (n : Nat) (l : List (Record κ ν)) :
    ∃ out, l = out ++ p.trim now n l ∧ ∀ older x newer, out = older ++ x :: newer →
      p.evicts now ((newer ++ p.trim now n l).length + 1) n (some x.stamp) = true := by
  induction l with
  | nil => exact ⟨[], rfl, fun older x newer h => by simp at h⟩
  | cons r l ih =>
    obtain ⟨out, hout, hevicts⟩ := ih
    unfold trim
    split
    · rename_i hr
      refine ⟨r :: out, congrArg (r :: ·) hout, fun older x newer h => ?_⟩
      cases older with
      | nil =>
        obtain ⟨rfl, rfl⟩ := List.cons.inj h
        rwa [← hout]
      | cons y older => exact hevicts older x newer (List.cons.inj h).2
    · exact ⟨[], rfl, fun older x newer h => by simp at h⟩

/-- The oldest record that remains does not have to leave. -/
theorem not_evicts_of_trim {l newer : List (Record κ ν)} {x : Record κ ν}
    (h : p.trim now n l = x :: newer) :
    p.evicts now (newer.length + 1) n (some x.stamp) = false := by
  induction l with
  | nil => cases h
  | cons r l ih =>
    unfold trim at h
    split at h
    · exact ih h
    · rename_i hr
      obtain ⟨rfl, rfl⟩ := List.cons.inj h
      exact eq_false_of_ne_true hr

/-- More remains under a laxer policy and a larger capacity. -/
theorem trim_suffix_trim (h : p ≤ q) (hn : m ≤ n) (l : List (Record κ ν)) :
    p.trim now m l <:+ q.trim now n l := by
  induction l with
  | nil => exact List.suffix_refl []
  | cons r newer ih =>
    by_cases hq : q.evicts now (newer.length + 1) n (some r.stamp) = true
    · rw [trim, if_pos (evicts_of_le h hn hq), trim, if_pos hq]
      exact ih
    · rw [trim.eq_2 (p := q), if_neg hq]
      exact trim_suffix ..

end Policy

/-! ## Shrinking, one record at a time -/

namespace Roster

variable {κ ν : Type} {r : Roster κ ν} {l : List (Record κ ν)} {x : Record κ ν}

theorem length_kept_le (r : Roster κ ν) : r.kept.length ≤ r.size := by
  have hle := (Policy.trim_suffix r.policy r.clock.now r.capacity r.records.reverse).length_le
  rw [List.length_reverse] at hle
  rwa [kept, List.length_reverse]

/-- A roster that keeps its records stays as it is. -/
theorem shrink_of_kept (h : r.kept = r.records) : r.shrink = (0, r) := by
  simp [shrink, h, size]

/-- Shrinking looks at the oldest record, and goes on if that has to leave. -/
theorem shrink_append (h : r.records = l ++ [x]) : r.shrink =
    if r.policy.evicts r.clock.now r.size r.capacity (some x.stamp) then
      ({ r with records := l }.count .eviction).shrink.map (· + 1) id
    else (0, r) := by
  have hsize : l.reverse.length + 1 = r.size := by
    rw [size, h]
    simp
  have htrim : r.kept = if r.policy.evicts r.clock.now r.size r.capacity (some x.stamp) then
      ({ r with records := l }.count .eviction).kept else r.records := by
    rw [kept, h, List.reverse_append, List.reverse_singleton, List.singleton_append, Policy.trim,
      hsize]
    split
    · rfl
    · simp
  split at htrim
  · rename_i hevict
    have hle := length_kept_le ({ r with records := l }.count .eviction)
    have hlen : ({ r with records := l }.count .eviction).size + 1 = r.size := by
      rw [← hsize, List.length_reverse]
      rfl
    have hleft : r.size - r.kept.length = (({ r with records := l }.count .eviction).size -
        ({ r with records := l }.count .eviction).kept.length) + 1 := by
      rw [htrim]
      omega
    rw [if_pos hevict]
    simp only [shrink, hleft, Prod.map, id]
    rw [htrim]
    simp only [count, Tally.count]
    congr 3
    omega
  · rename_i hevict
    rw [if_neg hevict]
    exact shrink_of_kept htrim

/-- Each dropped record had to leave when it was the oldest one. -/
theorem exists_dropped (r : Roster κ ν) : ∃ dropped, r.records = r.kept ++ dropped ∧
    ∀ newer x older, dropped = newer ++ x :: older → r.policy.evicts r.clock.now
      ((r.kept ++ newer).length + 1) r.capacity (some x.stamp) = true := by
  obtain ⟨out, hout, hevicts⟩ :=
    r.policy.exists_trimmed r.clock.now r.capacity r.records.reverse
  refine ⟨out.reverse, ?_, fun newer x older h => ?_⟩
  · rw [kept, ← List.reverse_append, ← hout, List.reverse_reverse]
  · have hlen : (newer.reverse ++ r.policy.trim r.clock.now r.capacity r.records.reverse).length =
        (r.kept ++ newer).length := by
      simp [kept, Nat.add_comm]
    rw [← hlen]
    refine hevicts older.reverse x newer.reverse ?_
    rw [← List.reverse_reverse out, h]
    simp

/-- The oldest record that is kept does not have to leave. -/
theorem not_evicts_of_kept (h : r.kept = l ++ [x]) :
    r.policy.evicts r.clock.now r.kept.length r.capacity (some x.stamp) = false := by
  have htrim : r.policy.trim r.clock.now r.capacity r.records.reverse = x :: l.reverse := by
    rw [← List.reverse_reverse (Policy.trim ..)]
    exact (congrArg List.reverse h).trans (by simp)
  have hlen : r.kept.length = l.reverse.length + 1 := by simp [h]
  rw [hlen]
  exact Policy.not_evicts_of_trim htrim

/-- A laxer policy and a larger capacity give up no more. -/
theorem fst_shrink_le {q : Policy} {n : Nat} (hq : r.policy ≤ q) (hn : r.capacity ≤ n) :
    { r with policy := q, capacity := n }.shrink.1 ≤ r.shrink.1 := by
  have htrim : r.policy.trim r.clock.now r.capacity r.records.reverse <:+
      q.trim r.clock.now n r.records.reverse := Policy.trim_suffix_trim hq hn _
  have hle := htrim.length_le
  simp only [shrink, kept, size, List.length_reverse]
  omega

end Roster
end RecencyCache
