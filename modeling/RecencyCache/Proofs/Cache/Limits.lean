import RecencyCache.Proofs.Roster.Size

/-!
# What new limits evict

Setting a capacity or a window evicts what then has to leave. With a window that can be an entry
that had to leave before: it was fresh when there was no room for it, and has aged since. So a
longer window may evict (`longer_window_evicts`), and so may a larger capacity of a cache with a
window (`larger_capacity_evicts`). They leave a cache as it is exactly if it is not overdue under
them, and never evict more than the limits in force would: `setWindow_longer_iff`,
`setCapacity_larger_iff`.
-/
namespace RecencyCache

/-! ## Evicting nothing -/

theorem Shelf.fst_evictExcess_eq_zero_iff {κ ν : Type} {s : Shelf κ ν} :
    s.evictExcess.1 = 0 ↔ s.overfull s.size = false := by
  rw [evictExcess]
  cases hsize : s.size with
  | zero => simp [evictWithin, not_overfull_zero]
  | succ n =>
    obtain ⟨h, -, hpop⟩ := exists_pop (s := s) (by omega)
    rw [evictWithin, hpop, hsize]
    by_cases hover : s.overfull (n + 1) = true <;> simp [hover]

namespace Cache

variable {κ ν : Type}

/-- There are more than `capacity` entries, and more than `window` has passed since the oldest of
them was pushed. -/
structure Overdue (c : Cache κ ν) (capacity : Nat) (window : Duration) : Prop where
  crowded : capacity < c.size
  aged : ∃ t, c.oldestStamp? = .ok (some t) ∧
    t.totalNanos + window.totalNanos < c.clock.now.totalNanos

variable [BEq κ] {c : Cache κ ν} {s : Shelf κ ν} {n : Nat} {w d : Duration}

namespace Shows

theorem overdue_iff (sh : c.Shows s) : c.Overdue n w ↔ (Policy.bySizeAndAge w).evicts
    s.clock.now s.size n (s.oldest?.map (·.record.stamp)) = true := by
  have hiff : c.Overdue n w ↔ n < s.size ∧ ∃ t, s.oldest?.map (·.record.stamp) = some t ∧
      t.totalNanos + w.totalNanos < s.clock.now.totalNanos := by
    rw [← sh.size_eq, ← sh.clock]
    constructor
    · rintro ⟨hsize, t, ht, hlt⟩
      rw [sh.oldestStamp?_eq, Except.ok.injEq] at ht
      exact ⟨hsize, t, ht, hlt⟩
    · rintro ⟨hsize, t, ht, hlt⟩
      exact ⟨hsize, t, by rw [sh.oldestStamp?_eq, ht], hlt⟩
  rw [hiff]
  cases s.oldest?.map (·.record.stamp) with
  | none => simp [Policy.evicts]
  | some t => simp [Policy.evicts_bySizeAndAge_iff]

/-- A cache is left as it is exactly if nothing is evicted. -/
theorem exists_evictExcess (sh : c.Shows s) : ∃ k c', c.evictExcess = .ok (k, c') ∧
    k = s.roster.shrink.1 ∧ (k = 0 ∧ c' = c ↔ s.overfull s.size = false) := by
  have hshrink : s.evictExcess.1 = s.roster.shrink.1 :=
    congrArg Prod.fst (Shelf.roster_evictExcess sh.inv)
  by_cases hover : s.overfull s.size = false
  · refine ⟨0, c, ?_, ?_, by simp [hover]⟩
    · rw [evictExcess, evictWithin.eq_def, sh.size_eq, sh.wouldEvict_eq, hover]
      rfl
    · rw [← hshrink, Shelf.fst_evictExcess_eq_zero_iff.2 hover]
  · obtain ⟨c', hc', -⟩ := sh.follows_evictExcess
    refine ⟨s.evictExcess.1, c', hc', hshrink, ?_⟩
    rw [Shelf.fst_evictExcess_eq_zero_iff]
    exact and_iff_left_of_imp fun h => absurd h hover

/-- A laxer policy and a larger capacity. -/
theorem exists_relaxed {q : Policy} (sh : c.Shows s) (hq : c.policy ≤ q) (hn : c.capacity ≤ n) :
    ∃ k c' m c'', { c with policy := q, capacity := n }.evictExcess = .ok (k, c') ∧
      c.evictExcess = .ok (m, c'') ∧ k ≤ m ∧
      (k = 0 ∧ c' = { c with policy := q, capacity := n } ↔
        q.evicts s.clock.now s.size n (s.oldest?.map (·.record.stamp)) = false) := by
  have sh' : { c with policy := q, capacity := n }.Shows { s with policy := q, capacity := n } :=
    sh.shows_limits (fun _ => n) fun _ => q
  obtain ⟨k, c', hc', hk, hiff⟩ := sh'.exists_evictExcess
  obtain ⟨m, c'', hc'', hm, -⟩ := sh.exists_evictExcess
  rw [sh.policy] at hq
  rw [sh.capacity] at hn
  refine ⟨k, c', m, c'', hc', hc'', ?_, hiff⟩
  rw [hk, hm]
  exact Roster.fst_shrink_le (r := s.roster) hq hn

end Shows

/-! ## A crowd that ages -/

/-- A cache with room for one entry and a window of 100 milliseconds. -/
def narrow : Cache Int64 Unit :=
  empty 1 1 (.bySizeAndAge (.ofMillis 100)) (HashScheme.constant 0).hash

/-- Three pushes at one time, and then `ms` milliseconds. -/
def crowd (ms : UInt64) : List (Op Int64 Unit) :=
  [.command (.push none ⟨0, ()⟩), .command (.push none ⟨1, ()⟩), .command (.push none ⟨2, ()⟩),
    .command (.advance (.ofMillis ms))]

theorem shows_narrow : narrow.Shows
    (Shelf.empty 1 1 (.bySizeAndAge (.ofMillis 100)) (HashScheme.constant 0).hash .initial) :=
  shows_empty (agrees_of_lawful _) ..

theorem exists_crowded (ms : UInt64) : ∃ answers c, narrow.run (crowd ms) = .ok (answers, c) ∧
    c.Reachable (HashScheme.constant 0).hash ∧ c.policy = .bySizeAndAge (.ofMillis 100) ∧
    c.capacity = 1 := by
  obtain ⟨c, hc, sh⟩ := shows_narrow.follows_run (crowd ms)
  exact ⟨_, c, hc, (Reachable.empty ..).run hc, sh.policy, sh.capacity⟩

/-! ## Laxer limits -/

variable [EquivBEq κ] [Inhabited ν] {hash : κ → UInt64}

/-- **A longer window.** It leaves a cache as it is unless the cache is overdue even then, and it
never evicts more than the window in force would. -/
theorem setWindow_longer_iff (ha : Agrees hash) (hc : c.Reachable hash)
    (hw : c.policy = .bySizeAndAge w) (hd : w ≤ d) :
    ∃ k c' m c'', c.setWindow d = .ok (k, c') ∧ c.setWindow w = .ok (m, c'') ∧ k ≤ m ∧
      (k = 0 ∧ c' = { c with policy := .bySizeAndAge d } ↔ ¬ c.Overdue c.capacity d) := by
  obtain ⟨s, sh⟩ := hc.exists_shows ha
  have hq : c.policy ≤ .bySizeAndAge d := hw ▸ Policy.bySizeAndAge_le hd
  obtain ⟨k, c', m, c'', hk, hm, hle, hiff⟩ := sh.exists_relaxed hq (Nat.le_refl _)
  have hsame : { c with policy := .bySizeAndAge w } = c := by rw [← hw]
  refine ⟨k, c', m, c'', ?_, ?_, hle, ?_⟩
  · rw [setWindow, hw]
    exact hk
  · rw [setWindow, hw, Policy.withWindow, hsame]
    exact hm
  · rw [sh.overdue_iff, Bool.not_eq_true]
    exact hiff

/-- A longer window on a cache that is overdue under both. -/
theorem longer_window_of_crowd : ∃ answers c, narrow.run (crowd 201) = .ok (answers, c) ∧
    ∃ k c' m c'', c.setWindow (.ofMillis 200) = .ok (k, c') ∧
      c.setWindow (.ofMillis 100) = .ok (m, c'') ∧ k ≤ m ∧
      (k = 0 ∧ c' = { c with policy := .bySizeAndAge (.ofMillis 200) } ↔
        ¬ c.Overdue c.capacity (.ofMillis 200)) := by
  obtain ⟨answers, c, hc, hreach, hw, -⟩ := exists_crowded 201
  exact ⟨answers, c, hc, setWindow_longer_iff (agrees_of_lawful _) hreach hw (by decide)⟩

/-- **A longer window may evict.** Of three entries that were fresh when they came and are 201
milliseconds old, a window of 200 milliseconds in place of 100 leaves one. -/
theorem longer_window_evicts : Duration.ofMillis 100 ≤ .ofMillis 200 ∧ ∃ c,
    narrow.run (crowd 201 ++ [.command (.setWindow (.ofMillis 200)), .query .entries]) =
      .ok ([.flag true, .flag true, .flag true, .duration (some (.ofMillis 201)), .count 2,
        .entries [⟨2, ()⟩]], c) := by
  obtain ⟨c, hc, -⟩ := shows_narrow.follows_run
    (crowd 201 ++ [.command (.setWindow (.ofMillis 200)), .query .entries])
  exact ⟨by decide, c, hc⟩

/-- **A larger capacity.** It leaves a cache as it is unless the cache has a window and is overdue
even then, and it never evicts more than the capacity in force would. -/
theorem setCapacity_larger_iff (ha : Agrees hash) (hc : c.Reachable hash) (hn : c.capacity < n) :
    ∃ k c' m c'', c.setCapacity n = .ok (k, c') ∧ c.setCapacity c.capacity = .ok (m, c'') ∧
      k ≤ m ∧ (k = 0 ∧ c' = { c with capacity := n } ↔
        ∀ w, c.policy = .bySizeAndAge w → ¬ c.Overdue n w) := by
  obtain ⟨s, sh, hbounded⟩ := hc.exists_shows_roster (P := Roster.Bounded)
    (fun _ _ _ _ => Nat.zero_le _) (fun _ _ h hr => Roster.bounded_of_change h hr) ha
  obtain ⟨k, c', m, c'', hk, hm, hle, hiff⟩ :=
    sh.exists_relaxed (Policy.le_refl c.policy) (Nat.le_of_lt hn)
  refine ⟨k, c', m, c'', hk, hm, hle, hiff.trans ?_⟩
  cases hp : c.policy with
  | bySize =>
    have hsize := hbounded (sh.policy.symm.trans hp)
    rw [Shelf.size_roster] at hsize
    have hroom : s.size ≤ n := by
      have hcapacity : s.roster.capacity = c.capacity := sh.capacity.symm
      omega
    simpa [Policy.evicts] using hroom
  | bySizeAndAge w =>
    rw [← Bool.not_eq_true, ← sh.overdue_iff]
    simp

/-- Room for two where three are overdue. -/
theorem larger_capacity_of_crowd : ∃ answers c, narrow.run (crowd 101) = .ok (answers, c) ∧
    ∃ k c' m c'', c.setCapacity 2 = .ok (k, c') ∧ c.setCapacity c.capacity = .ok (m, c'') ∧
      k ≤ m ∧ (k = 0 ∧ c' = { c with capacity := 2 } ↔
        ∀ w, c.policy = .bySizeAndAge w → ¬ c.Overdue 2 w) := by
  obtain ⟨answers, c, hc, hreach, -, hn⟩ := exists_crowded 101
  exact ⟨answers, c, hc, setCapacity_larger_iff (agrees_of_lawful _) hreach (by rw [hn]; decide)⟩

/-- **A larger capacity may evict.** Of three entries that were fresh when they came and are past
their deadline now, room for two in place of one leaves two. -/
theorem larger_capacity_evicts : ∃ c,
    narrow.run (crowd 101 ++ [.query .capacity, .command (.setCapacity 2), .query .entries]) =
      .ok ([.flag true, .flag true, .flag true, .duration (some (.ofMillis 101)), .count 1,
        .count 1, .entries [⟨2, ()⟩, ⟨1, ()⟩]], c) := by
  obtain ⟨c, hc, -⟩ := shows_narrow.follows_run
    (crowd 101 ++ [.query .capacity, .command (.setCapacity 2), .query .entries])
  exact ⟨c, hc⟩

end Cache
end RecencyCache
