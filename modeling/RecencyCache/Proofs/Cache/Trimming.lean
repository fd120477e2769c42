import RecencyCache.Proofs.Cache.Limits
import RecencyCache.Proofs.Cache.Nesting
import RecencyCache.Proofs.Roster.Aging

/-!
# How many entries new limits evict

The entries of a reachable cache stand in the order of their last pushes. So new limits evict as
many of the oldest entries as are too many, as far as there are that many entries past their
deadline anywhere in the cache, and the same limits a second time evict nothing:
`new_limits_trim`.
-/
namespace RecencyCache

theorem Policy.withWindow_withWindow (p : Policy) (d : Duration) :
    (p.withWindow d).withWindow d = p.withWindow d := by
  cases p <;> rfl

namespace Cache

variable {κ ν : Type} [BEq κ] {c : Cache κ ν} {s : Shelf κ ν}

/-- From the cache `c`, which has the records `l`, evictions lead to `c'`, `k` in number. -/
structure Trims (c : Cache κ ν) (l : List (Record κ ν)) (k : Nat) (c' : Cache κ ν) : Prop where
  /-- As many records leave as are too many, as far as there are that many that may leave. -/
  count : k = min (l.length - c.capacity) (l.countP (c.policy.mayLeave c.clock.now))
  /-- The newest records stay. -/
  records : c'.records = .ok (l.take (l.length - k))
  entries : c'.toList = .ok ((l.map Record.entry).take (l.length - k))
  capacity : c'.capacity = c.capacity
  policy : c'.policy = c.policy
  clock : c'.clock = c.clock
  tally : c'.tally = { c.tally with evictions := c.tally.evictions + k }
  /-- No record is too many, or there is a window and no entry is past its deadline. -/
  settled : c'.size ≤ c.capacity ∨
    c.policy ≠ .bySize ∧ ∀ key, c'.isExpired key = .ok false

namespace Shows

/-- Evictions leave the shelf that its roster shrinks to. -/
theorem exists_shrink (sh : c.Shows s) : ∃ s' c', c.evictExcess = .ok (s.roster.shrink.1, c') ∧
    c'.Shows s' ∧ s'.roster = s.roster.shrink.2 := by
  obtain ⟨c', hc', sh'⟩ := sh.follows_evictExcess
  have hshrink := Shelf.roster_evictExcess sh.inv
  refine ⟨s.evictExcess.2, c', ?_, sh', congrArg Prod.snd hshrink⟩
  rw [hc', ← congrArg Prod.fst hshrink]
  rfl

/-- Where nothing has to leave, evictions leave the cache as it is. -/
theorem evictExcess_of_shrink (sh : c.Shows s) (h : s.roster.shrink.1 = 0) :
    c.evictExcess = .ok (0, c) := by
  have hzero : s.evictExcess.1 = 0 :=
    (congrArg Prod.fst (Shelf.roster_evictExcess sh.inv)).trans h
  obtain ⟨k, c', hc', -, hiff⟩ := sh.exists_evictExcess
  obtain ⟨rfl, rfl⟩ := hiff.2 (Shelf.fst_evictExcess_eq_zero_iff.1 hzero)
  exact hc'

variable [EquivBEq κ]

/-- An entry that is past its deadline may leave. -/
theorem isExpired_eq_false (sh : c.Shows s) (k : κ)
    (h : ∀ x ∈ s.roster.records, c.policy.mayLeave c.clock.now x = false) :
    c.isExpired k = .ok false := by
  rw [sh.isExpired_eq, Except.ok.injEq, Option.any_eq_false]
  intro x hx
  refine eq_false_of_ne_true fun hexpired => ?_
  rw [← sh.policy, ← sh.clock] at hexpired
  have hmay := Policy.mayLeave_of_isExpired hexpired
  rw [h x.record (List.mem_map_of_mem (Shelf.mem_of_find? hx))] at hmay
  cases hmay

/-- **Evictions.** They leave a cache trimmed, and after them there is nothing to evict. -/
theorem exists_trims (sh : c.Shows s) (h : s.roster.InOrder) :
    ∃ k c', c.evictExcess = .ok (k, c') ∧ c.Trims s.roster.records k c' ∧
      c'.evictExcess = .ok (0, c') := by
  obtain ⟨s', c', hc', sh', hs'⟩ := sh.exists_shrink
  have hshrink := h.shrink_eq
  have hrecords : s'.roster.records = s.roster.records.take (s.roster.size - s.roster.excess) := by
    rw [hs', hshrink]
  rw [hshrink] at hc'
  have hagain : s'.roster.shrink.1 = 0 := by
    rw [hs', h.shrink_shrink]
  refine ⟨s.roster.excess, c', hc', ?_, sh'.evictExcess_of_shrink hagain⟩
  have hcapacity : s'.capacity = s.capacity :=
    (congrArg Roster.capacity hs').trans (by rw [hshrink]; rfl)
  have hpolicy : s'.policy = s.policy :=
    (congrArg Roster.policy hs').trans (by rw [hshrink]; rfl)
  have hclock : s'.clock = s.clock :=
    (congrArg Roster.clock hs').trans (by rw [hshrink]; rfl)
  have htally : s'.tally = { s.tally with evictions := s.tally.evictions + s.roster.excess } :=
    (congrArg Roster.tally hs').trans (by rw [hshrink]; rfl)
  exact {
    count := by rw [sh.capacity, sh.policy, sh.clock]; rfl
    records := by rw [sh'.records_eq, hrecords]; rfl
    entries := by
      rw [sh'.toList_eq, ← Shelf.entries_roster, Roster.entries, hrecords, List.map_take]
      rfl
    capacity := by rw [sh'.capacity, hcapacity, sh.capacity]
    policy := by rw [sh'.policy, hpolicy, sh.policy]
    clock := by rw [sh'.clock, hclock, sh.clock]
    tally := by rw [sh'.tally, htally, sh.tally]
    settled := by
      have hsize : c'.size = s.roster.shrink.2.size := by
        rw [sh'.size_eq, ← Shelf.size_roster, hs']
      rw [hsize, sh.capacity, sh.policy]
      rcases Nat.lt_or_ge s.roster.capacity s.roster.shrink.2.size with hlt | hle
      · refine .inr ⟨h.windowed_of_lt hlt, fun key => sh'.isExpired_eq_false key ?_⟩
        rw [sh'.policy, sh'.clock, hpolicy, hclock, hs']
        exact h.settled.resolve_left (Nat.not_le_of_lt hlt)
      · exact .inl hle }

end Shows

variable [EquivBEq κ] [Inhabited ν] {hash : κ → UInt64}

/-- **New limits.** The records of a cache stand in the order of their pushes. A new capacity and a
new window evict as many of the oldest entries as are too many, as far as there are that many that
may leave under the new limits, and answer their number. The same limits once more evict nothing. -/
theorem new_limits_trim (ha : Agrees hash) (hc : c.Reachable hash) :
    ∃ l, c.records = .ok l ∧ c.toList = .ok (l.map Record.entry) ∧
      (l.Pairwise fun newer older => older.stamp.totalNanos ≤ newer.stamp.totalNanos) ∧
      (∀ n, ∃ k c', c.setCapacity n = .ok (k, c') ∧ { c with capacity := n }.Trims l k c' ∧
        c'.setCapacity n = .ok (0, c')) ∧
      ∀ d, ∃ k c', c.setWindow d = .ok (k, c') ∧
        { c with policy := c.policy.withWindow d }.Trims l k c' ∧
        c'.setWindow d = .ok (0, c') := by
  obtain ⟨s, sh, horder⟩ := hc.exists_shows_roster (P := Roster.InOrder)
    (fun _ _ _ => ⟨List.Pairwise.nil, fun _ hx => absurd hx List.not_mem_nil⟩)
    (fun _ _ h hr => Roster.inOrder_of_change h hr) ha
  refine ⟨s.roster.records, sh.records_eq, ?_, horder.sorted, fun n => ?_, fun d => ?_⟩
  · rw [sh.toList_eq, ← Shelf.entries_roster]
    rfl
  · have sh' := sh.shows_limits (fun _ => n) id
    obtain ⟨k, c', hk, htrims, hagain⟩ := sh'.exists_trims { horder with }
    have hsame : c'.capacity = n := htrims.capacity
    refine ⟨k, c', hk, htrims, ?_⟩
    rw [setCapacity, ← hsame]
    exact hagain
  · have sh' := sh.shows_limits id (·.withWindow d)
    obtain ⟨k, c', hk, htrims, hagain⟩ := sh'.exists_trims { horder with }
    have hsame : c'.policy = c.policy.withWindow d := htrims.policy
    refine ⟨k, c', hk, htrims, ?_⟩
    rw [setWindow, hsame, Policy.withWindow_withWindow, ← hsame]
    exact hagain

/-- Three entries are past a window of 200 milliseconds. -/
theorem new_limits_trim_crowd : ∃ answers c, narrow.run (crowd 201) = .ok (answers, c) ∧
    ∃ l, c.records = .ok l ∧ c.toList = .ok (l.map Record.entry) ∧
      (l.Pairwise fun newer older => older.stamp.totalNanos ≤ newer.stamp.totalNanos) ∧
      (∀ n, ∃ k c', c.setCapacity n = .ok (k, c') ∧ { c with capacity := n }.Trims l k c' ∧
        c'.setCapacity n = .ok (0, c')) ∧
      ∀ d, ∃ k c', c.setWindow d = .ok (k, c') ∧
        { c with policy := c.policy.withWindow d }.Trims l k c' ∧
        c'.setWindow d = .ok (0, c') := by
  obtain ⟨answers, c, hc, hreach, -, -⟩ := exists_crowded 201
  exact ⟨answers, c, hc, new_limits_trim (agrees_of_lawful _) hreach⟩

end Cache
end RecencyCache
