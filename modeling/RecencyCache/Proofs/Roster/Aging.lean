import RecencyCache.Proofs.Roster.Change
import RecencyCache.Proofs.Roster.Shrink
import RecencyCache.Proofs.Time.HandClock

/-!
# Older records stand further back

A push stamps its record with the time and puts it in front, and the clock never goes back. So the
records of a roster stand in the order of their pushes, most recent first, whatever the changes:
`inOrder_of_change`. In a roster in that order the records that may leave are the oldest ones, and
a shrinking roster, which looks at its oldest record only, gives up as many of them as are too many
(`shrink_eq`). A second time it gives up nothing (`shrink_shrink`).
-/
namespace RecencyCache

/-! ## Records that may leave -/

namespace Policy

variable {κ ν : Type} {p : Policy} {now : Instant} {n : Nat} {x y : Record κ ν}
  {l : List (Record κ ν)}

/-- Whether a record may leave when there are too many. With a window that is one past its deadline,
without a window it is any record. -/
def mayLeave (p : Policy) (now : Instant) (x : Record κ ν) : Bool :=
  match p with
  | bySize => true
  | bySizeAndAge _ => p.isExpired x.stamp now

theorem evicts_some (size : Nat) :
    p.evicts now size n (some x.stamp) = (decide (n < size) && p.mayLeave now x) := by
  cases p with
  | bySize => exact (Bool.and_true _).symm
  | bySizeAndAge w => rfl

theorem mayLeave_of_isExpired (h : p.isExpired x.stamp now = true) : p.mayLeave now x = true := by
  cases p with
  | bySize => rfl
  | bySizeAndAge w => exact h

/-- What was pushed earlier may leave earlier. -/
theorem mayLeave_of_le (h : x.stamp.totalNanos ≤ y.stamp.totalNanos)
    (hy : p.mayLeave now y = true) : p.mayLeave now x = true := by
  cases p with
  | bySize => rfl
  | bySizeAndAge w =>
    have hlt := isExpired_iff.1 hy
    exact isExpired_iff.2 (by omega)

/-- Trimming, oldest record first, where no record that may leave stands behind one that may not. -/
theorem trim_eq_drop (h : l.Pairwise fun x y => p.mayLeave now y = true → p.mayLeave now x = true) :
    p.trim now n l = l.drop (min (l.length - n) (l.countP (p.mayLeave now))) := by
  induction l with
  | nil => rw [List.drop_nil, trim]
  | cons r newer ih =>
    obtain ⟨hr, hnewer⟩ := List.pairwise_cons.1 h
    rw [trim, evicts_some, ih hnewer, List.length_cons]
    cases hmay : p.mayLeave now r with
    | false =>
      have hnone : (r :: newer).countP (p.mayLeave now) = 0 := by
        refine List.countP_eq_zero.2 fun x hx hxmay => ?_
        rcases List.mem_cons.1 hx with rfl | hx
        · rw [hmay] at hxmay
          cases hxmay
        · rw [hr x hx hxmay] at hmay
          cases hmay
      simp [hnone]
    | true =>
      rw [Bool.and_true, List.countP_cons_of_pos hmay]
      by_cases hlt : n < newer.length + 1
      · have hmin : min (newer.length + 1 - n) (newer.countP (p.mayLeave now) + 1) =
            min (newer.length - n) (newer.countP (p.mayLeave now)) + 1 := by omega
        rw [if_pos (decide_eq_true hlt), hmin, List.drop_succ_cons]
      · have hmin : min (newer.length + 1 - n) (newer.countP (p.mayLeave now) + 1) = 0 := by omega
        rw [if_neg (mt of_decide_eq_true hlt), hmin, List.drop_zero]

end Policy

/-! ## The order of the pushes -/

namespace Roster

variable {κ ν : Type} {r r' : Roster κ ν} {l : List (Record κ ν)}

/-- The records stand in the order of their pushes, most recent first, and none of the pushes is yet
to come. -/
structure InOrder (r : Roster κ ν) : Prop where
  sorted : r.records.Pairwise fun x y => y.stamp.totalNanos ≤ x.stamp.totalNanos
  past : ∀ x ∈ r.records, x.stamp.totalNanos ≤ r.clock.now.totalNanos

namespace InOrder

/-- Some of the records, or the same ones with other entries. -/
theorem of_stamps (h : r.InOrder) (hl : (r'.records.map Record.stamp).Sublist
    (r.records.map Record.stamp)) (hc : r.clock.now.totalNanos ≤ r'.clock.now.totalNanos) :
    r'.InOrder := by
  have hsorted : (r.records.map Record.stamp).Pairwise fun s t => t.totalNanos ≤ s.totalNanos :=
    List.pairwise_map.2 h.sorted
  refine ⟨List.pairwise_map.1 (hsorted.sublist hl), fun x hx => ?_⟩
  obtain ⟨y, hy, hstamp⟩ := List.mem_map.1 (hl.subset (List.mem_map_of_mem hx))
  rw [← hstamp]
  exact Int.le_trans (h.past y hy) hc

/-- Some of the records. -/
theorem of_sublist (h : r.InOrder) (hl : r'.records.Sublist r.records)
    (hc : r'.clock = r.clock) : r'.InOrder :=
  h.of_stamps (hl.map Record.stamp) (Int.le_of_eq (by rw [hc]))

/-- A new record in front. -/
theorem cons (h : r.InOrder) (e : Entry κ ν) (hl : l.Sublist r.records) (t : Tally) :
    { r with records := r.stamped e :: l, tally := t }.InOrder where
  sorted := List.pairwise_cons.2 ⟨fun x hx => h.past x (hl.subset hx), h.sorted.sublist hl⟩
  past := List.forall_mem_cons.2 ⟨Int.le_refl _, fun x hx => h.past x (hl.subset hx)⟩

/-- The oldest records may leave first. -/
theorem mayLeave (h : r.InOrder) (p : Policy) (now : Instant) :
    r.records.Pairwise fun x y => p.mayLeave now x = true → p.mayLeave now y = true :=
  h.sorted.imp Policy.mayLeave_of_le

end InOrder

theorem inOrder_of_change [BEq κ] (h : r.Change r') (hr : r.InOrder) : r'.InOrder := by
  cases h with
  | refresh e hfind => exact hr.cons e List.eraseP_sublist _
  | displace e hfind hfull => exact hr.cons e (List.dropLast_sublist _) _
  | insert e hfind hfull hlimit => exact hr.cons e (List.Sublist.refl _) _
  | evict l x hl => exact hr.of_sublist (hl ▸ List.sublist_append_left l [x]) rfl
  | remove k => exact hr.of_sublist List.eraseP_sublist rfl
  | clear => exact hr.of_sublist (List.nil_sublist _) rfl
  | overwrite k v =>
    have hstamp : (Record.stamp ∘ fun y : Record κ ν =>
        if y.entry.key == k then { y with entry.value := v } else y) = Record.stamp := by
      funext y
      simp only [Function.comp]
      split <;> rfl
    refine hr.of_stamps ?_ (Int.le_refl _)
    rw [List.map_map, hstamp]
  | setCapacity n =>
    obtain ⟨dropped, hkept, -⟩ := { r with capacity := n }.exists_dropped
    exact hr.of_sublist (hkept ▸ List.sublist_append_left _ dropped) rfl
  | setWindow d =>
    obtain ⟨dropped, hkept, -⟩ := { r with policy := r.policy.withWindow d }.exists_dropped
    exact hr.of_sublist (hkept ▸ List.sublist_append_left _ dropped) rfl
  | limitNodes n => exact hr.of_sublist (List.Sublist.refl _) rfl
  | advance d => exact hr.of_stamps (List.Sublist.refl _) (r.clock.now_le_advance d)

/-! ## Shrinking in closed form -/

/-- How many records a shrinking roster gives up: those that are too many, as far as records may
leave at all. -/
def excess (r : Roster κ ν) : Nat :=
  min (r.size - r.capacity) (r.records.countP (r.policy.mayLeave r.clock.now))

theorem excess_le_size (r : Roster κ ν) : r.excess ≤ r.size :=
  Nat.le_trans (Nat.min_le_left ..) (Nat.sub_le ..)

namespace InOrder

theorem kept_eq (h : r.InOrder) : r.kept = r.records.take (r.size - r.excess) := by
  have hmay : r.records.reverse.Pairwise fun x y => r.policy.mayLeave r.clock.now y = true →
      r.policy.mayLeave r.clock.now x = true := List.pairwise_reverse.2 (h.mayLeave ..)
  rw [kept, Policy.trim_eq_drop hmay, List.length_reverse, List.countP_reverse, List.drop_reverse,
    List.reverse_reverse]
  rfl

theorem shrink_eq (h : r.InOrder) : r.shrink = (r.excess, { r with
    records := r.records.take (r.size - r.excess)
    tally := { r.tally with evictions := r.tally.evictions + r.excess } }) := by
  have hle := r.excess_le_size
  have hlen : r.size - r.kept.length = r.excess := by
    rw [h.kept_eq, List.length_take]
    unfold size at *
    omega
  rw [shrink, hlen, h.kept_eq]

theorem shrink (h : r.InOrder) : r.shrink.2.InOrder := by
  rw [h.shrink_eq]
  exact h.of_sublist (List.take_sublist ..) rfl

/-- Afterwards no record is too many, or none may leave. -/
theorem settled (h : r.InOrder) : r.shrink.2.size ≤ r.capacity ∨
    ∀ x ∈ r.shrink.2.records, r.policy.mayLeave r.clock.now x = false := by
  rcases List.eq_nil_or_concat' r.kept with hnil | ⟨l, x, hlast⟩
  · refine .inl ?_
    show r.kept.length ≤ r.capacity
    simp [hnil]
  · have hstays := not_evicts_of_kept hlast
    rw [Policy.evicts_some, Bool.and_eq_false_iff] at hstays
    refine hstays.imp (fun hle => Nat.le_of_not_lt (of_decide_eq_false hle)) fun hx y hy => ?_
    -- the oldest record that is kept may not leave, so no newer one may
    have hmay := h.shrink.mayLeave r.policy r.clock.now
    rw [show r.shrink.2.records = l ++ [x] from hlast, List.pairwise_append] at hmay
    rw [show r.shrink.2.records = l ++ [x] from hlast, List.mem_append, List.mem_singleton] at hy
    rcases hy with hy | rfl
    · refine eq_false_of_ne_true fun hyt => ?_
      rw [hmay.2.2 y hy x (List.mem_singleton_self x) hyt] at hx
      cases hx
    · exact hx

/-- Without a window no record is too many afterwards. -/
theorem windowed_of_lt (h : r.InOrder) (hsize : r.capacity < r.shrink.2.size) :
    r.policy ≠ .bySize := by
  intro hp
  rcases h.settled with hle | hmay
  · exact Nat.not_lt_of_le hle hsize
  · obtain ⟨x, hx⟩ := List.exists_mem_of_length_pos (Nat.zero_lt_of_lt hsize)
    rw [hp] at hmay
    exact Bool.noConfusion (hmay x hx)

/-- A second time nothing leaves. -/
theorem shrink_shrink (h : r.InOrder) : r.shrink.2.shrink = (0, r.shrink.2) := by
  have hnone : r.shrink.2.excess = 0 := by
    rcases h.settled with hsize | hmay
    · exact Nat.eq_zero_of_le_zero (Nat.le_trans (Nat.min_le_left ..)
        (Nat.le_of_eq (Nat.sub_eq_zero_of_le hsize)))
    · refine Nat.eq_zero_of_le_zero (Nat.le_trans (Nat.min_le_right ..) ?_)
      refine Nat.le_of_eq (List.countP_eq_zero.2 fun x hx hxmay => ?_)
      exact absurd hxmay (ne_true_of_eq_false (hmay x hx))
  refine shrink_of_kept ?_
  rw [h.shrink.kept_eq, hnone]
  exact List.take_length

end InOrder
end Roster
end RecencyCache
