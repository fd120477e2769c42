import RecencyCache.Proofs.Roster.Pushes
import RecencyCache.Proofs.Roster.Size

/-!
# What pushes leave in a roster

Without a window and without a limit, a roster that is only pushed into holds the newest of the last
pushes of all keys, as many as it has room for (`Retains.push`). So a push finds its key if the key
was pushed before and fewer other keys have been pushed since then than there is room for:
`Retains.isSome_find?_iff`.
-/
namespace RecencyCache

section Log

variable {κ ν : Type} [BEq κ] {log newer : List (Record κ ν)} {x : Record κ ν} {k : κ} {n : Nat}

/-- In a log, newest first, there is a push of key `k`, and after the last one came pushes of fewer
than `n` other keys. -/
def Recurs (log : List (Record κ ν)) (k : κ) (n : Nat) : Prop :=
  ∃ newer x older, log = newer ++ x :: older ∧ (x.entry.key == k) = true ∧
    (∀ y ∈ newer, (y.entry.key == k) = false) ∧ (lastPushes newer).length < n

/-- No key has two last pushes. -/
theorem distinct_lastPushes [EquivBEq κ] (log : List (Record κ ν)) :
    (lastPushes log).Pairwise fun x y => (x.entry.key == y.entry.key) = false := by
  induction log with
  | nil => exact .nil
  | cons x log ih =>
    refine List.pairwise_cons.2 ⟨fun y hy => ?_, ih.filter _⟩
    rw [BEq.comm]
    exact Bool.not_eq_true' _ ▸ (List.mem_filter.1 hy).2

theorem mem_of_mem_lastPushes [EquivBEq κ] (hx : x ∈ lastPushes log) : x ∈ log :=
  List.mem_of_find?_eq_some (lastPush?_of_mem hx)

/-- The last push of a key stands behind those of the keys that were pushed after it. -/
theorem exists_lastPushes_append [EquivBEq κ] (hx : (x.entry.key == k) = true)
    (hnewer : ∀ y ∈ newer, (y.entry.key == k) = false) (older : List (Record κ ν)) :
    ∃ rest, lastPushes (newer ++ x :: older) = lastPushes newer ++ x :: rest := by
  induction newer with
  | nil => exact ⟨_, rfl⟩
  | cons y newer ih =>
    obtain ⟨hy, hnewer⟩ := List.forall_mem_cons.1 hnewer
    obtain ⟨rest, hrest⟩ := ih hnewer
    have hother : (x.entry.key == y.entry.key) = false := by rw [BEq.congr_left hx, BEq.comm, hy]
    refine ⟨rest.filter fun z => !(z.entry.key == y.entry.key), ?_⟩
    rw [List.cons_append, lastPushes, hrest, List.filter_append,
      List.filter_cons_of_pos (by rw [hother]; rfl)]
    rfl

/-- The key is that of one of the `n` newest last pushes if it recurs within `n`. -/
theorem exists_mem_take_iff [EquivBEq κ] :
    (∃ x ∈ (lastPushes log).take n, (x.entry.key == k) = true) ↔ Recurs log k n := by
  constructor
  · rintro ⟨x, hx, hxk⟩
    obtain ⟨y, newer, older, hnewer, hyk, hlog, -⟩ :=
      List.exists_of_eraseP (p := (·.entry.key == k))
        (mem_of_mem_lastPushes (List.mem_of_mem_take hx)) hxk
    have hother : ∀ z ∈ newer, (z.entry.key == k) = false := fun z hz =>
      eq_false_of_ne_true (hnewer z hz)
    obtain ⟨rest, hrest⟩ := exists_lastPushes_append hyk hother older
    refine ⟨newer, y, older, hlog, hyk, hother, ?_⟩
    -- else the `n` newest are last pushes of other keys
    by_contra hn
    rw [hlog, hrest, List.take_append_of_le_length (Nat.le_of_not_lt hn)] at hx
    have hxnewer := mem_of_mem_lastPushes (List.mem_of_mem_take hx)
    rw [hother x hxnewer] at hxk
    cases hxk
  · rintro ⟨newer, x, older, rfl, hxk, hother, hlt⟩
    obtain ⟨rest, hrest⟩ := exists_lastPushes_append hxk hother older
    obtain ⟨m, hm⟩ := Nat.exists_eq_add_of_lt hlt
    refine ⟨x, ?_, hxk⟩
    rw [hrest, hm, Nat.add_assoc, List.take_length_add_append, List.take_succ_cons]
    exact List.mem_append_right _ List.mem_cons_self

end Log

/-! ## Taking and leaving out -/

section Lists

variable {α : Type} {q : α → Bool} {l : List α} {n : Nat}

/-- The first `n` of those that stay, where nothing among the first `n` has to go. -/
theorem take_filter_not_of_forall (h : ∀ x ∈ l.take n, q x = false) :
    (l.filter fun x => !q x).take n = l.take n := by
  induction l generalizing n with
  | nil => rfl
  | cons x l ih =>
    cases n with
    | zero => rfl
    | succ n =>
      obtain ⟨hx, hl⟩ := List.forall_mem_cons.1 h
      rw [List.filter_cons_of_pos (by rw [hx]; rfl), List.take_succ_cons, List.take_succ_cons,
        ih hl]

/-- The first `n` of those that stay, where one of the first `n + 1` has to go and no other. -/
theorem take_filter_not_of_exists (hl : l.Pairwise fun x y => q x = true → q y = false)
    (h : ∃ x ∈ l.take (n + 1), q x = true) :
    (l.filter fun x => !q x).take n = (l.take (n + 1)).eraseP q := by
  induction l generalizing n with
  | nil => simp at h
  | cons x l ih =>
    obtain ⟨hx, hl⟩ := List.pairwise_cons.1 hl
    rw [List.take_succ_cons] at h ⊢
    cases hq : q x with
    | true =>
      rw [List.filter_cons_of_neg (by rw [hq]; exact Bool.false_ne_true),
        List.eraseP_cons_of_pos hq]
      exact take_filter_not_of_forall fun y hy => hx y (List.mem_of_mem_take hy) hq
    | false =>
      obtain ⟨y, hy, hyq⟩ := h
      rcases List.mem_cons.1 hy with rfl | hy
      · rw [hq] at hyq
        cases hyq
      · obtain ⟨n, rfl⟩ := Nat.exists_eq_succ_of_ne_zero (n := n) fun hn => by simp [hn] at hy
        rw [List.filter_cons_of_pos (by rw [hq]; rfl), List.take_succ_cons,
          List.eraseP_cons_of_neg (by rw [hq]; exact Bool.false_ne_true), ih hl ⟨y, hy, hyq⟩]

end Lists

namespace Roster

variable {κ ν : Type} {r : Roster κ ν} {log : List (Record κ ν)} {e : Entry κ ν} {k : κ}

/-- Without a window one more record is too many where the capacity is reached, and where there is
one record already. -/
theorem full_iff (hp : r.policy = .bySize) : r.full = true ↔ max r.capacity 1 ≤ r.size := by
  constructor
  · intro h
    obtain ⟨l, x, -, hevicts⟩ := exists_of_full h
    rw [hp] at hevicts
    exact Nat.max_le.2 ⟨Nat.le_of_lt_succ (of_decide_eq_true hevicts), size_pos_of_full h⟩
  · intro h
    by_contra hfull
    have hroom := size_lt_of_not_full hp (eq_false_of_ne_true hfull)
    omega

variable [BEq κ]

/-- The records are the newest of the last pushes in the log, as many as there is room for. -/
structure Retains (r : Roster κ ν) (log : List (Record κ ν)) : Prop where
  policy : r.policy = .bySize
  limit : r.limit = none
  records : r.records = (lastPushes log).take (max r.capacity 1)

variable [EquivBEq κ]

/-- A key is found if it recurs within the capacity. -/
theorem Retains.isSome_find?_iff (h : r.Retains log) :
    (r.find? k).isSome = true ↔ Recurs log k (max r.capacity 1) := by
  rw [Roster.isSome_find?_iff, h.records, exists_mem_take_iff]

/-- Behind a pushed entry stay the newest of the last pushes of other keys. -/
theorem Retains.behind_eq (h : r.Retains log) {n : Nat} (hn : max r.capacity 1 = n + 1) (k : κ) :
    r.behind k = ((lastPushes log).filter fun x => !(x.entry.key == k)).take n := by
  have hrecords := h.records
  rw [hn] at hrecords
  by_cases hk : (r.find? k).isSome = true
  · have hsingle : (lastPushes log).Pairwise fun x y =>
        (x.entry.key == k) = true → (y.entry.key == k) = false :=
      (distinct_lastPushes log).imp fun {x y} hxy hx => by
        rw [← BEq.congr_right hx, BEq.comm]
        exact hxy
    rw [behind, if_pos hk, without, hrecords, take_filter_not_of_exists hsingle]
    rwa [Roster.isSome_find?_iff, hrecords] at hk
  · have hothers := find?_eq_none_iff.1 (Option.not_isSome_iff_eq_none.1 hk)
    rw [behind, if_neg hk]
    rw [hrecords] at hothers
    rw [take_filter_not_of_forall fun x hx =>
      hothers x ((List.take_subset_take_left _ (Nat.le_succ n)) hx)]
    by_cases hfull : r.full = true
    · have hsize : n + 1 ≤ (lastPushes log).length := by
        have hle := (full_iff h.policy).1 hfull
        rw [hn, size, hrecords, List.length_take] at hle
        omega
      rw [if_pos hfull, hrecords, List.dropLast_eq_take, List.length_take_of_le hsize,
        List.take_take]
      exact congrArg (List.take · _) (Nat.min_eq_left (Nat.le_succ n))
    · have hsize : (lastPushes log).length ≤ n := by
        have hlt := mt (full_iff h.policy).2 hfull
        rw [hn, size, hrecords, List.length_take] at hlt
        omega
      rw [if_neg hfull, hrecords, List.take_of_length_le hsize,
        List.take_of_length_le (Nat.le_succ_of_le hsize)]

/-- **One push.** -/
theorem Retains.push (h : r.Retains log) (e : Entry κ ν) :
    (r.push e).2.Retains (r.stamped e :: log) := by
  obtain ⟨-, halike, hrecords⟩ := push_eq h.limit e
  obtain ⟨n, hn⟩ := Nat.exists_eq_succ_of_ne_zero (n := max r.capacity 1) (by omega)
  rw [h.behind_eq hn] at hrecords
  rw [halike]
  refine ⟨h.policy, h.limit, ?_⟩
  show (r.push e).2.records = (lastPushes (r.stamped e :: log)).take (max r.capacity 1)
  rw [hrecords, hn]
  rfl

end Roster
end RecencyCache
