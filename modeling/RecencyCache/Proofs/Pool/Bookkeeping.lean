import Mathlib.Data.List.Induction
import Mathlib.Data.List.Nodup
import Mathlib.Data.List.Perm.Subperm
import Mathlib.Order.Bounds.Basic
import RecencyCache.Proofs.Pool

/-!
# The free stack, the count and the slots agree

A pool says three times which of its slots are vacant: in the slots themselves, by the free stack
and by the count of its items. `Booked p` says that all three agree, and every step keeps that, also
one with the number of a slot that is vacant, was vacated before or is not there. An item is stored
in a vacant slot if there is one, so a pool has as many slots as it ever held items at a time:
`run_booked`.
-/
namespace RecencyCache.Pool

/-- What can be done to a pool. -/
inductive Step (α : Type) where
  | store (a : α)
  | release (i : SlotId)
  | renew (i : SlotId)
  | setLimit (limit : Option Nat)
  | clear

variable {α : Type}

/-- One step; an item that is refused leaves the pool as it is. -/
def apply (p : Pool α) : Step α → Except Fault (Pool α)
  | .store a => do
    match ← p.store a with
    | .refused _ => pure p
    | .granted _ q => pure q
  | .release i => do
    let (_, q) ← p.release i
    pure q
  | .renew i => pure (p.renew i)
  | .setLimit limit => pure (p.setLimit limit)
  | .clear => pure p.clear

/-- All steps in order. -/
def run (p : Pool α) (steps : List (Step α)) : Except Fault (Pool α) :=
  steps.foldlM apply p

/-- The number of slots that hold an item. -/
def occupied (p : Pool α) : Nat :=
  (List.range p.slots.size).countP fun i => (p.get? i).isSome

/-- The free stack holds every vacant slot once, and the items are counted. -/
structure Booked (p : Pool α) : Prop where
  nodup : p.free.Nodup
  mem_free : ∀ i, i ∈ p.free ↔ i < p.slots.size ∧ p.get? i = none
  live : p.live = p.occupied

/-- `q` is `p` with the item `a` in slot `i`, which was vacant or is new. -/
structure Stored (p : Pool α) (a : α) (i : SlotId) (q : Pool α) : Prop where
  vacant : p.get? i = none
  item : q.get? i = some a
  other : ∀ j, j ≠ i → q.get? j = p.get? j ∧ q.generation? j = p.generation? j
  /-- A slot is new only where none is free. -/
  free : p.free = i :: q.free ∧ q.slots.size = p.slots.size ∨
    p.free = [] ∧ q.free = [] ∧ i = p.slots.size ∧ q.slots.size = p.slots.size + 1
  live : q.live = p.live + 1
  limit : q.limit = p.limit

variable {p q : Pool α} {i j : SlotId} {a : α}

theorem lt_size_of_get? (h : p.get? i = some a) : i < p.slots.size := by
  obtain ⟨s, hs, -⟩ := Option.bind_eq_some_iff.1 h
  exact (Array.getElem?_eq_some_iff.1 hs).1

theorem get?_eq_none_of_size_le (h : p.slots.size ≤ i) : p.get? i = none := by
  rw [get?, Array.getElem?_eq_none h, Option.bind_none]

/-! ## Counting -/

/-- A list of items in slots of their own is no longer than there are occupied slots. -/
theorem length_le_occupied {l : List SlotId} (hn : l.Nodup) (h : ∀ i ∈ l, (p.get? i).isSome) :
    l.length ≤ p.occupied := by
  rw [occupied, List.countP_eq_length_filter]
  refine (hn.subperm fun i hi => ?_).length_le
  obtain ⟨a, ha⟩ := Option.isSome_iff_exists.1 (h i hi)
  exact List.mem_filter.2 ⟨List.mem_range.2 (lt_size_of_get? ha), h i hi⟩

/-- A slot is occupied or on the free stack. -/
theorem occupied_add_length (hn : p.free.Nodup)
    (hf : ∀ i, i ∈ p.free ↔ i < p.slots.size ∧ p.get? i = none) :
    p.occupied + p.free.length = p.slots.size := by
  have hperm : p.free.Perm
      ((List.range p.slots.size).filter fun i => decide ¬(p.get? i).isSome = true) := by
    refine (List.perm_ext_iff_of_nodup hn (List.nodup_range.filter _)).2 fun i => ?_
    rw [hf, List.mem_filter, List.mem_range, decide_eq_true_eq, Option.not_isSome_iff_eq_none]
  rw [occupied, hperm.length_eq, ← List.countP_eq_length_filter,
    ← List.length_eq_countP_add_countP, List.length_range]

theorem booked_of_length (hn : p.free.Nodup)
    (hf : ∀ i, i ∈ p.free ↔ i < p.slots.size ∧ p.get? i = none)
    (hl : p.live + p.free.length = p.slots.size) : p.Booked where
  nodup := hn
  mem_free := hf
  live := Nat.add_right_cancel (hl.trans (occupied_add_length hn hf).symm)

namespace Booked

variable (booked : p.Booked)
include booked

theorem live_add_length : p.live + p.free.length = p.slots.size := by
  rw [booked.live, occupied_add_length booked.nodup booked.mem_free]

theorem live_pos (h : p.get? i = some a) : 0 < p.live := by
  rw [booked.live, occupied, List.countP_pos_iff]
  exact ⟨i, List.mem_range.2 (lt_size_of_get? h), by rw [h, Option.isSome_some]⟩

/-! ## One step -/

/-- Storing is refused where the limit is reached, and goes through otherwise. -/
theorem store_cases (a : α) :
    (∃ n, p.limit = some n ∧ n ≤ p.live ∧ p.store a = .ok (.refused n)) ∨
      ∃ i q, p.store a = .ok (.granted i q) ∧ p.Stored a i q := by
  cases hl : p.reachedLimit? with
  | some n =>
    obtain ⟨hn, hle⟩ := Option.filter_eq_some_iff.1 hl
    exact .inl ⟨n, hn, of_decide_eq_true hle, by rw [store, hl]⟩
  | none =>
    refine .inr ?_
    cases hfree : p.free with
    | nil =>
      refine ⟨p.slots.size, p.grow a, by rw [store, hl, hfree], ?_⟩
      exact {
        vacant := get?_eq_none_of_size_le (Nat.le_refl _)
        item := by rw [get?_grow, if_pos rfl]
        other := fun j hj => ⟨by rw [get?_grow, if_neg hj], by rw [generation?_grow, if_neg hj]⟩
        free := .inr ⟨hfree, hfree, rfl, Array.size_push ..⟩
        live := rfl
        limit := rfl }
    | cons i free =>
      obtain ⟨hi, hv⟩ := (booked.mem_free i).1 (by rw [hfree]; exact List.mem_cons_self)
      obtain ⟨q, hq, hfree', hlive, hlimit, hsize, hgen⟩ :=
        fill_of_vacant (p := { p with free }) hi hv a
      refine ⟨i, q, by rw [store, hl, hfree]; simp only [hq, Fault.ok_bind, Fault.pure_eq], ?_⟩
      exact {
        vacant := hv
        item := by rw [get?_fill hq, if_pos rfl]
        other := fun j hj => ⟨by rw [get?_fill hq, if_neg (Ne.symm hj)]; rfl, hgen j⟩
        free := .inl ⟨by rw [hfree', hfree], hsize⟩
        live := hlive
        limit := hlimit }

theorem stored (h : p.Stored a i q) : q.Booked := by
  have hlength := booked.live_add_length
  have hnodup := booked.nodup
  -- what is vacant afterwards is what was vacant before, without slot `i`
  have hvacant : ∀ j, q.get? j = none ↔ j ≠ i ∧ p.get? j = none := by
    intro j
    by_cases hj : j = i
    · simp [hj, h.item]
    · simp [hj, (h.other j hj).1]
  rcases h.free with ⟨hfree, hsize⟩ | ⟨hfree, hfree', rfl, hsize⟩
  · rw [hfree] at hlength hnodup
    obtain ⟨hi, hn⟩ := List.nodup_cons.1 hnodup
    refine booked_of_length hn (fun j => ?_) ?_
    · have hmem := booked.mem_free j
      rw [hfree, List.mem_cons] at hmem
      rw [hsize, hvacant, and_left_comm, ← hmem]
      constructor
      · intro hj
        exact ⟨fun e => hi (e ▸ hj), .inr hj⟩
      · rintro ⟨hne, hj⟩
        exact hj.resolve_left hne
    · rw [h.live, hsize, ← hlength, List.length_cons]
      omega
  · rw [hfree, List.length_nil] at hlength
    refine booked_of_length (hfree' ▸ List.nodup_nil) (fun j => ?_) ?_
    · have hmem := booked.mem_free j
      rw [hfree] at hmem
      rw [hfree', hsize, hvacant]
      simp only [List.not_mem_nil, false_iff] at hmem ⊢
      rintro ⟨hlt, hne, hj⟩
      exact hmem ⟨Nat.lt_of_le_of_ne (Nat.le_of_lt_succ hlt) hne, hj⟩
    · rw [hfree', h.live, hsize, List.length_nil]
      omega

omit booked in
theorem release_of_vacant (h : p.get? i = none) : p.release i = .ok (none, p) := by
  rw [release, h]

/-- Releasing an item frees its slot. -/
theorem exists_release (h : p.get? i = some a) :
    ∃ q, p.release i = .ok (some a, q) ∧ q.Booked ∧ q.slots.size = p.slots.size := by
  obtain ⟨q, hq, hfree, hlive, -, hsize, -⟩ := release_of_get? h (booked.live_pos h)
  have hget := get?_release hq
  have hi : i ∉ p.free := by
    intro hi
    have hnone := ((booked.mem_free i).1 hi).2
    rw [h] at hnone
    cases hnone
  refine ⟨q, hq, booked_of_length ?_ (fun j => ?_) ?_, hsize⟩
  · rw [hfree]
    exact List.nodup_cons.2 ⟨hi, booked.nodup⟩
  · rw [hfree, hsize, hget, List.mem_cons, booked.mem_free j]
    by_cases hj : i = j
    · subst hj
      simp [lt_size_of_get? h]
    · simp [hj, Ne.symm hj]
  · have hlength := booked.live_add_length
    rw [hfree, hsize, List.length_cons]
    omega

theorem renew (i : SlotId) : (p.renew i).Booked := by
  have hsize : (p.renew i).slots.size = p.slots.size := Array.size_modify
  refine booked_of_length booked.nodup (fun j => ?_) ?_
  · rw [hsize, get?_renew]
    exact booked.mem_free j
  · rw [hsize]
    exact booked.live_add_length

theorem setLimit (limit : Option Nat) : (p.setLimit limit).Booked :=
  ⟨booked.nodup, booked.mem_free, booked.live⟩

omit booked in
/-- Whatever was free before, the slots are put on the stack anew. -/
theorem clear (p : Pool α) : p.clear.Booked := by
  have hsize : p.clear.slots.size = p.slots.size := Array.size_map
  have hfree : p.clear.free = (List.range p.slots.size).reverse := rfl
  refine booked_of_length ?_ (fun j => ?_) ?_
  · rw [hfree]
    exact List.nodup_reverse.2 List.nodup_range
  · rw [hfree, hsize, get?_clear, List.mem_reverse, List.mem_range, eq_self_iff_true, and_true]
  · rw [hfree, hsize, List.length_reverse, List.length_range]
    exact Nat.zero_add _

/-- **One step.** It goes through, and adds a slot only if all are occupied. -/
theorem exists_apply (s : Step α) :
    ∃ q, p.apply s = .ok q ∧ q.Booked ∧ q.slots.size = max p.slots.size q.occupied := by
  have hmax : ∀ q : Pool α, q.Booked → q.slots.size = p.slots.size →
      q.slots.size = max p.slots.size q.occupied := by
    intro q hq hsize
    have hlength := hq.live_add_length
    rw [hq.live] at hlength
    omega
  cases s with
  | store a =>
    rcases booked.store_cases a with ⟨n, -, -, hstore⟩ | ⟨i, q, hstore, hq⟩
    · refine ⟨p, by rw [apply, hstore]; rfl, booked, hmax p booked rfl⟩
    · have hbooked := booked.stored hq
      refine ⟨q, by rw [apply, hstore]; rfl, hbooked, ?_⟩
      rcases hq.free with ⟨-, hsize⟩ | ⟨hfree, -, -, hsize⟩
      · exact hmax q hbooked hsize
      · have hlength := booked.live_add_length
        rw [hfree, List.length_nil] at hlength
        rw [← hbooked.live, hq.live, hsize]
        omega
  | release i =>
    cases hi : p.get? i with
    | none => exact ⟨p, by rw [apply, release_of_vacant hi]; rfl, booked, hmax p booked rfl⟩
    | some a =>
      obtain ⟨q, hq, hbooked, hsize⟩ := booked.exists_release hi
      exact ⟨q, by rw [apply, hq]; rfl, hbooked, hmax q hbooked hsize⟩
  | renew i => exact ⟨_, rfl, booked.renew i, hmax _ (booked.renew i) Array.size_modify⟩
  | setLimit limit => exact ⟨_, rfl, booked.setLimit limit, hmax _ (booked.setLimit limit) rfl⟩
  | clear => exact ⟨_, rfl, clear p, hmax _ (clear p) Array.size_map⟩

end Booked

/-! ## All steps -/

/-- The numbers of items that were held at a time, before, between and after the steps. -/
def heldAt (steps : List (Step α)) : Set Nat :=
  {n | ∃ before q, before <+: steps ∧ run {} before = .ok q ∧ q.occupied = n}

theorem booked_nil : Booked ({} : Pool α) :=
  booked_of_length List.nodup_nil (fun i => by simp) rfl

theorem run_concat (p : Pool α) (steps : List (Step α)) (s : Step α) :
    p.run (steps ++ [s]) = p.run steps >>= fun q => q.apply s := by
  rw [run, List.foldlM_append]
  simp only [List.foldlM_cons, List.foldlM_nil, bind_pure]
  rfl

/-- **Any steps.** -/
theorem exists_run (steps : List (Step α)) :
    ∃ p, run {} steps = .ok p ∧ p.Booked ∧ IsGreatest (heldAt steps) p.slots.size := by
  induction steps using List.reverseRecOn with
  | nil =>
    refine ⟨{}, rfl, booked_nil, ⟨[], {}, List.prefix_rfl, rfl, rfl⟩, ?_⟩
    rintro n ⟨before, q, hbefore, hq, rfl⟩
    obtain rfl := List.prefix_nil.1 hbefore
    cases hq
    exact Nat.le_refl 0
  | append_singleton steps s ih =>
    obtain ⟨p, hp, booked, hgreatest⟩ := ih
    obtain ⟨q, hq, hbooked, hsize⟩ := booked.exists_apply s
    have hrun : run {} (steps ++ [s]) = .ok q := by rw [run_concat, hp, Fault.ok_bind, hq]
    refine ⟨q, hrun, hbooked, ?_, ?_⟩
    · rcases Nat.le_total q.occupied p.slots.size with hle | hle
      · rw [hsize, Nat.max_eq_left hle]
        obtain ⟨before, r, hbefore, hr⟩ := hgreatest.1
        exact ⟨before, r, hbefore.trans (List.prefix_append ..), hr⟩
      · rw [hsize, Nat.max_eq_right hle]
        exact ⟨_, q, List.prefix_rfl, hrun, rfl⟩
    · rintro n ⟨before, r, hbefore, hr, rfl⟩
      rcases List.prefix_concat_iff.1 hbefore with rfl | hbefore
      · rw [hrun] at hr
        cases hr
        exact hsize ▸ Nat.le_max_right ..
      · exact (hgreatest.2 ⟨before, r, hbefore, hr, rfl⟩).trans (hsize ▸ Nat.le_max_left ..)

/-- **Bookkeeping.** Whatever was done to a new pool, its count and its free stack tell its vacant
slots. Storing is refused at the limit, or takes a vacant or new slot and leaves all others as they
are; releasing a slot without an item does nothing. There are as many slots as there were ever items
at a time. -/
theorem run_booked (steps : List (Step α)) : ∃ p, run {} steps = .ok p ∧
    (p.live = p.occupied ∧ p.free.Nodup ∧
      ∀ i, i ∈ p.free ↔ i < p.slots.size ∧ p.get? i = none) ∧
    (∀ a, (∃ n, p.limit = some n ∧ n ≤ p.live ∧ p.store a = .ok (.refused n)) ∨
      ∃ i q, p.store a = .ok (.granted i q) ∧ p.Stored a i q) ∧
    (∀ i, p.get? i = none → p.release i = .ok (none, p)) ∧
    IsGreatest (heldAt steps) p.slots.size := by
  obtain ⟨p, hp, booked, hgreatest⟩ := exists_run steps
  exact ⟨p, hp, ⟨booked.live, booked.nodup, booked.mem_free⟩, booked.store_cases,
    fun i => Booked.release_of_vacant, hgreatest⟩

/-- Slots are vacated twice and renewed while they are vacant, and the stack is built anew while one
of them is on it. -/
theorem run_booked_of_strange_slots :
    let steps : List (Step Nat) := [.store 10, .store 11, .store 12, .release 1, .release 1,
      .release 7, .renew 1, .renew 9, .clear, .store 13, .setLimit (some 1), .store 14]
    ∃ p, run {} steps = .ok p ∧ p.get? 1 = none ∧ p.release 1 = .ok (none, p) ∧
      p.live = p.occupied ∧ IsGreatest (heldAt steps) 3 := by
  intro steps
  obtain ⟨p, hp, ⟨hlive, -, -⟩, -, hrelease, hgreatest⟩ := run_booked steps
  have hshown : (fun q => (q.get? 1, q.slots.size)) <$> run {} steps = .ok (none, 3) := by
    cbv
  rw [hp] at hshown
  obtain ⟨hvacant, hsize⟩ := Prod.mk.inj (Except.ok.inj hshown)
  exact ⟨p, hp, hvacant, hrelease 1 hvacant, hlive, hsize ▸ hgreatest⟩

end RecencyCache.Pool
