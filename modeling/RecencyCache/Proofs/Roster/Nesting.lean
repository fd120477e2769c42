import Mathlib.Data.List.Basic
import RecencyCache.Proofs.Policy
import RecencyCache.Proofs.Roster

/-!
# Nested rosters

A roster is nested in another one if its records are the newest of the other's and its limits are no
laxer. Pushes, removals by key or at the old end, and the passing of time keep rosters nested
(`Nested.apply`). The argument is about what a push leaves behind its entry (`behind`): where the
larger roster gives up a record that the smaller one has too, they are equal, and the smaller one
gives it up as well. What the smaller one finds, the larger one finds (`Nested.find?`).
-/
namespace RecencyCache

/-- Commands that depend on the records through their keys and the oldest one only. -/
def Command.isNesting {κ ν : Type} : Command κ ν → Bool
  | .push .. | .pop | .take _ | .takeValue _ | .erase _ | .clear | .advance _ => true
  | _ => false

namespace Roster

variable {κ ν : Type}

/-- The records of `r` are the newest ones of `r'`, and the limits of `r` are no laxer. -/
structure Nested (r r' : Roster κ ν) : Prop where
  records : r.records <+: r'.records
  capacity : r.capacity ≤ r'.capacity
  policy : r.policy ≤ r'.policy
  clock : r.clock = r'.clock
  unlimited : r.limit = none
  unlimited' : r'.limit = none

/-- `q` is `r` but for its records and its tally. -/
def Alike (r q : Roster κ ν) : Prop := q = { r with records := q.records, tally := q.tally }

variable {r r' q q' : Roster κ ν}

theorem Nested.of_alike (h : r.Nested r') (hq : r.Alike q) (hq' : r'.Alike q')
    (hrecords : q.records <+: q'.records) : q.Nested q' := by
  rw [hq, hq']
  exact { h with records := hrecords }

theorem Nested.setClock (h : r.Nested r') (t : HandClock) :
    { r with clock := t }.Nested { r' with clock := t } := { h with clock := rfl }

/-- Where the larger roster is full and holds nothing else, the smaller one is full. -/
theorem Nested.full (h : r.Nested r') (heq : r.records = r'.records) (hfull : r'.full = true) :
    r.full = true := by
  rw [Roster.full, oldest?, size] at hfull ⊢
  rw [heq, h.clock]
  obtain ⟨x, hx, hevicts⟩ := (Option.any_eq_true ..).1 hfull
  exact (Option.any_eq_true ..).2 ⟨x, hx, Policy.evicts_of_le h.policy h.capacity hevicts⟩

theorem dropLast_prefix_dropLast {α : Type} {a b : List α} (h : a <+: b) :
    a.dropLast <+: b.dropLast := by
  rw [b.dropLast_eq_take, List.prefix_take_iff, List.length_dropLast]
  exact ⟨a.dropLast_prefix.trans h, Nat.sub_le_sub_right h.length_le 1⟩

/-- All but the last of a longer list. -/
theorem prefix_dropLast {α : Type} {a b : List α} (h : a <+: b) (hlt : a.length < b.length) :
    a <+: b.dropLast := by
  rw [b.dropLast_eq_take, List.prefix_take_iff]
  exact ⟨h, Nat.le_sub_one_of_lt hlt⟩

section ByKey

variable [BEq κ] {e : Entry κ ν} {k : κ}

/-- What the smaller roster finds, the larger one finds. -/
theorem Nested.find? (h : r.Nested r') (hk : (r.find? k).isSome) : (r'.find? k).isSome := by
  obtain ⟨x, hx⟩ := Option.isSome_iff_exists.1 hk
  rw [Roster.find?, h.records.find?_eq_some hx]
  rfl

theorem without_eq_self (hk : r.find? k = none) : r.without k = r.records :=
  List.eraseP_of_forall_not (List.find?_eq_none.1 hk)

theorem length_without_add_one (hk : (r.find? k).isSome) : (r.without k).length + 1 = r.size := by
  obtain ⟨x, hx, hkey⟩ := List.find?_isSome.1 hk
  exact List.length_eraseP_add_one hx hkey

/-- The records that a push leaves behind its entry. -/
def behind (r : Roster κ ν) (k : κ) : List (Record κ ν) :=
  if (r.find? k).isSome then r.without k else if r.full then r.records.dropLast else r.records

theorem behind_prefix_records (hk : r.find? k = none) : r.behind k <+: r.records := by
  rw [behind, hk, Option.isSome_none, if_neg Bool.false_ne_true]
  split
  · exact List.dropLast_prefix _
  · exact List.prefix_rfl

theorem Nested.behind (h : r.Nested r') (k : κ) : r.behind k <+: r'.behind k := by
  by_cases hk' : (r'.find? k).isSome = true
  · have herase : r.without k <+: r'.without k := h.records.eraseP
    rw [Roster.behind.eq_1 r', if_pos hk']
    by_cases hk : (r.find? k).isSome = true
    · rwa [Roster.behind, if_pos hk]
    · rw [Option.not_isSome_iff_eq_none] at hk
      rw [without_eq_self hk] at herase
      exact (behind_prefix_records hk).trans herase
  · have hk : r.find? k = none := Option.not_isSome_iff_eq_none.1 (mt h.find? hk')
    by_cases hfull : r'.full = true
    · rw [Roster.behind.eq_1 r', if_neg hk', if_pos hfull]
      -- the larger roster loses its oldest record, which the smaller one has only if they are equal
      rcases Nat.lt_or_ge r.records.length r'.records.length with hlt | hge
      · exact (behind_prefix_records hk).trans (prefix_dropLast h.records hlt)
      · have heq := h.records.eq_of_length (Nat.le_antisymm h.records.length_le hge)
        have hsame : r.behind k = r'.records.dropLast := by
          rw [Roster.behind, hk, Option.isSome_none, if_neg Bool.false_ne_true,
            if_pos (h.full heq hfull), heq]
        exact hsame ▸ List.prefix_rfl
    · rw [Roster.behind.eq_1 r', if_neg hk', if_neg hfull]
      exact (behind_prefix_records hk).trans h.records

/-! ## One command -/

/-- Without a limit a push always goes through. -/
theorem push_eq (hl : r.limit = none) (e : Entry κ ν) :
    (r.push e).1 = .ok (!(r.find? e.key).isSome) ∧ r.Alike (r.push e).2 ∧
      (r.push e).2.records = r.stamped e :: r.behind e.key := by
  have hlimit : r.limit.filter (· ≤ r.size) = none := by rw [hl, Option.filter_none]
  rw [push, Roster.behind, hlimit]
  cases (r.find? e.key).isSome with
  | true => exact ⟨rfl, rfl, rfl⟩
  | false => cases r.full <;> exact ⟨rfl, rfl, rfl⟩

omit [BEq κ] in
theorem pop_eq (r : Roster κ ν) : r.Alike r.pop.2 ∧ r.pop.2.records = r.records.dropLast := by
  unfold pop
  cases ho : r.oldest? with
  | none =>
    rw [oldest?, List.getLast?_eq_none_iff] at ho
    exact ⟨rfl, by rw [ho]; rfl⟩
  | some x => exact ⟨rfl, rfl⟩

theorem take_eq (r : Roster κ ν) (k : κ) :
    r.Alike (r.take k).2 ∧ (r.take k).2.records = r.without k := by
  unfold take
  cases hk : r.find? k with
  | none => exact ⟨rfl, (without_eq_self hk).symm⟩
  | some x => exact ⟨rfl, rfl⟩

theorem erase_eq (r : Roster κ ν) (k : κ) :
    r.Alike (r.erase k).2 ∧ (r.erase k).2.records = r.without k := by
  unfold erase
  split
  · exact ⟨rfl, rfl⟩
  · rename_i hk
    exact ⟨rfl, (without_eq_self (Option.not_isSome_iff_eq_none.1 hk)).symm⟩

theorem Nested.push (h : r.Nested r') (e : Entry κ ν) : (r.push e).2.Nested (r'.push e).2 := by
  obtain ⟨-, hq, hrecords⟩ := push_eq h.unlimited e
  obtain ⟨-, hq', hrecords'⟩ := push_eq h.unlimited' e
  refine h.of_alike hq hq' ?_
  rw [hrecords, hrecords', stamped, stamped, h.clock, List.prefix_cons_inj]
  exact h.behind e.key

omit [BEq κ] in
theorem Nested.pop (h : r.Nested r') : r.pop.2.Nested r'.pop.2 := by
  refine h.of_alike r.pop_eq.1 r'.pop_eq.1 ?_
  rw [r.pop_eq.2, r'.pop_eq.2]
  exact dropLast_prefix_dropLast h.records

theorem Nested.take (h : r.Nested r') (k : κ) : (r.take k).2.Nested (r'.take k).2 := by
  refine h.of_alike (r.take_eq k).1 (r'.take_eq k).1 ?_
  rw [(r.take_eq k).2, (r'.take_eq k).2]
  exact h.records.eraseP

theorem Nested.erase (h : r.Nested r') (k : κ) : (r.erase k).2.Nested (r'.erase k).2 := by
  refine h.of_alike (r.erase_eq k).1 (r'.erase_eq k).1 ?_
  rw [(r.erase_eq k).2, (r'.erase_eq k).2]
  exact h.records.eraseP

/-- **One command.** Nested rosters stay nested. -/
theorem Nested.apply [Inhabited ν] (h : r.Nested r') {m : Command κ ν} (hm : m.isNesting = true) :
    (r.apply none m).2.Nested (r'.apply none m).2 := by
  cases m with
  | push hint e => exact h.push e
  | pop => exact h.pop
  | take k | takeValue k => exact h.take k
  | erase k => exact h.erase k
  | clear => exact { h with records := List.prefix_rfl }
  | advance d =>
    have hclock := h.setClock (r.clock.advance d)
    simp only [Roster.apply]
    rwa [← h.clock]
  | _ => cases hm

/-- A push that finds its key in the smaller roster finds it in the larger one. -/
theorem Nested.hit (h : r.Nested r') (hit : (r.push e).1 = .ok false) :
    (r'.push e).1 = .ok false := by
  rw [(push_eq h.unlimited e).1, Except.ok.injEq, Bool.not_eq_false'] at hit
  rw [(push_eq h.unlimited' e).1, h.find? hit]
  rfl

end ByKey
end Roster
end RecencyCache
