import RecencyCache.Proofs.Roster.Nesting
import RecencyCache.Proofs.Roster.Shedding

/-!
# Rosters and the log of pushes

Pushes that went through are logged, newest first. A roster holds the last pushes of some of the
logged keys, in the order of the log and with the times of these pushes. This is `Logged`, and every
operation keeps it (`logged_perform`): a push comes to the front of the roster and of the log, and
nothing else changes a key, a time or the order.
-/
namespace RecencyCache

section Log

variable {κ ν : Type}

def Answer.isRefused : Answer κ ν → Bool
  | .refused _ => true
  | _ => false

/-- Whether an operation may overwrite a value. -/
def Op.writes : Op κ ν → Bool
  | .command (.writeIfPresent ..) | .command (.write ..) | .command (.ensureWrite ..) => true
  | _ => false

/-- The key and the time of a push. -/
def Record.mark (x : Record κ ν) : κ × Instant := (x.entry.key, x.stamp)

variable [BEq κ] {log : List (Record κ ν)} {x : Record κ ν}

/-- The last push of key `k`. -/
def lastPush? (log : List (Record κ ν)) (k : κ) : Option (Record κ ν) :=
  log.find? (·.entry.key == k)

/-- The last push of each key. -/
def lastPushes : List (Record κ ν) → List (Record κ ν)
  | [] => []
  | x :: log => x :: (lastPushes log).filter fun y => !(y.entry.key == x.entry.key)

theorem lastPush?_of_mem [EquivBEq κ] (hx : x ∈ lastPushes log) :
    lastPush? log x.entry.key = some x := by
  induction log with
  | nil => cases hx
  | cons y log ih =>
    rcases List.mem_cons.1 hx with rfl | hx
    · exact List.find?_cons_of_pos BEq.rfl
    · obtain ⟨hx, hkey⟩ := List.mem_filter.1 hx
      rw [Bool.not_eq_true', BEq.comm] at hkey
      rw [lastPush?, List.find?_cons_of_neg (by simp [hkey])]
      exact ih hx

end Log

namespace Roster

variable {κ ν : Type} [BEq κ] {r q : Roster κ ν} {log : List (Record κ ν)} {x : Record κ ν}
  {e : Entry κ ν} {k : κ} {op : Op κ ν}

/-- The records are last pushes in the log, in their order. -/
def Logged (r : Roster κ ν) (log : List (Record κ ν)) : Prop :=
  (r.records.map Record.mark).Sublist ((lastPushes log).map Record.mark)

/-- A record has the key, as it was spelled, and the time of the last push of its key. -/
theorem Logged.exists_lastPush? [EquivBEq κ] (h : r.Logged log) (hx : x ∈ r.records) :
    ∃ y, lastPush? log x.entry.key = some y ∧ y.mark = x.mark := by
  obtain ⟨y, hy, hmark⟩ := List.mem_map.1 (h.subset (List.mem_map_of_mem hx))
  have hkey : y.entry.key = x.entry.key := congrArg Prod.fst hmark
  exact ⟨y, hkey ▸ lastPush?_of_mem hy, hmark⟩

theorem Logged.of_marks (h : r.Logged log)
    (hq : (q.records.map Record.mark).Sublist (r.records.map Record.mark)) : q.Logged log :=
  hq.trans h

/-! ## A push -/

theorem key_ne_of_mem_without [EquivBEq κ] (hd : r.Distinct) (hx : x ∈ r.without k) :
    (x.entry.key == k) = false := by
  cases hfind : r.find? k with
  | none =>
    rw [without_eq_self hfind] at hx
    exact find?_eq_none_iff.1 hfind x hx
  | some z =>
    obtain ⟨y, a, b, ha, hy, hrecords, herase⟩ :=
      List.exists_of_eraseP (List.mem_of_find?_eq_some hfind) (List.find?_some hfind)
    rw [without, herase] at hx
    rcases List.mem_append.1 hx with hx | hx
    · exact eq_false_of_ne_true (ha x hx)
    · rw [Distinct, hrecords, List.pairwise_append, List.pairwise_cons] at hd
      rw [← BEq.congr_right hy, BEq.comm]
      exact hd.2.1.1 x hx

/-- What stands behind a pushed entry is logged before it. -/
theorem Logged.push [EquivBEq κ] (h : r.Logged log) (hd : r.Distinct)
    (hq : (q.records.map Record.mark).Sublist ((r.stamped e :: r.without e.key).map Record.mark)) :
    q.Logged (r.stamped e :: log) := by
  -- the log drops the older pushes of a key by a filter, the roster drops one record: no other has
  -- the key
  let other : κ × Instant → Bool := fun m => !(m.1 == e.key)
  have hothers : ((r.without e.key).map Record.mark).filter other =
      (r.without e.key).map Record.mark := by
    refine List.filter_eq_self.2 fun m hm => ?_
    obtain ⟨x, hx, rfl⟩ := List.mem_map.1 hm
    exact congrArg not (key_ne_of_mem_without hd hx)
  have hrest : ((r.without e.key).map Record.mark).Sublist
      (((lastPushes log).map Record.mark).filter other) := by
    rw [← hothers]
    exact ((List.eraseP_sublist.map Record.mark).trans h).filter other
  rw [List.filter_map] at hrest
  exact hq.trans (hrest.cons_cons _)

/-- A push is refused and changes nothing, or puts its entry in front. -/
theorem push_cases (r : Roster κ ν) (e : Entry κ ν) :
    (∃ refusal, r.push e = (.error refusal, r)) ∨ ∃ b, (r.push e).1 = .ok b ∧
      (r.push e).2.records.Sublist (r.stamped e :: r.without e.key) := by
  unfold push
  split
  · exact .inr ⟨false, rfl, List.Sublist.refl _⟩
  · rename_i hfind
    rw [without_eq_self (Option.not_isSome_iff_eq_none.1 hfind)]
    split
    · exact .inr ⟨true, rfl, (List.dropLast_sublist _).cons_cons _⟩
    · split
      · exact .inl ⟨_, rfl⟩
      · exact .inr ⟨true, rfl, List.Sublist.refl _⟩

/-! ## One operation -/

/-- Overwriting a value changes no key and no time. -/
theorem marks_write? (r : Roster κ ν) (k : κ) (v : ν) :
    (r.write? k v).2.records.map Record.mark = r.records.map Record.mark := by
  unfold write?
  split
  · rw [List.map_map]
    refine List.map_congr_left fun y _ => ?_
    simp only [Function.comp]
    split <;> rfl
  · rfl

variable [Inhabited ν]

/-- The entry that an operation pushes if it is not refused. -/
def offered? (r : Roster κ ν) : Op κ ν → Option (Entry κ ν)
  | .command (.push _ e) => some e
  | .command (.ensure k) | .command (.ensureWrite k _) =>
    if (r.find? k).isSome then none else some ⟨k, default⟩
  | _ => none

/-- The record of the push that an operation with this answer was. -/
def pushed? (r : Roster κ ν) (op : Op κ ν) (answer : Answer κ ν) : Option (Record κ ν) :=
  if answer.isRefused then none else (r.offered? op).map r.stamped

theorem pushed?_eq_none (hop : op.inserts = false) (answer : Answer κ ν) :
    r.pushed? op answer = none := by
  have hoffered : r.offered? op = none := by
    cases op with
    | query q => rfl
    | command m => cases m <;> first | rfl | cases hop
  rw [pushed?, hoffered, Option.map_none, ite_self]

/-- Where a value is asked for, and pushed if absent: nothing changes, or a default value is put
in front. -/
theorem ensure_cases (r : Roster κ ν) (k : κ) :
    (r.pushed? (.command (.ensure k)) (.ofExcept .value (r.ensure k).1) = none ∧
      (r.ensure k).2 = r) ∨
    (r.pushed? (.command (.ensure k)) (.ofExcept .value (r.ensure k).1) =
        some (r.stamped ⟨k, default⟩) ∧
      (r.ensure k).2.records.Sublist (r.stamped ⟨k, default⟩ :: r.without k)) := by
  rw [ensure, pushed?, offered?]
  cases hk : r.find? k with
  | some x => exact .inl ⟨rfl, rfl⟩
  | none =>
    rcases r.push_cases ⟨k, default⟩ with ⟨refusal, hr⟩ | ⟨b, hb, hsub⟩
    · rw [hr]
      exact .inl ⟨rfl, rfl⟩
    · simp only [Prod.map_fst, Prod.map_snd, hb, id]
      exact .inr ⟨rfl, hsub⟩

/-- An operation that may insert leaves all keys, times and the order as they are, or puts what it
pushes in front. -/
theorem inserts_cases (r : Roster κ ν) (target : Option (Entry κ ν)) (hop : op.inserts = true) :
    (r.pushed? op (r.perform target op).1 = none ∧
      (r.perform target op).2.records.map Record.mark = r.records.map Record.mark) ∨
    ∃ e, r.pushed? op (r.perform target op).1 = some (r.stamped e) ∧
      ((r.perform target op).2.records.map Record.mark).Sublist
        ((r.stamped e :: r.without e.key).map Record.mark) := by
  cases op with
  | query q => cases hop
  | command m =>
    rw [perform]
    cases m with
    | push hint e =>
      rw [apply, pushed?, offered?]
      rcases r.push_cases e with ⟨refusal, hr⟩ | ⟨b, hb, hsub⟩
      · rw [hr]
        exact .inl ⟨rfl, rfl⟩
      · simp only [Prod.map_fst, Prod.map_snd, hb, id]
        exact .inr ⟨e, rfl, hsub.map Record.mark⟩
    | ensure k =>
      rcases r.ensure_cases k with ⟨hp, hr⟩ | ⟨hp, hsub⟩
      · exact .inl ⟨hp, congrArg (·.records.map Record.mark) hr⟩
      · exact .inr ⟨⟨k, default⟩, hp, hsub.map Record.mark⟩
    | ensureWrite k v =>
      have hensure := r.ensure_cases k
      rw [apply]
      split <;> rename_i q heq <;> rw [heq] at hensure
      · rw [marks_write? q k v]
        rcases hensure with ⟨hp, hr⟩ | ⟨hp, hsub⟩
        · exact .inl ⟨hp, congrArg (·.records.map Record.mark) hr⟩
        · exact .inr ⟨⟨k, default⟩, hp, hsub.map Record.mark⟩
      · rcases hensure with ⟨hp, hr⟩ | ⟨hp, -⟩
        · exact .inl ⟨hp, congrArg (·.records.map Record.mark) hr⟩
        · cases hp
    | _ => cases hop

/-- Without an insertion or a write the records that stay are as they were. -/
theorem sublist_perform (r : Roster κ ν) (target : Option (Entry κ ν)) (hop : op.inserts = false)
    (hwrites : op.writes = false) : (r.perform target op).2.records.Sublist r.records := by
  have hkept : ∀ q : Roster κ ν, q.kept.Sublist q.records := by
    intro q
    obtain ⟨dropped, hrecords, -⟩ := q.exists_dropped
    rw [hrecords]
    exact List.sublist_append_left ..
  have hclock : ∀ t : HandClock, { r with clock := t }.records.Sublist r.records :=
    fun _ => List.Sublist.refl _
  cases op with
  | query q => exact List.Sublist.refl _
  | command m =>
    simp only [perform]
    cases m with
    | push hint e | ensure k | ensureWrite k v => cases hop
    | writeIfPresent k v | write k v => cases hwrites
    | pop =>
      simp only [apply, Prod.map_snd, id, r.pop_eq.2]
      exact List.dropLast_sublist _
    | take k | takeValue k =>
      simp only [apply, Prod.map_snd, id, (r.take_eq k).2]
      exact List.eraseP_sublist
    | erase k =>
      simp only [apply, Prod.map_snd, id, (r.erase_eq k).2]
      exact List.eraseP_sublist
    | eraseAt pos =>
      cases target with
      | none => exact List.Sublist.refl _
      | some e =>
        simp only [apply, Option.elim_some, Prod.map_snd, id, (r.erase_eq e.key).2]
        exact List.eraseP_sublist
    | clear => exact List.nil_sublist _
    | setCapacity n => exact hkept { r with capacity := n }
    | setWindow d => exact hkept { r with policy := r.policy.withWindow d }
    | limitNodes n => exact List.Sublist.refl _
    | advance d => exact hclock (r.clock.advance d)

/-- Without an insertion no key, time or order changes. -/
theorem marks_perform (r : Roster κ ν) (target : Option (Entry κ ν)) (hop : op.inserts = false) :
    ((r.perform target op).2.records.map Record.mark).Sublist (r.records.map Record.mark) := by
  cases hwrites : op.writes with
  | false => exact (r.sublist_perform target hop hwrites).map Record.mark
  | true =>
    cases op with
    | query q => cases hwrites
    | command m =>
      cases m with
      | writeIfPresent k v | write k v =>
        simp only [perform, apply, Prod.map_snd, id, marks_write?]
        exact List.Sublist.refl _
      | ensureWrite k v => cases hop
      | _ => cases hwrites

variable [EquivBEq κ]

/-- **One operation.** What it pushes, if anything, joins the roster and the log. -/
theorem logged_perform (h : r.Logged log) (hd : r.Distinct) (target : Option (Entry κ ν))
    (op : Op κ ν) : (r.perform target op).2.Logged
      ((r.pushed? op (r.perform target op).1).toList ++ log) := by
  cases hop : op.inserts with
  | false =>
    rw [pushed?_eq_none hop]
    exact h.of_marks (marks_perform r target hop)
  | true =>
    rcases r.inserts_cases target hop with ⟨hp, hmarks⟩ | ⟨e, hp, hmarks⟩ <;> rw [hp]
    · exact h.of_marks (hmarks ▸ List.Sublist.refl _)
    · exact h.push hd hmarks

end Roster
end RecencyCache
