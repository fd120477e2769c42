import Mathlib.Data.List.Sort
import RecencyCache.Proofs.Roster.Pushes

/-!
# Rosters and the log of all deeds

A chronicle logs, newest first, the pushes that went through and the values that were overwritten.
What a roster holds can be read off it: the order is that of the last pushes of the keys
(`Logged.pairwise_age`), every record has the key and the time of the last push, and its value is
what the newest deed on its key left (`Valued`). An operation moves no record but the one it pushes
(`others_perform`), and without a push it leaves keys, times and order as they are unless it is
there to take entries out (`marks_eq_perform`).
-/
namespace RecencyCache

/-- What makes an entry what it is. -/
inductive Deed (κ ν : Type) where
  | pushed (x : Record κ ν)
  | wrote (key : κ) (value : ν)

section Log

variable {κ ν : Type}

def Deed.push? : Deed κ ν → Option (Record κ ν)
  | .pushed x => some x
  | .wrote .. => none

/-- The pushes of a log. -/
def pushes (log : List (Deed κ ν)) : List (Record κ ν) := log.filterMap Deed.push?

/-- The write that an operation with this answer was. -/
def Op.wrote? : Op κ ν → Answer κ ν → Option (Deed κ ν)
  | .command (.writeIfPresent k v), .foundValue (some _) | .command (.write k v), .value _
  | .command (.ensureWrite k v), .value _ => some (.wrote k v)
  | _, _ => none

theorem Op.wrote?_eq_none {op : Op κ ν} (hop : op.writes = false) (answer : Answer κ ν) :
    op.wrote? answer = none := by
  unfold wrote?
  split <;> first | rfl | cases hop

/-- Whether an operation sets a limit that entries may have to leave for. -/
def Op.tightens : Op κ ν → Bool
  | .command (.setCapacity _) | .command (.setWindow _) => true
  | _ => false

variable [BEq κ]

/-- The value that the newest push or write of key `k` left. -/
def value? : List (Deed κ ν) → κ → Option ν
  | [], _ => none
  | .pushed x :: log, k => if x.entry.key == k then some x.entry.value else value? log k
  | .wrote k' v :: log, k => if k' == k then some v else value? log k

/-- How many pushes came after the last one of key `k`. -/
def age (log : List (Record κ ν)) (k : κ) : Nat := log.findIdx (·.entry.key == k)

/-- The last pushes of the keys, the first of them with the least age. -/
theorem pairwise_age [EquivBEq κ] (log : List (Record κ ν)) :
    (lastPushes log).Pairwise fun x y => age log x.entry.key < age log y.entry.key := by
  induction log with
  | nil => exact .nil
  | cons x log ih =>
    have hfirst : age (x :: log) x.entry.key = 0 := by
      rw [age, List.findIdx_cons, BEq.rfl]
      rfl
    have hrest : ∀ y : Record κ ν, (!(y.entry.key == x.entry.key)) = true →
        age (x :: log) y.entry.key = age log y.entry.key + 1 := by
      intro y hy
      rw [Bool.not_eq_true', BEq.comm] at hy
      rw [age, List.findIdx_cons, hy]
      rfl
    rw [lastPushes, List.pairwise_cons, List.pairwise_filter]
    constructor
    · intro y hy
      rw [hfirst, hrest y (List.mem_filter.1 hy).2]
      exact Nat.succ_pos _
    · refine ih.imp fun {y z} hyz hy hz => ?_
      rw [hrest y hy, hrest z hz]
      exact Nat.succ_lt_succ hyz

end Log

namespace Roster

variable {κ ν : Type} [BEq κ] {r q : Roster κ ν} {log : List (Deed κ ν)} {x : Record κ ν}
  {e : Entry κ ν} {k : κ} {v : ν} {op : Op κ ν}

/-- Every value is the one that the newest deed on its key left. -/
def Valued (r : Roster κ ν) (log : List (Deed κ ν)) : Prop :=
  ∀ x ∈ r.records, value? log x.entry.key = some x.entry.value

theorem Valued.of_subset (h : r.Valued log) (hq : q.records ⊆ r.records) : q.Valued log :=
  fun x hx => h x (hq hx)

theorem Logged.pairwise_age [EquivBEq κ] {log : List (Record κ ν)} (h : r.Logged log) :
    r.entries.Pairwise fun a b => age log a.key < age log b.key := by
  let Older (m m' : κ × Instant) : Prop := age log m.1 < age log m'.1
  have hlast : ((lastPushes log).map Record.mark).Pairwise Older :=
    List.pairwise_map.2 (RecencyCache.pairwise_age log)
  have hmarks : (r.records.map Record.mark).Pairwise Older := hlast.sublist h
  rw [List.pairwise_map] at hmarks
  exact List.pairwise_map.2 hmarks

theorem write?_cases (r : Roster κ ν) (k : κ) (v : ν) :
    r.write? k v = (none, r) ∨ ∃ old, (r.write? k v).1 = some old := by
  unfold write?
  split
  · exact .inr ⟨_, rfl⟩
  · exact .inl rfl

section Values

variable [EquivBEq κ]

/-- Behind a pushed entry stand only other keys. -/
theorem Valued.push (h : r.Valued log) (hd : r.Distinct)
    (hq : q.records.Sublist (r.stamped e :: r.without e.key)) :
    q.Valued (.pushed (r.stamped e) :: log) := by
  intro x hx
  rw [value?]
  rcases List.mem_cons.1 (hq.subset hx) with rfl | hx
  · exact if_pos BEq.rfl
  · have hkey := key_ne_of_mem_without hd hx
    rw [BEq.comm] at hkey
    rw [stamped, hkey]
    exact h x (List.eraseP_sublist.subset hx)

theorem Valued.write? (h : r.Valued log) (k : κ) (v : ν) :
    (r.write? k v).2.Valued (.wrote k v :: log) := by
  intro x hx
  rw [value?, BEq.comm]
  unfold Roster.write? at hx
  split at hx
  · obtain ⟨y, hy, rfl⟩ := List.mem_map.1 hx
    by_cases hyk : (y.entry.key == k) = true
    · simp [hyk]
    · simpa [hyk] using h y hy
  · rename_i hk
    rw [find?_eq_none_iff.1 hk x hx]
    exact h x hx

end Values

variable [Inhabited ν]

/-! ## What stays -/

/-- Without a push nothing moves, and nothing leaves unless the operation is there for it. -/
theorem marks_eq_perform {target : Option (Entry κ ν)}
    (hp : r.pushed? op (r.perform target op).1 = none) (hremoves : op.removes = false)
    (htightens : op.tightens = false) :
    (r.perform target op).2.records.map Record.mark = r.records.map Record.mark := by
  cases hop : op.inserts with
  | true =>
    rcases r.inserts_cases target hop with ⟨-, hmarks⟩ | ⟨e, hp', -⟩
    · exact hmarks
    · rw [hp] at hp'
      cases hp'
  | false =>
    have hclock : ∀ t : HandClock, { r with clock := t }.records.map Record.mark =
        r.records.map Record.mark := fun _ => rfl
    cases op with
    | query q => rfl
    | command m =>
      cases m with
      | writeIfPresent k v | write k v => exact r.marks_write? k v
      | limitNodes n => rfl
      | advance d => exact hclock (r.clock.advance d)
      | push hint e | ensure k | ensureWrite k v => cases hop
      | setCapacity n | setWindow d => cases htightens
      | _ => cases hremoves

/-- Behind what is pushed, keys, times and order are as they were. -/
theorem others_perform [EquivBEq κ] (r : Roster κ ν) (target : Option (Entry κ ν)) (op : Op κ ν) :
    (((r.perform target op).2.records.filter fun x =>
        !(r.pushed? op (r.perform target op).1).any (·.entry.key == x.entry.key)).map
          Record.mark).Sublist (r.records.map Record.mark) := by
  have hall : ∀ p : Record κ ν → Bool, ∀ l : List (Record κ ν),
      ((l.filter p).map Record.mark).Sublist (l.map Record.mark) :=
    fun _ _ => List.filter_sublist.map Record.mark
  cases hop : op.inserts with
  | false => exact (hall _ _).trans (marks_perform r target hop)
  | true =>
    rcases r.inserts_cases target hop with ⟨-, hmarks⟩ | ⟨e, hp, hmarks⟩
    · exact (hall _ _).trans (hmarks ▸ List.Sublist.refl _)
    · let other : κ × Instant → Bool := fun m => !(e.key == m.1)
      have hothers := hmarks.filter other
      rw [List.map_cons, List.filter_cons_of_neg (by simp [other, Record.mark, stamped]),
        List.filter_map] at hothers
      rw [hp]
      exact hothers.trans (List.filter_sublist.trans (List.eraseP_sublist.map Record.mark))

/-! ## What an operation did -/

/-- What an operation with this answer did, newest first. -/
def deeds (r : Roster κ ν) (op : Op κ ν) (answer : Answer κ ν) : List (Deed κ ν) :=
  (op.wrote? answer).toList ++ (r.pushed? op answer).toList.map .pushed

theorem pushes_deeds (answer : Answer κ ν) :
    pushes (r.deeds op answer ++ log) = (r.pushed? op answer).toList ++ pushes log := by
  have hwrote : (op.wrote? answer).toList.filterMap Deed.push? = [] := by
    unfold Op.wrote?
    split <;> rfl
  rw [pushes, deeds, List.filterMap_append, List.filterMap_append, hwrote]
  cases r.pushed? op answer <;> rfl

variable [EquivBEq κ]

theorem Valued.ensure (h : r.Valued log) (hd : r.Distinct) (k : κ) : (r.ensure k).2.Valued
    (r.deeds (.command (.ensure k)) (.ofExcept .value (r.ensure k).1) ++ log) := by
  rw [deeds]
  rcases r.ensure_cases k with ⟨hp, hr⟩ | ⟨hp, hsub⟩ <;> rw [hp]
  · rw [hr]
    exact h
  · exact h.push hd hsub

/-- **One operation.** Its deeds tell the values that it sets. -/
theorem valued_perform (h : r.Valued log) (hd : r.Distinct) (target : Option (Entry κ ν))
    (op : Op κ ν) : (r.perform target op).2.Valued (r.deeds op (r.perform target op).1 ++ log) := by
  by_cases hquiet : op.inserts = false ∧ op.writes = false
  · rw [deeds, pushed?_eq_none hquiet.1, Op.wrote?_eq_none hquiet.2]
    exact h.of_subset (sublist_perform r target hquiet.1 hquiet.2).subset
  · cases op with
    | query q => exact absurd ⟨rfl, rfl⟩ hquiet
    | command m =>
      cases m with
      | push hint e =>
        rw [perform, apply]
        rcases r.push_cases e with ⟨refusal, hr⟩ | ⟨b, hb, hsub⟩
        · rw [hr]
          exact h
        · simp only [Prod.map_fst, Prod.map_snd, hb]
          exact h.push hd hsub
      | ensure k => exact h.ensure hd k
      | ensureWrite k v =>
        have hensure := h.ensure hd k
        rw [perform, apply]
        split <;> rename_i q heq <;> rw [heq] at hensure
        · exact hensure.write? k v
        · exact hensure
      | writeIfPresent k v | write k v =>
        rw [perform, apply]
        rcases r.write?_cases k v with hr | ⟨old, hold⟩
        · rw [hr]
          exact h
        · simp only [Prod.map_fst, Prod.map_snd, hold]
          exact h.write? k v
      | _ => exact absurd ⟨rfl, rfl⟩ hquiet

end Roster
end RecencyCache
