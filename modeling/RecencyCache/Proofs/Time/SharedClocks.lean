import Mathlib.Algebra.BigOperators.Group.List.Basic
import Mathlib.Algebra.Order.Ring.Nat
import RecencyCache.Proofs.Time.HandClock
import RecencyCache.Time.SharedClocks

/-!
# Handles of one family read one sum

A handle that is made from another belongs to the family of that one, and all handles of a family
read the same time. `founders` and `advances` say from the steps alone which handles form a family,
and which advances were made through any of them. A clock shows the sum of the advances of its
family, up to the largest word, and nothing else moves it: `elapsed_eq_sum`.

Logs of steps have their newest step first.
-/
namespace RecencyCache.SharedClocks

/-- The handle that founded the family of each handle. One that is created founds a family, and one
that is shared joins that of the handle it is made from. -/
def founders : List Step → List Nat
  | [] => []
  | .create :: log => founders log ++ [(founders log).length]
  | .share handle :: log => founders log ++ (founders log)[handle]?.toList
  | .advance _ _ :: log => founders log

/-- The advances made through the handles of a family. -/
def advances (founder : Nat) : List Step → List Duration
  | [] => []
  | .advance handle d :: log =>
    if (founders log)[handle]? = some founder then d :: advances founder log
    else advances founder log
  | _ :: log => advances founder log

/-- The exact length of all advances of a family, in nanoseconds. -/
def total (founder : Nat) (log : List Step) : Nat :=
  ((advances founder log).map Duration.totalNanos).sum

variable {t : SharedClocks} {log : List Step} {handle founder i : Nat} {c : HandClock}
  {d : Duration}

/-! ## Families -/

theorem founder_lt (h : founder ∈ founders log) : founder < (founders log).length := by
  induction log with
  | nil => simp [founders] at h
  | cons step log ih =>
    cases step with
    | create =>
      rw [founders, List.mem_append, List.mem_singleton] at h
      rw [founders, List.length_append, List.length_singleton]
      rcases h with h | rfl
      · exact Nat.lt_succ_of_lt (ih h)
      · exact Nat.lt_succ_self _
    | share handle =>
      rw [founders, List.mem_append, Option.mem_toList] at h
      rw [founders, List.length_append]
      have hmem : founder ∈ founders log := h.elim id List.mem_of_getElem?
      exact Nat.lt_add_right _ (ih hmem)
    | advance handle d => exact ih h

/-- A family that there is not has not been advanced. -/
theorem total_of_notMem (h : founder ∉ founders log) : total founder log = 0 := by
  suffices hnil : advances founder log = [] by rw [total, hnil]; rfl
  induction log with
  | nil => rfl
  | cons step log ih =>
    cases step with
    | create => exact ih fun hmem => h (List.mem_append_left _ hmem)
    | share handle => exact ih fun hmem => h (List.mem_append_left _ hmem)
    | advance handle d =>
      have hne : (founders log)[handle]? ≠ some founder := fun hf => h (List.mem_of_getElem? hf)
      rw [advances, if_neg hne]
      exact ih h

theorem total_create (founder : Nat) (log : List Step) :
    total founder (.create :: log) = total founder log := rfl

theorem total_advance (founder handle : Nat) (d : Duration) (log : List Step) :
    total founder (.advance handle d :: log) =
      total founder log + if (founders log)[handle]? = some founder then d.totalNanos else 0 := by
  rw [total, advances]
  split
  · rw [List.map_cons, List.sum_cons, Nat.add_comm, total]
  · rw [Nat.add_zero, total]

/-! ## What a table shows of its log -/

/-- The table that the steps of `log` lead to. The clock of each family is that of index
`index founder`, and its offset is the sum of the family's advances, as far as a word can tell. -/
structure Tells (t : SharedClocks) (log : List Step) (index : Nat → Nat) : Prop where
  handles : t.handles.toList = (founders log).map index
  inj : ∀ f ∈ founders log, ∀ g ∈ founders log, index f = index g → f = g
  clock : ∀ f ∈ founders log, ∃ c, t.clocks[index f]? = some c ∧
    c.offset.toNat = min (total f log) (UInt64.size - 1)

namespace Tells

variable {index : Nat → Nat} (tells : t.Tells log index)
include tells

theorem getElem?_handles (handle : Nat) :
    t.handles[handle]? = (founders log)[handle]?.map index := by
  rw [← Array.getElem?_toList, tells.handles, List.getElem?_map]

theorem clock?_eq (handle : Nat) :
    t.clock? handle = (founders log)[handle]?.bind fun f => t.clocks[index f]? := by
  rw [clock?, tells.getElem?_handles]
  cases (founders log)[handle]? <;> rfl

theorem index_lt (h : founder ∈ founders log) : index founder < t.clocks.size := by
  obtain ⟨c, hc, -⟩ := tells.clock founder h
  exact (Array.getElem?_eq_some_iff.1 hc).1

theorem create : ∃ index', (t.apply .create).Tells (.create :: log) index' := by
  have hnew : (founders log).length ∉ founders log := fun h => Nat.lt_irrefl _ (founder_lt h)
  have hne : ∀ f ∈ founders log, f ≠ (founders log).length := fun f hf e => hnew (e ▸ hf)
  -- the new family has the new clock, and every other family the clock that it had
  let index' f := if f = (founders log).length then t.clocks.size else index f
  have hsame : ∀ f ∈ founders log, index' f = index f := fun f hf => if_neg (hne f hf)
  have hself : index' (founders log).length = t.clocks.size := if_pos rfl
  refine ⟨index', ?_, ?_, ?_⟩
  · simp only [apply, founders, Array.toList_push, tells.handles, List.map_append,
      List.map_singleton, hself, List.map_congr_left hsame]
  · intro f hf g hg he
    rw [founders, List.mem_append, List.mem_singleton] at hf hg
    rcases hf with hf | rfl <;> rcases hg with hg | rfl
    · rw [hsame f hf, hsame g hg] at he
      exact tells.inj f hf g hg he
    · rw [hsame f hf, hself] at he
      exact absurd he (Nat.ne_of_lt (tells.index_lt hf))
    · rw [hsame g hg, hself] at he
      exact absurd he.symm (Nat.ne_of_lt (tells.index_lt hg))
    · rfl
  · intro f hf
    rw [founders, List.mem_append, List.mem_singleton] at hf
    rcases hf with hf | rfl
    · obtain ⟨c, hc, hoffset⟩ := tells.clock f hf
      refine ⟨c, ?_, hoffset⟩
      rw [hsame f hf, apply, Array.getElem?_push, if_neg (Nat.ne_of_lt (tells.index_lt hf)), hc]
    · refine ⟨.initial, ?_, ?_⟩
      · rw [hself, apply, Array.getElem?_push, if_pos rfl]
      · rw [total_create, total_of_notMem hnew, Nat.zero_min]
        rfl

theorem share (handle : Nat) : (t.apply (.share handle)).Tells (.share handle :: log) index := by
  have hhandle := tells.getElem?_handles handle
  cases hf : (founders log)[handle]? with
  | none =>
    rw [hf, Option.map_none] at hhandle
    have hlog : founders (.share handle :: log) = founders log := by
      rw [founders, hf]
      exact List.append_nil _
    have happly : t.apply (.share handle) = t := by rw [apply, hhandle]
    rw [happly]
    exact ⟨hlog ▸ tells.handles, hlog ▸ tells.inj, hlog ▸ tells.clock⟩
  | some founder =>
    rw [hf, Option.map_some] at hhandle
    have hlog : founders (.share handle :: log) = founders log ++ [founder] := by
      rw [founders, hf]
      rfl
    have hmem : ∀ f, f ∈ founders (.share handle :: log) ↔ f ∈ founders log := by
      intro f
      rw [hlog, List.mem_append, List.mem_singleton, or_iff_left_of_imp]
      rintro rfl
      exact List.mem_of_getElem? hf
    have happly : t.apply (.share handle) =
        { t with handles := t.handles.push (index founder) } := by
      rw [apply, hhandle]
    rw [happly]
    refine ⟨?_, fun f hf g hg => tells.inj f ((hmem f).1 hf) g ((hmem g).1 hg), fun f hf => ?_⟩
    · rw [hlog, Array.toList_push, tells.handles, List.map_append, List.map_singleton]
    · exact tells.clock f ((hmem f).1 hf)

theorem advance (handle : Nat) (d : Duration) :
    (t.apply (.advance handle d)).Tells (.advance handle d :: log) index := by
  have hhandle := tells.getElem?_handles handle
  cases hf : (founders log)[handle]? with
  | none =>
    rw [hf, Option.map_none] at hhandle
    have happly : t.apply (.advance handle d) = t := by rw [apply, hhandle]
    rw [happly]
    refine ⟨tells.handles, tells.inj, fun f hmem => ?_⟩
    rw [total_advance, hf, if_neg (Option.some_ne_none f).symm]
    exact tells.clock f hmem
  | some founder =>
    rw [hf, Option.map_some] at hhandle
    have happly : t.apply (.advance handle d) =
        { t with clocks := t.clocks.modify (index founder) (·.advance d) } := by
      rw [apply, hhandle]
    rw [happly]
    refine ⟨tells.handles, tells.inj, fun f hmem => ?_⟩
    obtain ⟨c, hc, hoffset⟩ := tells.clock f hmem
    rw [total_advance, hf, Array.getElem?_modify, hc]
    by_cases he : founder = f
    · subst he
      refine ⟨c.advance d, by rw [if_pos rfl]; rfl, ?_⟩
      rw [HandClock.toNat_offset_advance, hoffset, if_pos rfl]
      omega
    · have hne : index founder ≠ index f :=
        fun e => he (tells.inj _ (List.mem_of_getElem? hf) _ hmem e)
      have hne' : some founder ≠ some f := fun e => he (Option.some.inj e)
      exact ⟨c, if_neg hne, by rw [if_neg hne', Nat.add_zero, hoffset]⟩

/-- **One step.** -/
theorem exists_step (step : Step) : ∃ index', (t.apply step).Tells (step :: log) index' := by
  cases step with
  | create => exact tells.create
  | share handle => exact ⟨index, tells.share handle⟩
  | advance handle d => exact ⟨index, tells.advance handle d⟩

end Tells

theorem tells_nil : Tells {} [] id :=
  ⟨rfl, fun _ hf => absurd hf List.not_mem_nil, fun _ hf => absurd hf List.not_mem_nil⟩

theorem run_append (t : SharedClocks) (steps more : List Step) :
    t.run (steps ++ more) = (t.run steps).run more := List.foldl_append

/-- **Any steps.** -/
theorem exists_tells (log : List Step) : ∃ index, (run {} log.reverse).Tells log index := by
  induction log with
  | nil => exact ⟨id, tells_nil⟩
  | cons step log ih =>
    obtain ⟨index, tells⟩ := ih
    rw [List.reverse_cons, run_append]
    exact tells.exists_step step

/-! ## A clock goes on -/

/-- A step keeps the clock of a handle, or advances it. -/
theorem exists_clock?_apply (hc : t.clock? handle = some c) (step : Step) :
    ∃ c', (t.apply step).clock? handle = some c' ∧ c'.origin = c.origin ∧
      c.offset.toNat ≤ c'.offset.toNat := by
  obtain ⟨i, hi, hclock⟩ := Option.bind_eq_some_iff.1 hc
  have hhandle := (Array.getElem?_eq_some_iff.1 hi).1
  have hindex := (Array.getElem?_eq_some_iff.1 hclock).1
  cases step with
  | create =>
    refine ⟨c, ?_, rfl, Nat.le_refl _⟩
    simp only [clock?, apply, Array.getElem?_push, if_neg (Nat.ne_of_lt hhandle), hi,
      Option.bind_eq_bind, Option.bind_some, if_neg (Nat.ne_of_lt hindex), hclock]
  | share other =>
    refine ⟨c, ?_, rfl, Nat.le_refl _⟩
    cases hother : t.handles[other]? with
    | none => rw [apply, hother, hc]
    | some j =>
      simp only [apply, hother, clock?, Array.getElem?_push, if_neg (Nat.ne_of_lt hhandle), hi,
        Option.bind_eq_bind, Option.bind_some, hclock]
  | advance other d =>
    cases hother : t.handles[other]? with
    | none => exact ⟨c, by rw [apply, hother, hc], rfl, Nat.le_refl _⟩
    | some j =>
      have happly : (t.apply (.advance other d)).clock? handle =
          if j = i then some (c.advance d) else some c := by
        rw [apply, hother, clock?, hi, Option.bind_eq_bind, Option.bind_some,
          Array.getElem?_modify, hclock, Option.map_some]
      rw [happly]
      split
      · exact ⟨_, rfl, c.origin_advance d, c.offset_le_advance d⟩
      · exact ⟨c, rfl, rfl, Nat.le_refl _⟩

/-- No steps turn a clock back. -/
theorem exists_clock?_run (hc : t.clock? handle = some c) (steps : List Step) :
    ∃ c', (t.run steps).clock? handle = some c' ∧ c'.origin = c.origin ∧
      c.offset.toNat ≤ c'.offset.toNat := by
  induction steps generalizing t c with
  | nil => exact ⟨c, hc, rfl, Nat.le_refl _⟩
  | cons step steps ih =>
    obtain ⟨c₁, hc₁, horigin₁, hle₁⟩ := exists_clock?_apply hc step
    obtain ⟨c', hc', horigin', hle'⟩ := ih hc₁
    exact ⟨c', hc', horigin'.trans horigin₁, Nat.le_trans hle₁ hle'⟩

/-! ## What a handle reads -/

/-- After the steps, `handle` is of the family of `founder` and leads to the clock `c`. -/
structure Reads (steps : List Step) (handle founder : Nat) (c : HandClock) : Prop where
  clock : (run {} steps).clock? handle = some c
  sum : c.elapsed.totalNanos = min (total founder steps.reverse) (2 ^ 64 - 1)
  /-- A clock that was moved as far reads that much past its origin, wherever that is. -/
  now : ∀ c' : HandClock, c'.offset = c.offset → c'.now.since c'.origin = c.elapsed
  /-- The same advances in any order, through any handles of a family, are read as the same. -/
  order : ∀ steps' handle' founder', (founders steps'.reverse)[handle']? = some founder' →
    (advances founder' steps'.reverse).Perm (advances founder steps.reverse) →
      ∃ c', (run {} steps').clock? handle' = some c' ∧ c'.elapsed = c.elapsed
  others : ∀ other d, (founders steps.reverse)[other]? ≠ some founder →
    (run {} (steps ++ [.advance other d])).clock? handle = some c
  onward : ∀ more, ∃ c', (run {} (steps ++ more)).clock? handle = some c' ∧ c.elapsed ≤ c'.elapsed

/-- The clock of a handle. -/
theorem exists_clock? (steps : List Step)
    (hf : (founders steps.reverse)[handle]? = some founder) :
    ∃ c, (run {} steps).clock? handle = some c ∧
      c.elapsed.totalNanos = min (total founder steps.reverse) (2 ^ 64 - 1) := by
  obtain ⟨index, tells⟩ := exists_tells steps.reverse
  rw [List.reverse_reverse] at tells
  obtain ⟨c, hc, hoffset⟩ := tells.clock founder (List.mem_of_getElem? hf)
  refine ⟨c, by rw [tells.clock?_eq, hf, Option.bind_some, hc], ?_⟩
  rw [HandClock.totalNanos_elapsed, hoffset]
  rfl

/-- An advance of another family moves no clock of this one. -/
theorem clock?_advance_other (steps : List Step) {other : Nat}
    (hf : (founders steps.reverse)[handle]? = some founder)
    (ho : (founders steps.reverse)[other]? ≠ some founder) (d : Duration) :
    (run {} (steps ++ [.advance other d])).clock? handle = (run {} steps).clock? handle := by
  obtain ⟨index, tells⟩ := exists_tells steps.reverse
  rw [List.reverse_reverse] at tells
  have hother := tells.getElem?_handles other
  have hrun : run {} (steps ++ [.advance other d]) = (run {} steps).apply (.advance other d) := by
    rw [run_append]
    rfl
  rw [hrun]
  cases hg : (founders steps.reverse)[other]? with
  | none =>
    rw [hg, Option.map_none] at hother
    rw [apply, hother]
  | some g =>
    rw [hg, Option.map_some] at hother
    have hne : index g ≠ index founder := by
      intro he
      rw [tells.inj g (List.mem_of_getElem? hg) founder (List.mem_of_getElem? hf) he] at hg
      exact ho hg
    have hhandle := tells.getElem?_handles handle
    rw [hf, Option.map_some] at hhandle
    simp only [apply, hother, clock?, hhandle, Option.bind_eq_bind, Option.bind_some,
      Array.getElem?_modify, if_neg hne]

/-- **Readings add up.** Every handle has a founder. It reads the sum of all advances made through
any handle of its family, whenever that was made and in any order, as far as 64 bits hold it. Other
families do not move it, nothing turns it back, and it tells the time since its origin. -/
theorem elapsed_eq_sum (steps : List Step)
    (hf : (founders steps.reverse)[handle]? = some founder) :
    (run {} steps).handles.size = (founders steps.reverse).length ∧
      ∃ c, Reads steps handle founder c := by
  have hsize : (run {} steps).handles.size = (founders steps.reverse).length := by
    obtain ⟨index, tells⟩ := exists_tells steps.reverse
    rw [List.reverse_reverse] at tells
    rw [← Array.length_toList, tells.handles, List.length_map]
  obtain ⟨c, hc, hsum⟩ := exists_clock? steps hf
  refine ⟨hsize, c, hc, hsum, fun c' hc' => ?_, fun steps' handle' founder' hf' hperm => ?_,
    fun other d ho => ?_, fun more => ?_⟩
  · rw [HandClock.since_origin, HandClock.elapsed, HandClock.elapsed, hc']
  · obtain ⟨c', hc', hsum'⟩ := exists_clock? steps' hf'
    have htotal : total founder' steps'.reverse = total founder steps.reverse :=
      (hperm.map Duration.totalNanos).sum_eq
    rw [htotal, ← hsum, HandClock.totalNanos_elapsed, HandClock.totalNanos_elapsed] at hsum'
    exact ⟨c', hc', by rw [HandClock.elapsed, HandClock.elapsed, hsum']⟩
  · rw [clock?_advance_other steps hf ho, hc]
  · obtain ⟨c', hc', -, hle⟩ := exists_clock?_run hc more
    refine ⟨c', by rw [run_append, hc'], ?_⟩
    rwa [Duration.le_def, HandClock.totalNanos_elapsed, HandClock.totalNanos_elapsed]

/-- A family of two handles is moved before and after the second is made, at last by more than a
word holds, and another family is moved between. -/
theorem elapsed_eq_sum_of_overflow :
    let steps : List Step := [.create, .advance 0 (.ofMillis 5), .share 0, .create,
      .advance 2 (.ofMillis 7), .advance 1 { seconds := 18446744073709551615 }, .advance 0 {}]
    (founders steps.reverse)[1]? = some 0 ∧
      (run {} steps).handles.size = (founders steps.reverse).length ∧
      ∃ c, Reads steps 1 0 c :=
  ⟨rfl, elapsed_eq_sum _ rfl⟩

end RecencyCache.SharedClocks
