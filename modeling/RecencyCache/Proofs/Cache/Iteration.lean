import RecencyCache.Proofs.Cache.Cursor
import RecencyCache.Proofs.Cache.Limits

/-!
# Walking a cache from both ends, with copies

A walk is a cursor in use. Any number of walks over one cache take entries from either end, in any
order, and are copied on the way. What each of them has taken from the recent end, what is still to
come, and what it has taken from the old end are the entries of the cache, each of them once; it
answers that there is none only after it has given them all; and a copy goes on as the walk that it
is a copy of would have gone on: `walks_divide`.

The step lemma is `Traces.take`, and what a run keeps is `traces_run`. The rest is about lists:
`eq_taken_append` and `take_eq_none_iff`.
-/
namespace RecencyCache

/-! ## Taking from the ends of a list -/

namespace End

variable {α β : Type}

theorem take_map (f : α → β) (e : End) (l : List α) :
    e.take (l.map f) = ((e.take l).1.map f, (e.take l).2.map f) := by
  cases e <;> simp [take]

theorem take_eq_none_iff {e : End} {l : List α} : (e.take l).1 = none ↔ l = [] := by
  cases e <;> simp [take]

theorem takeAll_map (f : α → β) (ends : List End) (l : List α) : takeAll ends (l.map f) =
    ((takeAll ends l).1.map (Option.map f), (takeAll ends l).2.map f) := by
  induction ends generalizing l with
  | nil => rfl
  | cons e ends ih => simp only [takeAll, take_map, ih, List.map_cons]

theorem takeAll_append (ends ends' : List End) (l : List α) : takeAll (ends ++ ends') l =
    ((takeAll ends l).1 ++ (takeAll ends' (takeAll ends l).2).1,
      (takeAll ends' (takeAll ends l).2).2) := by
  induction ends generalizing l with
  | nil => rfl
  | cons e ends ih => simp only [List.cons_append, takeAll, ih]

theorem length_takeAll (ends : List End) (l : List α) :
    (takeAll ends l).1.length = ends.length := by
  induction ends generalizing l with
  | nil => rfl
  | cons e ends ih => simp only [takeAll, List.length_cons, ih]

/-- From an empty list nothing is taken, however often. -/
theorem takeAll_nil (ends : List End) :
    takeAll ends ([] : List α) = (List.replicate ends.length none, []) := by
  induction ends with
  | nil => rfl
  | cons e ends ih => cases e <;> simp [takeAll, take, ih, List.replicate_succ]

/-- What was taken from one end, first taken first. -/
def taken (e : End) (answers : List (End × Option α)) : List α :=
  answers.filterMap fun a => if a.1 = e then a.2 else none

/-- What is taken from a list, each element with the end that it was asked from. -/
def calls (ends : List End) (l : List α) : List (End × Option α) :=
  ends.zip (takeAll ends l).1

theorem map_fst_calls (ends : List End) (l : List α) : (calls ends l).map Prod.fst = ends :=
  List.map_fst_zip (Nat.le_of_eq (length_takeAll ends l).symm)

theorem calls_cons (e : End) (ends : List End) (l : List α) :
    calls (e :: ends) l = (e, (e.take l).1) :: calls ends (e.take l).2 := rfl

theorem calls_append (ends ends' : List End) (l : List α) :
    calls (ends ++ ends') l = calls ends l ++ calls ends' (takeAll ends l).2 := by
  rw [calls, takeAll_append, List.zip_append (length_takeAll ends l).symm]
  rfl

/-- Taking one element leaves the list without it. -/
theorem eq_take (e : End) (l : List α) : l = match e with
    | recent => (e.take l).1.toList ++ (e.take l).2
    | old => (e.take l).2 ++ (e.take l).1.toList := by
  cases e with
  | recent => cases l <;> rfl
  | old =>
    rcases List.eq_nil_or_concat' l with rfl | ⟨l, x, rfl⟩
    · rfl
    · simp [take]

theorem taken_cons (e : End) (a : End × Option α) (answers : List (End × Option α)) :
    taken e (a :: answers) = (if a.1 = e then a.2.toList else []) ++ taken e answers := by
  rw [taken, taken, List.filterMap_cons]
  obtain ⟨e', found⟩ := a
  by_cases h : e' = e <;> cases found <;> simp [h]

/-- **Both ends.** What was taken from the recent end, what is left, and what was taken from the old
end, last taken first, are the list. -/
theorem eq_taken_append (ends : List End) (l : List α) : l = taken .recent (calls ends l) ++
    (takeAll ends l).2 ++ (taken .old (calls ends l)).reverse := by
  induction ends generalizing l with
  | nil => simp [takeAll, calls, taken]
  | cons e ends ih =>
    have hrest := ih (e.take l).2
    have hl := eq_take e l
    rw [calls_cons, taken_cons, taken_cons, takeAll]
    cases e with
    | recent =>
      simp only [reduceCtorEq, if_true, if_false, List.nil_append]
      rw [List.append_assoc, List.append_assoc, ← List.append_assoc (taken ..), ← hrest]
      exact hl
    | old =>
      have hlast : (End.old.take l).1.toList.reverse = (End.old.take l).1.toList := by
        cases (End.old.take l).1 <;> rfl
      simp only [reduceCtorEq, if_true, if_false, List.nil_append]
      rw [List.reverse_append, hlast, ← List.append_assoc, ← hrest]
      exact hl

/-- As many elements are left as were not taken. -/
theorem length_filterMap_calls (ends : List End) (l : List α) :
    ((calls ends l).filterMap Prod.snd).length + (takeAll ends l).2.length = l.length := by
  induction ends generalizing l with
  | nil => simp [takeAll, calls]
  | cons e ends ih =>
    have hrest := ih (e.take l).2
    have hlen : (e.take l).1.toList.length + (e.take l).2.length = l.length := by
      have hl := congrArg List.length (eq_take e l)
      cases e <;> simp only [List.length_append] at hl <;> omega
    rw [calls_cons, List.filterMap_cons, takeAll]
    cases hfound : (e.take l).1 with
    | none =>
      rw [hfound] at hlen
      simp only [Option.toList_none, List.length_nil] at hlen ⊢
      omega
    | some x =>
      rw [hfound] at hlen
      simp only [Option.toList_some, List.length_cons, List.length_nil] at hlen ⊢
      omega

/-- A call finds nothing exactly if all elements have been taken, and then later calls find nothing
either. -/
theorem eq_none_iff_of_calls {ends : List End} {l : List α} {before after : List (End × Option α)}
    {e : End} {found : Option α} (h : calls ends l = before ++ (e, found) :: after) :
    (found = none ↔ (before.filterMap Prod.snd).length = l.length) ∧
      (found = none → ∀ a ∈ after, a.2 = none) := by
  have hends : ends = before.map Prod.fst ++ e :: after.map Prod.fst := by
    rw [← map_fst_calls ends l, h, List.map_append, List.map_cons]
  rw [hends, calls_append, calls_cons] at h
  have hlen : (calls (before.map Prod.fst) l).length = before.length := by
    rw [← List.length_map (f := Prod.fst), map_fst_calls, List.length_map]
  obtain ⟨hbefore, hrest⟩ := List.append_inj h hlen
  obtain ⟨hcall, hafter⟩ := List.cons.inj hrest
  have hfound : (e.take (takeAll (before.map Prod.fst) l).2).1 = found := congrArg Prod.snd hcall
  have hcount := length_filterMap_calls (before.map Prod.fst) l
  rw [hbefore] at hcount
  rw [← hfound, take_eq_none_iff]
  refine ⟨?_, fun hnil a ha => ?_⟩
  · rw [← List.length_eq_zero_iff]
    omega
  · -- nothing is left, and nothing is taken from nothing
    have hleft : (e.take (takeAll (before.map Prod.fst) l).2).2 = [] := by
      rw [hnil]
      cases e <;> rfl
    rw [← hafter, hleft, calls, takeAll_nil] at ha
    exact List.eq_of_mem_replicate (List.of_mem_zip ha).2

end End

/-! ## Walks -/

/-- A cursor in use, and what it found at which end so far. A copy has found what the walk had found
that it is a copy of. -/
structure Walk (κ ν α : Type) where
  cursor : Cursor κ ν
  calls : List (End × Option α) := []

namespace Walk

variable {κ ν α : Type}

/-- What can be done with walks. They count from zero in the order in which they were made. -/
inductive Step where
  /-- Takes from one end of what is still to come. -/
  | take (walk : Nat) (e : End)
  /-- Makes another walk that goes on from where the walk is. -/
  | copy (walk : Nat)

/-- Takes from one end of what is still to come; `view` says what is shown of an entry. -/
def take (view : Entry κ ν → α) (t : Walk κ ν α) (e : End) : Except Fault (Walk κ ν α) := do
  let (found, cursor) ← t.cursor.pop? e
  pure { cursor, calls := t.calls ++ [(e, found.map view)] }

/-- One step; an unknown walk changes nothing. -/
def step (view : Entry κ ν → α) (walks : List (Walk κ ν α)) :
    Step → Except Fault (List (Walk κ ν α))
  | .take i e =>
    match walks[i]? with
    | some t => walks.set i <$> t.take view e
    | none => pure walks
  | .copy i => pure (walks ++ walks[i]?.toList)

/-- All steps in order. -/
def run (view : Entry κ ν → α) :
    List (Walk κ ν α) → List Step → Except Fault (List (Walk κ ν α))
  | walks, [] => pure walks
  | walks, s :: steps => do
    let walks ← step view walks s
    run view walks steps

/-- A cursor alone, asked at the same ends from `start` on, would be where the walk is and would
have found the same. -/
def Traces (t : Walk κ ν α) (view : Entry κ ν → α) (start : Cursor κ ν) : Prop :=
  ∃ found, start.popEnds (t.calls.map Prod.fst) = .ok (found, t.cursor) ∧
    t.calls.map Prod.snd = found.map (Option.map view)

/-- A walk from `start`, which had the elements of `l` to come, divides `l` into what it found and
what is still to come. -/
structure Divides (t : Walk κ ν α) (view : Entry κ ν → α) (start : Cursor κ ν) (l : List α) :
    Prop where
  /-- From the recent end a first part was taken, from the old end a last part, backwards, and
  between them stands what is still to come. -/
  parts : ∃ rest, t.cursor.toList = .ok rest ∧ t.cursor.bounds = (rest.length, rest.length) ∧
    l = End.taken .recent t.calls ++ rest.map view ++ (End.taken .old t.calls).reverse
  /-- A call found nothing exactly if everything had been found before, and then all calls after it
  found nothing either. -/
  exhausted : ∀ before e found after, t.calls = before ++ (e, found) :: after →
    (found = none ↔ (before.filterMap Prod.snd).length = l.length) ∧
      (found = none → ∀ call ∈ after, call.2 = none)
  traces : t.Traces view start

end Walk

/-! ## Walks over a cache -/

namespace Cursor

variable {κ ν : Type} {start w w' : Cursor κ ν} {ends : List End} {e : End}
  {found : List (Option (Entry κ ν))} {x : Option (Entry κ ν)}

/-- One more call. -/
theorem popEnds_concat (h : start.popEnds ends = .ok (found, w)) (hw : w.pop? e = .ok (x, w')) :
    start.popEnds (ends ++ [e]) = .ok (found ++ [x], w') := by
  induction ends generalizing start found with
  | nil =>
    cases h
    simp [popEnds, hw]
  | cons e' ends ih =>
    obtain ⟨⟨y, w₁⟩, hy, h⟩ := Fault.exists_of_bind h
    obtain ⟨⟨rest, w₂⟩, hrest, h⟩ := Fault.exists_of_bind h
    cases h
    simp only [List.cons_append, popEnds, hy, ih hrest, Fault.ok_bind, Fault.pure_eq]

end Cursor

namespace Walk

variable {κ ν α : Type} {view : Entry κ ν → α} {start : Cursor κ ν} {t : Walk κ ν α}
  {walks : List (Walk κ ν α)}

theorem traces_start (view : Entry κ ν → α) (start : Cursor κ ν) :
    Traces { cursor := start } view start := ⟨[], rfl, rfl⟩

section Cache

variable [BEq κ] {c : Cache κ ν} {s : Shelf κ ν}

/-- **One call.** It goes through, and a cursor alone would have answered the same. -/
theorem Traces.exists_take (sh : c.Shows s) (h : t.Traces view c.cursor) (e : End) :
    ∃ t', t.take view e = .ok t' ∧ t'.Traces view c.cursor := by
  obtain ⟨found, hfound, hcalls⟩ := h
  obtain ⟨w, newer, l, older, hw, sp, -⟩ := sh.popEnds_eq sh.spans_cursor (t.calls.map Prod.fst)
  obtain rfl : t.cursor = w := congrArg Prod.snd (Except.ok.inj (hfound.symm.trans hw))
  obtain ⟨w', -, -, -, hpop, -, -⟩ := sh.exists_pop? sp e
  refine ⟨{ cursor := w', calls := t.calls ++ [(e, (e.take (l.map Held.entry)).1.map view)] }, ?_,
    found ++ [(e.take (l.map Held.entry)).1], ?_, ?_⟩
  · simp only [take, hpop, Fault.ok_bind, Fault.pure_eq]
  · rw [List.map_append]
    exact Cursor.popEnds_concat hfound hpop
  · rw [List.map_append, List.map_append, hcalls]
    rfl

/-- One step. -/
theorem exists_step (sh : c.Shows s) (h : ∀ t ∈ walks, t.Traces view c.cursor) (x : Step) :
    ∃ walks', step view walks x = .ok walks' ∧ ∀ t ∈ walks', t.Traces view c.cursor := by
  cases x with
  | take i e =>
    cases hi : walks[i]? with
    | none => exact ⟨walks, by simp [step, hi], h⟩
    | some t =>
      obtain ⟨t', ht', htraces⟩ := (h t (List.mem_of_getElem? hi)).exists_take sh e
      refine ⟨walks.set i t', by simp [step, hi, ht'], fun u hu => ?_⟩
      rcases List.mem_or_eq_of_mem_set hu with hu | rfl
      · exact h u hu
      · exact htraces
  | copy i =>
    refine ⟨walks ++ walks[i]?.toList, rfl, fun u hu => ?_⟩
    rcases List.mem_append.1 hu with hu | hu
    · exact h u hu
    · exact h u (List.mem_of_getElem? (Option.mem_toList.1 hu))

/-- A run. -/
theorem exists_run (sh : c.Shows s) (h : ∀ t ∈ walks, t.Traces view c.cursor)
    (steps : List Step) :
    ∃ walks', run view walks steps = .ok walks' ∧ ∀ t ∈ walks', t.Traces view c.cursor := by
  induction steps generalizing walks with
  | nil => exact ⟨walks, rfl, h⟩
  | cons x steps ih =>
    obtain ⟨walks₁, hstep, h₁⟩ := exists_step sh h x
    obtain ⟨walks', hrun, h'⟩ := ih h₁
    exact ⟨walks', by simp only [run, hstep, Fault.ok_bind, hrun], h'⟩

/-- The calls of a walk are calls at the ends of the list of all entries. -/
theorem Traces.divides (sh : c.Shows s) (h : t.Traces view c.cursor) :
    t.Divides view c.cursor (s.entries.map view) := by
  obtain ⟨found, hfound, hcalls⟩ := h
  obtain ⟨w, newer, l, older, hw, sp, hl⟩ := sh.popEnds_eq sh.spans_cursor (t.calls.map Prod.fst)
  obtain ⟨rfl, rfl⟩ := Prod.mk.inj (Except.ok.inj (hfound.symm.trans hw))
  have hmap := End.takeAll_map view (t.calls.map Prod.fst) s.entries
  have hends : t.calls = End.calls (t.calls.map Prod.fst) (s.entries.map view) := by
    rw [End.calls, hmap]
    rw [Shelf.entries, ← hcalls, ← List.unzip_fst, ← List.unzip_snd, List.zip_unzip]
  refine ⟨⟨l.map Held.entry, ?_, ?_, ?_⟩, fun before e found after hsplit => ?_, _, hfound, hcalls⟩
  · rw [Cursor.toList, sp.remaining]
    exact sh.collect_popFront? sp
  · rw [Cursor.bounds, sp.remaining, List.length_map]
  · have hparts := End.eq_taken_append (t.calls.map Prod.fst) (s.entries.map view)
    rw [← hends, hmap] at hparts
    rw [hl]
    exact hparts
  · rw [hends] at hsplit
    exact End.eq_none_iff_of_calls hsplit

end Cache
end Walk

namespace Cache

variable {κ ν : Type} [BEq κ] [EquivBEq κ] [Inhabited ν] {c : Cache κ ν} {hash : κ → UInt64}

/-- **Walks.** Whatever calls and copies are made of walks over a cache, and whatever is shown of
its entries (their keys, their values), each walk divides the list of what it can find into what it
found at its two ends and what is still to come. -/
theorem walks_divide (ha : Agrees hash) (hc : c.Reachable hash) :
    ∃ l, c.toList = .ok l ∧ c.keys = .ok (l.map Entry.key) ∧
      c.values = .ok (l.map Entry.value) ∧ c.size = l.length ∧
      ∀ {α : Type} (view : Entry κ ν → α) (steps : List Walk.Step),
        ∃ walks, Walk.run view [{ cursor := c.cursor }] steps = .ok walks ∧
          ∀ t ∈ walks, t.Divides view c.cursor (l.map view) := by
  obtain ⟨s, sh⟩ := hc.exists_shows ha
  refine ⟨s.entries, sh.toList_eq, ?_, ?_, ?_, fun view steps => ?_⟩
  · rw [keys, sh.toList_eq]
    rfl
  · rw [values, sh.toList_eq]
    rfl
  · rw [sh.size_eq, Shelf.entries, List.length_map]
    rfl
  · have hstart : ∀ t ∈ [({ cursor := c.cursor } : Walk κ ν _)], t.Traces view c.cursor :=
      List.forall_mem_singleton.2 (Walk.traces_start view c.cursor)
    obtain ⟨walks, hrun, htraces⟩ := Walk.exists_run sh hstart steps
    exact ⟨walks, hrun, fun t ht => (htraces t ht).divides sh⟩

/-- Walks over three entries. -/
theorem walks_divide_crowd : ∃ answers c, narrow.run (crowd 201) = .ok (answers, c) ∧
    ∃ l, c.toList = .ok l ∧ c.keys = .ok (l.map Entry.key) ∧
      c.values = .ok (l.map Entry.value) ∧ c.size = l.length ∧
      ∀ {α : Type} (view : Entry Int64 Unit → α) (steps : List Walk.Step),
        ∃ walks, Walk.run view [{ cursor := c.cursor }] steps = .ok walks ∧
          ∀ t ∈ walks, t.Divides view c.cursor (l.map view) := by
  obtain ⟨answers, c, hc, hreach, -, -⟩ := exists_crowded 201
  exact ⟨answers, c, hc, walks_divide (agrees_of_lawful _) hreach⟩

end Cache
end RecencyCache
