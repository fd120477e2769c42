import RecencyCache.Proofs.Roster.Pushes

/-!
# What an operation adds to the counts

A posting says how many entries an operation inserted, refreshed, evicted, removed and cleared away.
It is read off what can be seen of the operation: its answer, and the entries before and after it
(`Step.posting`). The counts of a roster grow by the posting, and its size by the difference between
what came and what went: this is `Posts`, with one lemma for each operation.
-/
namespace RecencyCache

/-- What a container shows: its entries, and its counts. -/
structure View (κ ν : Type) where
  entries : List (Entry κ ν)
  summary : Tally

/-- How many entries came, stayed and went in an operation. -/
structure Posting where
  inserted : Nat := 0
  refreshed : Nat := 0
  evicted : Nat := 0
  removed : Nat := 0
  /-- Dropped all at once, which is not counted. -/
  cleared : Nat := 0

/-- One operation of a run, with what was shown before and after it. -/
structure Step (κ ν : Type) where
  op : Op κ ν
  /-- The entry that the position given to the operation leads to. -/
  target : Option (Entry κ ν)
  before : View κ ν
  answer : Answer κ ν
  after : View κ ν

namespace View

variable {κ ν : Type} [BEq κ]

def holds (v : View κ ν) (k : κ) : Bool := v.entries.any (·.key == k)

/-- Whether an entry is gone that was there before. -/
def loses (v v' : View κ ν) : Bool := v.entries.any fun e => !v'.holds e.key

/-- The posting of a push that was answered with `b`: whether the key is new. -/
def pushed (v v' : View κ ν) (b : Bool) : Posting :=
  if b then { inserted := 1, evicted := if v.loses v' then 1 else 0 } else { refreshed := 1 }

end View

/-- What an operation did, as far as it can be seen. A removal that answers a position succeeds if
there is an entry to remove; its answer need not tell, for it is the position of the next entry. -/
def Step.posting {κ ν : Type} [BEq κ] (t : Step κ ν) : Posting :=
  match t.op, t.answer with
  | .command (.push ..), .flag b => t.before.pushed t.after b
  | .command (.ensure k), .value _ | .command (.ensureWrite k _), .value _ =>
    if t.before.holds k then {} else t.before.pushed t.after true
  | .command .pop, .entry _ => { evicted := 1 }
  | .command (.setCapacity _), .count n | .command (.setWindow _), .count n => { evicted := n }
  | .command (.take _), .found (some _) | .command (.takeValue _), .foundValue (some _) =>
    { removed := 1 }
  | .command (.erase k), _ => { removed := if t.before.holds k then 1 else 0 }
  | .command (.eraseAt _), _ => { removed := if t.target.isSome then 1 else 0 }
  | .command .clear, _ => { cleared := t.before.entries.length }
  | _, _ => {}

def Answer.isMiss {κ ν : Type} : Answer κ ν → Bool
  | .found none | .foundValue none => true
  | _ => false

/-- Whether an operation only looks something up, writes a value or a setting, clears, or fails. -/
def Step.isQuiet {κ ν : Type} [BEq κ] (t : Step κ ν) : Bool :=
  match t.op with
  | .query _ | .command .clear | .command (.writeIfPresent ..) | .command (.write ..)
  | .command (.limitNodes _) | .command (.advance _) => true
  | .command (.take _) | .command (.takeValue _) => t.answer.isMiss
  | .command (.erase k) => !t.before.holds k
  | .command (.eraseAt _) => t.target.isNone
  | .command (.ensure k) | .command (.ensureWrite k _) => t.answer.isRefused || t.before.holds k
  | .command (.push ..) | .command .pop | .command (.setCapacity _) | .command (.setWindow _) =>
    t.answer.isRefused

/-- The counts after a posting. -/
def Tally.post (t : Tally) (p : Posting) : Tally :=
  { t with
    insertions := t.insertions + p.inserted
    refreshes := t.refreshes + p.refreshed
    evictions := t.evictions + p.evicted
    removals := t.removals + p.removed }

/-- From `v` to `v'` the counts grow by the posting, and there are as many entries more as came and
did not go. -/
structure Posting.Posts {κ ν : Type} (p : Posting) (v v' : View κ ν) : Prop where
  summary : v'.summary = { v.summary.post p with entries := v'.entries.length }
  entries : v'.entries.length + p.evicted + p.removed + p.cleared =
    v.entries.length + p.inserted

/-- A quiet operation counts nothing. -/
theorem Step.posting_of_isQuiet {κ ν : Type} [BEq κ] {t : Step κ ν} (h : t.isQuiet = true) :
    t.posting = { cleared := t.posting.cleared } := by
  obtain ⟨op, target, before, answer, after⟩ := t
  cases op with
  | query q => rfl
  | command m =>
    cases m with
    | clear | writeIfPresent k v | write k v | limitNodes n | advance d => rfl
    | take k | takeValue k =>
      simp only [isQuiet, Answer.isMiss] at h
      split at h <;> first | rfl | cases h
    | erase k | eraseAt pos => simp_all [isQuiet, posting]
    | ensure k | ensureWrite k v => cases answer <;> simp_all [isQuiet, posting, Answer.isRefused]
    | push hint e | pop | setCapacity n | setWindow d =>
      cases answer <;> simp_all [isQuiet, posting, Answer.isRefused]

namespace Roster

variable {κ ν : Type} {r q : Roster κ ν} {e : Entry κ ν} {x : Record κ ν} {k : κ} {v : ν}
  {p : Posting}

def view (r : Roster κ ν) : View κ ν := ⟨r.entries, r.summary⟩

theorem length_entries (r : Roster κ ν) : r.entries.length = r.size := List.length_map _

theorem posts_of_tally (htally : q.tally = r.tally.post p)
    (hsize : q.size + p.evicted + p.removed + p.cleared = r.size + p.inserted) :
    p.Posts r.view q.view := by
  refine ⟨?_, ?_⟩
  · simp only [view, summary, htally, length_entries, Tally.post]
  · simpa only [view, length_entries] using hsize

theorem posts_nothing (htally : q.tally = r.tally) (hsize : q.size = r.size) :
    Posting.Posts {} r.view q.view := posts_of_tally htally hsize

/-! ## Evictions and removals -/

theorem posts_pop (r : Roster κ ν) : (∃ refusal, r.pop = (.error refusal, r)) ∨
    ∃ e, r.pop.1 = .ok e ∧ Posting.Posts { evicted := 1 } r.view r.pop.2.view := by
  unfold pop
  split
  · exact .inl ⟨_, rfl⟩
  · rename_i x ho
    refine .inr ⟨x.entry, rfl, posts_of_tally rfl ?_⟩
    obtain ⟨l, hl⟩ := List.getLast?_eq_some_iff.1 ho
    show (r.records.dropLast).length + 1 = r.records.length
    rw [hl, List.dropLast_concat, List.length_append]
    rfl

theorem posts_shrink (r : Roster κ ν) :
    Posting.Posts { evicted := r.shrink.1 } r.view r.shrink.2.view := by
  have hle := r.length_kept_le
  refine posts_of_tally rfl ?_
  show r.kept.length + (r.size - r.kept.length) = r.size
  omega

variable [BEq κ]

theorem posts_without (hk : (r.find? k).isSome) : Posting.Posts { removed := 1 } r.view
    ({ r with records := r.without k }.count .removal).view :=
  posts_of_tally rfl (length_without_add_one hk)

theorem posts_take (r : Roster κ ν) (k : κ) : r.take k = (none, r) ∨ ∃ e, (r.take k).1 = some e ∧
    Posting.Posts { removed := 1 } r.view (r.take k).2.view := by
  unfold take
  split
  · rename_i x hk
    exact .inr ⟨x.entry, rfl, posts_without (Option.isSome_of_mem hk)⟩
  · exact .inl rfl

theorem posts_erase (r : Roster κ ν) (k : κ) :
    Posting.Posts { removed := if (r.find? k).isSome then 1 else 0 } r.view (r.erase k).2.view := by
  unfold erase
  split
  · rename_i hk
    exact posts_without hk
  · exact posts_nothing rfl rfl

theorem holds_view (r : Roster κ ν) (k : κ) : r.view.holds k = (r.find? k).isSome := by
  rw [View.holds, view, entries, List.any_map, find?, Bool.eq_iff_iff, List.any_eq_true,
    List.find?_isSome]
  rfl

theorem loses_view_iff : r.view.loses q.view = true ↔
    ∃ x ∈ r.records, q.find? x.entry.key = none := by
  simp only [View.loses, view, entries, List.any_map, List.any_eq_true, Function.comp,
    Bool.not_eq_true', ← Option.not_isSome_iff_eq_none, ← holds_view, Bool.not_eq_true]

/-! ## Overwriting a value -/

theorem view_write? (r : Roster κ ν) (k : κ) (v : ν) : (r.write? k v).2.view.summary =
    r.view.summary ∧ (r.write? k v).2.view.entries.length = r.view.entries.length := by
  unfold write?
  split
  · simp only [view, summary, length_entries, size, List.length_map, and_self]
  · exact ⟨rfl, rfl⟩

theorem posts_write (r : Roster κ ν) (k : κ) (v : ν) :
    Posting.Posts {} r.view (r.write? k v).2.view := by
  obtain ⟨hsummary, hlen⟩ := r.view_write? k v
  refine ⟨?_, hlen⟩
  rw [hsummary, hlen, view, length_entries]
  rfl

/-- What an operation posts if the value of a key is overwritten right behind it. -/
theorem posts_then_write {w : View κ ν} (h : p.Posts w r.view) (k : κ)
    (v : ν) : p.Posts w (r.write? k v).2.view := by
  obtain ⟨hsummary, hlen⟩ := r.view_write? k v
  refine ⟨?_, ?_⟩
  · rw [hsummary, hlen]
    exact h.summary
  · rw [hlen]
    exact h.entries

theorem pushed_write? (w : View κ ν) (r : Roster κ ν) (k : κ) (v : ν) (b : Bool) :
    w.pushed (r.write? k v).2.view b = w.pushed r.view b := by
  simp only [View.pushed, View.loses, holds_view, isSome_find?_write?]

/-! ## A push -/

theorem posts_refresh (hk : (r.find? e.key).isSome) : Posting.Posts { refreshed := 1 } r.view
    ({ r with records := r.stamped e :: r.without e.key }.count .refresh).view := by
  exact posts_of_tally rfl (length_without_add_one hk)

variable [EquivBEq κ]

theorem posts_displace (hd : r.Distinct) (hk : r.find? e.key = none) (hfull : r.full = true) :
    let q := ({ r with records := r.stamped e :: r.records.dropLast }.count .eviction).count
      .insertion
    (r.view.pushed q.view true).Posts r.view q.view := by
  intro q
  obtain ⟨l, x, hl, -⟩ := exists_of_full hfull
  have hloses : r.view.loses q.view = true := by
    have hx : x ∈ r.records := hl ▸ List.mem_append_right l (List.mem_singleton_self x)
    refine loses_view_iff.2 ⟨x, hx, find?_eq_none_iff.2 ?_⟩
    show ∀ y ∈ r.stamped e :: r.records.dropLast, _
    rw [Distinct, hl, List.pairwise_append] at hd
    rw [hl, List.dropLast_concat, List.forall_mem_cons]
    refine ⟨?_, fun y hy => hd.2.2 y hy x (List.mem_singleton_self x)⟩
    rw [BEq.comm]
    exact find?_eq_none_iff.1 hk x hx
  rw [View.pushed, if_pos rfl, if_pos hloses]
  refine posts_of_tally rfl ?_
  show (r.records.dropLast).length + 1 + 1 = r.records.length + 1
  rw [hl, List.dropLast_concat, List.length_append]
  rfl

theorem posts_insert (e : Entry κ ν) :
    let q := { r with records := r.stamped e :: r.records }.count .insertion
    (r.view.pushed q.view true).Posts r.view q.view := by
  intro q
  have hloses : r.view.loses q.view = false := by
    rw [← Bool.not_eq_true, loses_view_iff]
    rintro ⟨x, hx, hnone⟩
    have hself := find?_eq_none_iff.1 hnone x (List.mem_cons_of_mem _ hx)
    rw [BEq.rfl] at hself
    cases hself
  rw [View.pushed, if_pos rfl, hloses]
  exact posts_of_tally rfl rfl

/-- What a push posts: nothing if it is refused. -/
theorem posts_push (hd : r.Distinct) (e : Entry κ ν) :
    (∃ refusal, r.push e = (.error refusal, r)) ∨ ∃ b, (r.push e).1 = .ok b ∧
      (b = true ↔ r.find? e.key = none) ∧
      (r.view.pushed (r.push e).2.view b).Posts r.view (r.push e).2.view := by
  unfold push
  split
  · rename_i hk
    refine .inr ⟨false, rfl, ?_, posts_refresh hk⟩
    rw [← Option.not_isSome_iff_eq_none]
    exact iff_of_false Bool.false_ne_true (not_not_intro hk)
  · rename_i hk
    rw [Option.not_isSome_iff_eq_none] at hk
    split
    · rename_i hfull
      exact .inr ⟨true, rfl, iff_of_true rfl hk, posts_displace hd hk hfull⟩
    · split
      · exact .inl ⟨_, rfl⟩
      · exact .inr ⟨true, rfl, iff_of_true rfl hk, posts_insert e⟩

/-! ## One operation -/

variable [Inhabited ν]

/-- What is posted where the value of a key is asked for, and pushed if it is absent. -/
theorem posts_ensure (hd : r.Distinct) (k : κ) :
    (∃ refusal, r.ensure k = (.error refusal, r)) ∨ ∃ v, (r.ensure k).1 = .ok v ∧
      (if r.view.holds k then {} else r.view.pushed (r.ensure k).2.view true).Posts r.view
        (r.ensure k).2.view := by
  rw [ensure, holds_view]
  cases hk : r.find? k with
  | some x => exact .inr ⟨x.entry.value, rfl, posts_nothing rfl rfl⟩
  | none =>
    rcases posts_push hd ⟨k, default⟩ with ⟨refusal, hr⟩ | ⟨b, hb, htrue, hposts⟩
    · exact .inl ⟨refusal, by rw [hr]; rfl⟩
    · rw [htrue.2 hk] at hposts
      exact .inr ⟨default, by rw [Prod.map_fst, hb]; rfl, hposts⟩

/-- An operation on a roster, as it is seen. -/
def step (r : Roster κ ν) (target : Option (Entry κ ν)) (op : Op κ ν) : Step κ ν :=
  ⟨op, target, r.view, (r.perform target op).1, (r.perform target op).2.view⟩

theorem posts_apply (hd : r.Distinct) {target : Option (Entry κ ν)}
    (htarget : ∀ e ∈ target, (r.find? e.key).isSome) (m : Command κ ν) :
    (r.step target (.command m)).posting.Posts r.view (r.apply target m).2.view := by
  have hclock : ∀ t : HandClock, Posting.Posts {} r.view { r with clock := t }.view :=
    fun _ => posts_nothing rfl rfl
  rw [step, perform]
  cases m with
  | push hint e =>
    rcases posts_push hd e with ⟨refusal, hr⟩ | ⟨b, hb, -, hposts⟩
    · rw [apply, hr]
      exact posts_nothing rfl rfl
    · simp only [apply, Prod.map_fst, Prod.map_snd, hb]
      exact hposts
  | pop =>
    rcases r.posts_pop with ⟨refusal, hr⟩ | ⟨e, he, hposts⟩
    · rw [apply, hr]
      exact posts_nothing rfl rfl
    · simp only [apply, Prod.map_fst, Prod.map_snd, he]
      exact hposts
  | take k | takeValue k =>
    rcases r.posts_take k with hr | ⟨e, he, hposts⟩
    · rw [apply, hr]
      exact posts_nothing rfl rfl
    · simp only [apply, Prod.map_fst, Prod.map_snd, he]
      exact hposts
  | erase k =>
    simp only [Step.posting, holds_view]
    exact r.posts_erase k
  | eraseAt pos =>
    cases target with
    | none => exact posts_nothing rfl rfl
    | some e =>
      have hposts := r.posts_erase e.key
      rw [if_pos (htarget e rfl)] at hposts
      exact hposts
  | clear =>
    refine posts_of_tally rfl ?_
    show 0 + 0 + 0 + r.entries.length = r.size + 0
    rw [length_entries]
    omega
  | setCapacity n => exact posts_shrink { r with capacity := n }
  | setWindow d => exact posts_shrink { r with policy := r.policy.withWindow d }
  | writeIfPresent k v | write k v => exact r.posts_write k v
  | ensure k =>
    rcases posts_ensure hd k with ⟨refusal, hr⟩ | ⟨v, hv, hposts⟩
    · rw [apply, hr]
      exact posts_nothing rfl rfl
    · simp only [apply, Prod.map_fst, Prod.map_snd, hv]
      exact hposts
  | ensureWrite k v =>
    rcases posts_ensure hd k with ⟨refusal, hr⟩ | ⟨old, hold, hposts⟩
    · rw [apply, hr]
      exact posts_nothing rfl rfl
    · have hensure : r.ensure k = (.ok old, (r.ensure k).2) := Prod.ext hold rfl
      rw [apply, hensure]
      simp only [Step.posting, pushed_write?]
      exact posts_then_write hposts k v
  | limitNodes n => exact posts_nothing rfl rfl
  | advance d => exact hclock (r.clock.advance d)

/-- **One operation.** The counts grow by what is seen of it. -/
theorem posts_perform (hd : r.Distinct) {target : Option (Entry κ ν)}
    (htarget : ∀ e ∈ target, (r.find? e.key).isSome) (op : Op κ ν) :
    (r.step target op).posting.Posts r.view (r.perform target op).2.view := by
  cases op with
  | query q => exact posts_nothing rfl rfl
  | command m => exact posts_apply hd htarget m

end Roster
end RecencyCache
