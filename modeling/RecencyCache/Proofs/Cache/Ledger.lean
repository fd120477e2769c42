import RecencyCache.Proofs.Roster.Ledger

/-!
# The counts of a cache balance

The steps of a run are kept as they are seen, with the entries and the counts before and after each
(`steps`). Every step adds its posting to the counts (`Shelf.posts_perform`), so the counts of a
cache that was new before the run are the totals of the postings, and the entries that came are
those that are held, were evicted, removed or cleared away: `counts_balance`.
-/
namespace RecencyCache

/-- What two operations added, one after the other. -/
def Posting.add (p q : Posting) : Posting where
  inserted := p.inserted + q.inserted
  refreshed := p.refreshed + q.refreshed
  evicted := p.evicted + q.evicted
  removed := p.removed + q.removed
  cleared := p.cleared + q.cleared

/-- What some operations added. -/
def Posting.total (ps : List Posting) : Posting := ps.foldr add {}

theorem Posting.Posts.trans {κ ν : Type} {p q : Posting} {v v' v'' : View κ ν} (h : p.Posts v v')
    (hq : q.Posts v' v'') : (p.add q).Posts v v'' := by
  refine ⟨?_, ?_⟩
  · rw [hq.summary, h.summary]
    simp only [add, Tally.post, Nat.add_assoc]
  · have hfirst := h.entries
    have hrest := hq.entries
    simp only [add]
    omega

/-- What was posted where there was nothing is all there is to count. -/
theorem Posting.Posts.balance {κ ν : Type} {p : Posting} {v : View κ ν} (h : p.Posts ⟨[], {}⟩ v) :
    v.summary = ⟨p.inserted, p.refreshed, p.evicted, p.removed, v.entries.length⟩ ∧
      p.inserted = v.entries.length + p.evicted + p.removed + p.cleared := by
  refine ⟨?_, ?_⟩
  · simpa only [Tally.post, Nat.zero_add] using h.summary
  · simpa only [List.length_nil, Nat.zero_add] using h.entries.symm

/-! ## One operation of a shelf -/

namespace Shelf

variable {κ ν : Type} [BEq κ] [EquivBEq κ] {s : Shelf κ ν}

/-- The position of an operation leads to an entry that is there. -/
theorem isSome_find?_target? (inv : s.Inv) (op : Op κ ν) :
    ∀ e ∈ s.target? op, (s.roster.find? e.key).isSome := by
  intro e he
  obtain ⟨h, hat, rfl⟩ := Option.map_eq_some_iff.1 he
  obtain ⟨pos, -, hpos⟩ := Option.bind_eq_some_iff.1 hat
  rw [find?_roster, find?_key_of_at? inv hpos]
  rfl

variable [Inhabited ν]

/-- An operation on a shelf, as it is seen. -/
def step (s : Shelf κ ν) (op : Op κ ν) : Step κ ν :=
  ⟨op, s.target? op, s.roster.view, (s.perform op).1, (s.perform op).2.roster.view⟩

/-- No posting depends on where a position leads that was answered. -/
theorem posting_step (inv : s.Inv) (op : Op κ ν) :
    (s.step op).posting = (s.roster.step (s.target? op) op).posting := by
  rw [step, Roster.step, roster_perform inv]
  cases op with
  | query q => rfl
  | command m =>
    cases m with
    | push | pop | write | ensure | ensureWrite =>
      simp only [perform]
      generalize (s.apply _).1 = answer
      cases answer <;> rfl
    | _ => rfl

theorem posts_perform (inv : s.Inv) (op : Op κ ν) :
    (s.step op).posting.Posts s.roster.view (s.perform op).2.roster.view := by
  have hposts := Roster.posts_perform (Roster.distinct_roster inv) (isSome_find?_target? inv op) op
  rw [← posting_step inv, roster_perform inv] at hposts
  exact hposts

end Shelf

/-! ## A run -/

namespace Cache

variable {κ ν : Type} [BEq κ]

def view (c : Cache κ ν) : Except Fault (View κ ν) := do pure ⟨← c.toList, c.summary⟩

/-- Some operations as they are seen, and the cache after them. -/
def steps [Inhabited ν] (c : Cache κ ν) :
    List (Op κ ν) → Except Fault (List (Step κ ν) × Cache κ ν)
  | [] => pure ([], c)
  | op :: ops => do
    let target ← c.target? op
    let before ← c.view
    let (answer, c') ← c.perform op
    let after ← c'.view
    let (rest, last) ← c'.steps ops
    pure (⟨op, target, before, answer, after⟩ :: rest, last)

variable {c : Cache κ ν} {s : Shelf κ ν}

theorem Shows.view_eq (sh : c.Shows s) : c.view = .ok s.roster.view := by
  rw [view, sh.toList_eq, sh.summary_eq, Roster.view, Shelf.entries_roster, Shelf.summary_roster]
  rfl

variable [EquivBEq κ] [Inhabited ν]

/-- Along a run the counts grow by all that is seen. -/
theorem Shows.exists_steps (sh : c.Shows s) (ops : List (Op κ ν)) : ∃ steps last,
    c.steps ops = .ok (steps, last) ∧ c.run ops = .ok (steps.map Step.answer, last) ∧
      last.Shows (s.run ops).2 ∧ steps.map Step.op = ops ∧
      (∀ t ∈ steps, t.posting.Posts t.before t.after) ∧
      (Posting.total (steps.map Step.posting)).Posts s.roster.view (s.run ops).2.roster.view := by
  induction ops generalizing c s with
  | nil =>
    have hnothing : Posting.Posts {} s.roster.view s.roster.view := Roster.posts_nothing rfl rfl
    exact ⟨[], c, rfl, rfl, sh, rfl, List.forall_mem_nil _, hnothing⟩
  | cons op ops ih =>
    obtain ⟨c₁, hc₁, sh₁⟩ := sh.follows_perform op
    obtain ⟨steps, last, hsteps, hrun, sh', hops, hall, htotal⟩ := ih sh₁
    have hposts := Shelf.posts_perform sh.inv op
    refine ⟨s.step op :: steps, last, ?_, ?_, sh', ?_, List.forall_mem_cons.2 ⟨hposts, hall⟩,
      hposts.trans htotal⟩
    · simp only [Cache.steps, sh.target?_eq, sh.view_eq, hc₁, sh₁.view_eq, hsteps, Fault.ok_bind,
        Fault.pure_eq, Shelf.step]
    · simp only [run, hc₁, hrun, Fault.ok_bind, Fault.pure_eq, List.map_cons, Shelf.step]
    · rw [List.map_cons, hops, Shelf.step]

/-- **The counts balance.** After any run of a new cache its counts are the totals of what was seen
of the operations, and the entries that came are those that are held, were evicted, removed or
cleared away. In every step the counts grow by what is seen of it, and a quiet step counts
nothing. -/
theorem counts_balance {hash : κ → UInt64} (ha : Agrees hash) (capacity chainCount : Nat)
    (limit : Option Nat) (policy : Policy) (clock : HandClock) (ops : List (Op κ ν)) :
    ∃ steps last, (build capacity chainCount limit policy hash clock).steps ops =
        .ok (steps, last) ∧
      (build capacity chainCount limit policy hash clock).run ops =
        .ok (steps.map Step.answer, last) ∧
      steps.map Step.op = ops ∧
      (let p := Posting.total (steps.map Step.posting);
        last.summary = ⟨p.inserted, p.refreshed, p.evicted, p.removed, last.size⟩ ∧
          p.inserted = last.size + p.evicted + p.removed + p.cleared) ∧
      ∀ t ∈ steps, t.posting.Posts t.before t.after ∧ (t.isQuiet = true →
        t.after.summary = { t.before.summary with entries := t.after.entries.length }) := by
  have sh := shows_build (ν := ν) ha capacity chainCount limit policy clock
  obtain ⟨steps, last, hsteps, hrun, sh', hops, hall, htotal⟩ := sh.exists_steps ops
  refine ⟨steps, last, hsteps, hrun, hops, ?_, fun t ht => ⟨hall t ht, fun hquiet => ?_⟩⟩
  · rw [sh'.summary_eq, sh'.size_eq, ← Shelf.summary_roster, ← Shelf.size_roster,
      ← Roster.length_entries]
    exact htotal.balance
  · rw [(hall t ht).summary, Step.posting_of_isQuiet hquiet]
    rfl

/-- A refusal, insertions, a refresh under another spelling, a displacement, and entries that are
erased, evicted and cleared away. -/
theorem counts_balance_of_caseless :
    let ops : List (Op Caseless Int64) :=
      [.command .pop, .command (.push none ⟨⟨"a"⟩, 0⟩), .command (.ensure ⟨"b"⟩),
        .command (.push none ⟨⟨"A"⟩, 1⟩), .command (.ensureWrite ⟨"c"⟩ 2), .command (.erase ⟨"C"⟩),
        .command (.push none ⟨⟨"d"⟩, 3⟩), .command (.setCapacity 1), .command .clear]
    ∃ steps last, (build 2 3 none .bySize HashScheme.byteSum.hash .initial).steps ops =
        .ok (steps, last) ∧
      (build 2 3 none .bySize HashScheme.byteSum.hash .initial).run ops =
        .ok (steps.map Step.answer, last) ∧
      steps.map Step.op = ops ∧
      (let p := Posting.total (steps.map Step.posting);
        last.summary = ⟨p.inserted, p.refreshed, p.evicted, p.removed, last.size⟩ ∧
          p.inserted = last.size + p.evicted + p.removed + p.cleared) ∧
      ∀ t ∈ steps, t.posting.Posts t.before t.after ∧ (t.isQuiet = true →
        t.after.summary = { t.before.summary with entries := t.after.entries.length }) :=
  counts_balance (agrees_caseless .byteSum) 2 3 none .bySize .initial _

end Cache
end RecencyCache
