import RecencyCache.Proofs.Cache.Bound
import RecencyCache.Proofs.Shelf.Timeless

/-!
# Where all entries are expired, the window does not matter

A cache with a window and one without run in tandem: the second one leaves out what is about time.
The two part where an entry is too many and the oldest one is still fresh. But in a run in which
every operation that may bring an entry in, or sets a capacity, finds all entries expired, both
answer the same, and after each operation no query can tell them apart: `tandem_of_expired`.
-/
namespace RecencyCache

/-- What two caches in tandem answered to an operation, and what they became. -/
structure Tandem (κ ν : Type) where
  op : Op κ ν
  answer : Answer κ ν
  /-- There is none if the operation is about time. -/
  reply : Option (Answer κ ν)
  timed : Cache κ ν
  plain : Cache κ ν

/-! ## On the shelf -/

namespace Shelf

variable {κ ν : Type} {s : Shelf κ ν}

def allExpired (s : Shelf κ ν) : Bool :=
  s.held.all fun h => s.policy.isExpired h.record.stamp s.clock.now

theorem ripe_of_allExpired (h : s.allExpired = true) : s.Ripe :=
  fun x hx => Policy.mayLeave_of_isExpired (List.all_eq_true.1 h x hx)

variable [BEq κ] [Inhabited ν]

/-- Whether every operation that may bring a record in or tightens a limit finds all records
expired. -/
def runsExpired (s : Shelf κ ν) : List (Op κ ν) → Bool
  | [] => true
  | op :: ops =>
    (!(op.inserts || op.tightens) || s.allExpired) && (s.perform op).2.runsExpired ops

end Shelf

namespace Cache

variable {κ ν : Type} [BEq κ]

/-- Whether all entries are expired. -/
def allExpired (c : Cache κ ν) : Except Fault Bool := do
  let late ← (← c.keys).mapM c.isExpired
  pure (late.all id)

/-- Whether in a run every operation that may bring an entry in or tightens a limit finds all
entries expired. -/
def runsExpired [Inhabited ν] (c : Cache κ ν) : List (Op κ ν) → Except Fault Bool
  | [] => pure true
  | op :: ops => do
    let expired ← c.allExpired
    let (_, c) ← c.perform op
    let rest ← c.runsExpired ops
    pure ((!(op.inserts || op.tightens) || expired) && rest)

/-- Performs an operation unless it is about time. -/
def keepUp [Inhabited ν] (d : Cache κ ν) (op : Op κ ν) :
    Except Fault (Option (Answer κ ν) × Cache κ ν) :=
  if op.isTimed then pure (none, d) else .map some id <$> d.perform op

/-- A run of one cache, with another one beside it that leaves out what is about time. -/
def tandem [Inhabited ν] (c d : Cache κ ν) : List (Op κ ν) → Except Fault (List (Tandem κ ν))
  | [] => pure []
  | op :: ops => do
    let (answer, c) ← c.perform op
    let (reply, d) ← d.keepUp op
    let rest ← c.tandem d ops
    pure (⟨op, answer, reply, c, d⟩ :: rest)

/-- All queries that are not about time have the same answers. -/
def Coincides (c d : Cache κ ν) : Prop :=
  ∀ q : Query κ, Op.isTimed (.query q : Op κ ν) = false →
    ∃ answer, c.ask q = .ok answer ∧ d.ask q = .ok answer

variable [EquivBEq κ] {c d : Cache κ ν} {s t : Shelf κ ν}

namespace Shows

theorem allExpired_eq (sh : c.Shows s) : c.allExpired = .ok s.allExpired := by
  have hlate : ∀ h ∈ s.held,
      c.isExpired h.key = .ok (s.policy.isExpired h.record.stamp s.clock.now) := by
    intro h hh
    rw [sh.isExpired_eq, sh.inv.find?_eq_some_iff.2 ⟨hh, BEq.rfl⟩]
    rfl
  have hkeys : c.keys = .ok (s.held.map Held.key) := by
    rw [keys, sh.toList_eq, Fault.map_ok, Shelf.entries, List.map_map]
    rfl
  rw [allExpired, hkeys, Fault.ok_bind, List.mapM_map]
  simp only [Function.comp_def]
  rw [mapM_pure hlate, Fault.pure_eq, Fault.ok_bind, List.all_map]
  rfl

theorem coincides (sh : c.Shows s) (sh' : d.Shows t) (h : s.timeless = t.timeless) :
    c.Coincides d := by
  intro q hq
  refine ⟨s.ask q, sh.ask_eq q, ?_⟩
  rw [sh'.ask_eq, ← Shelf.ask_timeless s hq, h, Shelf.ask_timeless t hq]

variable [Inhabited ν]

theorem runsExpired_eq (sh : c.Shows s) (ops : List (Op κ ν)) :
    c.runsExpired ops = .ok (s.runsExpired ops) := by
  induction ops generalizing c s with
  | nil => rfl
  | cons op ops ih =>
    obtain ⟨c₁, hc₁, sh₁⟩ := sh.follows_perform op
    simp only [runsExpired, sh.allExpired_eq, hc₁, ih sh₁, Fault.ok_bind, Fault.pure_eq,
      Shelf.runsExpired]

/-- **One operation.** The cache without a window keeps up, and gives the same answer if it gives
one. -/
theorem exists_keepUp (sh : d.Shows t) (h : s.timeless = t.timeless) (hp : t.policy = .bySize)
    {op : Op κ ν} (hset : ∀ w, op ≠ .command (.setWindow w))
    (hold : op.inserts = true ∨ op.tightens = true → s.Ripe) :
    ∃ d' t', d.keepUp op = .ok (if op.isTimed then none else some (s.perform op).1, d') ∧
      d'.Shows t' ∧ (s.perform op).2.timeless = t'.timeless ∧ t'.policy = .bySize := by
  cases hop : op.isTimed with
  | true =>
    refine ⟨d, t, ?_, sh, (s.timeless_perform hop hset).trans h, hp⟩
    rw [keepUp, hop]
    rfl
  | false =>
    obtain ⟨d', hd', sh'⟩ := sh.follows_perform op
    have hs := Shelf.perform_timeless hop hold
    have ht := Shelf.perform_timeless hop fun _ => Shelf.ripe_of_bySize hp
    rw [h, ht, Prod.ext_iff] at hs
    have hanswer : (t.perform op).1 = (s.perform op).1 := hs.1
    refine ⟨d', _, ?_, sh', hs.2.symm, sh.bySize_perform hp op⟩
    rw [keepUp, hop, hd', hanswer]
    rfl

/-- **A run.** The two stay in step. -/
theorem exists_tandem (sh : c.Shows s) (sh' : d.Shows t) (h : s.timeless = t.timeless)
    (hp : t.policy = .bySize) {ops : List (Op κ ν)} (hset : ∀ w, .command (.setWindow w) ∉ ops)
    (hold : s.runsExpired ops = true) :
    ∃ pairs, c.tandem d ops = .ok pairs ∧ pairs.map Tandem.op = ops ∧
      ∀ p ∈ pairs, p.reply = (if p.op.isTimed then none else some p.answer) ∧
        p.timed.Coincides p.plain := by
  induction ops generalizing c d s t with
  | nil => exact ⟨[], rfl, rfl, List.forall_mem_nil _⟩
  | cons op ops ih =>
    rw [Shelf.runsExpired, Bool.and_eq_true] at hold
    obtain ⟨hfirst, hrest⟩ := hold
    have hripe : op.inserts = true ∨ op.tightens = true → s.Ripe := by
      intro hop
      rw [← Bool.or_eq_true] at hop
      rw [hop] at hfirst
      exact Shelf.ripe_of_allExpired hfirst
    obtain ⟨c₁, hc₁, sh₁⟩ := sh.follows_perform op
    obtain ⟨d₁, t₁, hd₁, sh₁', h₁, hp₁⟩ := sh'.exists_keepUp h hp
      (fun w hw => hset w (hw ▸ List.mem_cons_self)) hripe
    obtain ⟨pairs, hpairs, hops, hall⟩ := ih sh₁ sh₁' h₁ hp₁
      (fun w hw => hset w (List.mem_cons_of_mem op hw)) hrest
    let first : Tandem κ ν := ⟨op, (s.perform op).1,
      if op.isTimed then none else some (s.perform op).1, c₁, d₁⟩
    refine ⟨first :: pairs, ?_, congrArg (op :: ·) hops,
      List.forall_mem_cons.2 ⟨⟨rfl, sh₁.coincides sh₁' h₁⟩, hall⟩⟩
    simp only [tandem, hc₁, hd₁, hpairs, Fault.ok_bind, Fault.pure_eq, first]

end Shows

variable [Inhabited ν] {hash : κ → UInt64}

/-- **Where all entries are expired, the window does not matter.** A new cache with a window and one
without, with the same capacity, node limit, chains and hashes, run in tandem, without a change of
the window. If every push, also of a default value, and every change of the capacity finds all
entries of the first one expired, then both give the same answers and cannot be told apart after any
operation. -/
theorem tandem_of_expired (ha : Agrees hash) (capacity chainCount : Nat) (limit : Option Nat)
    (window : Duration) (clock clock' : HandClock) {ops : List (Op κ ν)}
    (hset : ∀ w, .command (.setWindow w) ∉ ops)
    (hold : (build capacity chainCount limit (.bySizeAndAge window) hash clock).runsExpired ops =
      .ok true) :
    ∃ pairs, (build capacity chainCount limit (.bySizeAndAge window) hash clock).tandem
        (build capacity chainCount limit .bySize hash clock') ops = .ok pairs ∧
      pairs.map Tandem.op = ops ∧
      ∀ p ∈ pairs, p.reply = (if p.op.isTimed then none else some p.answer) ∧
        p.timed.Coincides p.plain := by
  have sh := shows_build (ν := ν) ha capacity chainCount limit (.bySizeAndAge window) clock
  have sh' := shows_build (ν := ν) ha capacity chainCount limit .bySize clock'
  rw [sh.runsExpired_eq, Except.ok.injEq] at hold
  exact sh.exists_tandem sh' rfl rfl hset hold

/-- No room at all, a window of no length, and a clock that goes on between the operations: a push
into the empty cache, one that displaces its entry, an absent key that is ensured, and a capacity
that is set to one and to none. -/
theorem tandem_of_no_window :
    let ops : List (Op Int64 Int64) :=
      [.command (.push none ⟨0, 0⟩), .command (.advance (.ofMillis 1)),
        .command (.push none ⟨1, 1⟩), .command (.advance (.ofMillis 1)), .command (.ensure 2),
        .query (.deadline 2), .command (.advance (.ofMillis 1)), .command (.setCapacity 1),
        .command (.setCapacity 0), .query .summary]
    ∃ pairs, (build 0 2 none (.bySizeAndAge (.ofMillis 0)) HashScheme.identity.hash .initial).tandem
        (build 0 2 none .bySize HashScheme.identity.hash .initial) ops = .ok pairs ∧
      pairs.map Tandem.op = ops ∧
      ∀ p ∈ pairs, p.reply = (if p.op.isTimed then none else some p.answer) ∧
        p.timed.Coincides p.plain := by
  intro ops
  have ha := agrees_of_lawful (κ := Int64) HashScheme.identity.hash
  have hset : ∀ w, .command (.setWindow w) ∉ ops := by simp [ops]
  have sh := shows_build (ν := Int64) ha 0 2 none (.bySizeAndAge (.ofMillis 0)) .initial
  refine tandem_of_expired ha 0 2 none (.ofMillis 0) .initial .initial hset ?_
  rw [sh.runsExpired_eq]
  rfl

end Cache
end RecencyCache
