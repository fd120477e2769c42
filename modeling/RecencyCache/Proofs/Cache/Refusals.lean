import RecencyCache.Proofs.Cache.History
import RecencyCache.Proofs.Roster.Size

/-!
# Refused insertions

An insertion is refused for want of a node and for nothing else: the key is absent, the limit is
reached, and no entry has to leave (`NoRoom`). Then the cache is the one it was before. Under a
limit the number of entries only ever grows up to it, also in a cache that has more entries than the
limit when it is set: `refused_iff_noRoom`.
-/
namespace RecencyCache

/-- The key of the entry that an operation may bring in. -/
def Op.newcomer? {κ ν : Type} : Op κ ν → Option κ
  | .command (.push _ e) => some e.key
  | .command (.ensure k) | .command (.ensureWrite k _) => some k
  | _ => none

namespace Shelf

variable {κ ν : Type} [BEq κ] {s : Shelf κ ν} {k : κ} {n : Nat} {r : Refusal}

/-- An entry with key `k` would need a slot of its own, and the limit is reached. -/
structure NoRoom (s : Shelf κ ν) (k : κ) (n : Nat) : Prop where
  absent : s.find? k = none
  stays : s.victim? = none
  reached : s.reachedLimit? = some n

theorem exists_noRoom_of_push {e : Entry κ ν} (h : (s.push e).1 = .error r) :
    ∃ n, s.NoRoom e.key n := by
  unfold push at h
  split at h
  · cases h
  · rename_i hk
    split at h
    · cases h
    · rename_i hv
      unfold insertNew at h
      split at h
      · rename_i n hl
        exact ⟨n, hk, hv, hl⟩
      · cases h

variable [Inhabited ν]

theorem exists_noRoom_of_ensure (h : (s.ensure k).1 = .error r) : ∃ n, s.NoRoom k n := by
  unfold ensure at h
  cases hk : s.find? k with
  | some x =>
    rw [hk] at h
    cases h
  | none =>
    have hroom := fun r => exists_noRoom_of_push (s := s) (e := ⟨k, default⟩) (r := r)
    have hhead := fun b => head?_push (s := s) (e := ⟨k, default⟩) (r := b) hk
    rw [hk] at h
    generalize s.push ⟨k, default⟩ = t at h hroom hhead
    obtain ⟨b | b, s'⟩ := t
    · exact hroom b rfl
    · -- what was pushed comes first, so there is a first record
      obtain ⟨x, hx, -⟩ := hhead b rfl
      simp only at h hx
      rw [hx] at h
      cases h

theorem exists_noRoom_of_perform {op : Op κ ν} (hk : op.newcomer? = some k)
    (h : (s.perform op).1 = .refused r) : ∃ n, s.NoRoom k n := by
  unfold Op.newcomer? at hk
  split at hk <;> cases hk
  · rename_i hint e
    cases hp : (s.push e).1 with
    | error r' => exact exists_noRoom_of_push hp
    | ok b => simp [perform, apply, hp, Answer.ofExcept] at h
  · cases he : (s.ensure k).1 with
    | error r' => exact exists_noRoom_of_ensure he
    | ok x => simp [perform, apply, he, Answer.ofExcept] at h
  · have hroom := fun r' => exists_noRoom_of_ensure (s := s) (k := k) (r := r')
    simp only [perform, apply] at h
    generalize s.ensure k = t at h hroom
    obtain ⟨r' | x, s'⟩ := t
    · exact hroom r' rfl
    · cases h

end Shelf

namespace Cache

variable {κ ν : Type} [BEq κ] {c c' : Cache κ ν} {s : Shelf κ ν} {k : κ} {n : Nat}

/-- There is no node for an entry with key `k`: the key is absent, the node limit `n` is reached,
and one entry more would not make the oldest one leave, if there is one. -/
structure NoRoom (c : Cache κ ν) (k : κ) (n : Nat) : Prop where
  absent : c.contains k = .ok false
  limit : c.nodes.limit = some n
  reached : n ≤ c.size
  stays : c.isEmpty = true ∨ c.wouldEvict (c.size + 1) = .ok false

variable [EquivBEq κ]

theorem Shows.noRoom_iff (sh : c.Shows s) : c.NoRoom k n ↔ s.NoRoom k n := by
  have habsent : c.contains k = .ok false ↔ s.find? k = none := by
    rw [sh.contains_eq, Except.ok.injEq, Option.isSome_eq_false_iff, Option.isNone_iff_eq_none]
  have hreached : s.reachedLimit? = some n ↔ c.nodes.limit = some n ∧ n ≤ c.size := by
    rw [Shelf.reachedLimit?, sh.stores.limit, sh.size_eq, Option.filter_eq_some_iff,
      decide_eq_true_eq]
  have hstays : s.victim? = none ↔
      c.isEmpty = true ∨ c.wouldEvict (c.size + 1) = .ok false := by
    have hempty : c.isEmpty = true ↔ s.oldest? = none := by
      rw [isEmpty, sh.size_eq, beq_iff_eq, Shelf.oldest?_eq_none_iff]
    rw [sh.wouldEvict_eq, sh.size_eq, hempty, Shelf.victim?, Except.ok.injEq]
    cases s.overfull (s.size + 1) <;> simp
  constructor
  · rintro ⟨ha, hl, hr, hs⟩
    exact ⟨habsent.1 ha, hstays.2 hs, hreached.2 ⟨hl, hr⟩⟩
  · rintro ⟨ha, hs, hr⟩
    obtain ⟨hl, hr⟩ := hreached.1 hr
    exact ⟨habsent.2 ha, hl, hr, hstays.1 hs⟩

theorem Shows.push_of_noRoom {e : Entry κ ν} (sh : c.Shows s) (h : s.NoRoom e.key n) :
    c.push e = .ok (.error (.nodeLimitReached n), c) := by
  simp only [push, sh.slot?_eq, h.absent, Option.map_none, sh.victim?_eq, h.stays, insertNew,
    sh.stores.store_refused h.reached, Fault.ok_bind, Fault.pure_eq]

variable [Inhabited ν]

theorem Shows.ensureSlot_of_noRoom (sh : c.Shows s) (h : s.NoRoom k n) :
    c.ensureSlot k = .ok (.error (.nodeLimitReached n), c) := by
  have hpush := sh.push_of_noRoom (e := ⟨k, default⟩) h
  simp only [ensureSlot, sh.slot?_eq, h.absent, Option.map_none, hpush, Fault.ok_bind,
    Fault.pure_eq]

/-- Without room an insertion is refused, and the cache stays as it is. -/
theorem Shows.perform_of_noRoom {op : Op κ ν} (sh : c.Shows s) (hk : op.newcomer? = some k)
    (h : s.NoRoom k n) : c.perform op = .ok (.refused (.nodeLimitReached n), c) := by
  unfold Op.newcomer? at hk
  split at hk <;> cases hk
  · rw [perform, apply, sh.push_of_noRoom h]
    rfl
  · rw [perform, apply, ensure, sh.ensureSlot_of_noRoom h]
    rfl
  · rw [perform, apply, ensureWrite, sh.ensureSlot_of_noRoom h]
    rfl

/-- An operation that sets no other limit takes the size at most up to the limit. -/
theorem Shows.size_le_of_perform {op : Op κ ν} {answer : Answer κ ν} (sh : c.Shows s)
    (hl : c.nodes.limit = some n) (hm : ∀ m, op = .command (.limitNodes m) → m = n)
    (hop : c.perform op = .ok (answer, c')) :
    c'.nodes.limit = some n ∧ c'.size ≤ max c.size n := by
  have sh' := ((sh.follows_perform op).of_ok hop).2
  have hlimit : s.limit = some n := sh.stores.limit.symm.trans hl
  have hstart : s.roster.Within n s.size :=
    ⟨hlimit, by rw [Shelf.size_roster]; exact le_max_left ..⟩
  have hwithin := (Shelf.steadyChanges_roster sh.inv op fun m h => hm m h ▸ hlimit).keeps
    (P := fun r => r.Within n s.size) (fun _ _ => Roster.within_of_change) hstart
  rw [sh'.size_eq, sh'.stores.limit, sh.size_eq, ← Shelf.size_roster]
  exact ⟨hwithin.limit, hwithin.size⟩

/-- An insertion is refused exactly if there is no room, and then nothing changes. -/
theorem Shows.exists_perform_newcomer {op : Op κ ν} (sh : c.Shows s) (hk : op.newcomer? = some k) :
    ∃ answer c', c.perform op = .ok (answer, c') ∧
      (∀ r, answer = .refused r ↔ ∃ n, c.NoRoom k n ∧ r = .nodeLimitReached n) ∧
      ((∃ n, c.NoRoom k n) → c' = c) := by
  by_cases hroom : ∃ n, c.NoRoom k n
  · obtain ⟨n, hn⟩ := hroom
    refine ⟨_, c, sh.perform_of_noRoom hk (sh.noRoom_iff.1 hn), fun r => ?_, fun _ => rfl⟩
    rw [Answer.refused.injEq]
    constructor
    · rintro rfl
      exact ⟨n, hn, rfl⟩
    · rintro ⟨m, hm, rfl⟩
      rw [Option.some.inj (hn.limit.symm.trans hm.limit)]
  · obtain ⟨c', hc', -⟩ := sh.follows_perform op
    refine ⟨_, c', hc', fun r => ?_, fun h => absurd h hroom⟩
    constructor
    · intro h
      obtain ⟨n, hn⟩ := Shelf.exists_noRoom_of_perform hk h
      exact absurd ⟨n, sh.noRoom_iff.2 hn⟩ hroom
    · rintro ⟨n, hn, -⟩
      exact absurd ⟨n, hn⟩ hroom

variable {hash : κ → UInt64} {ops : List (Op κ ν)}

/-- A run that sets no other limit. -/
theorem Reachable.exists_history_limited (hc : c.Reachable hash) (ha : Agrees hash)
    (hl : c.nodes.limit = some n) (hops : ∀ m, .command (.limitNodes m) ∈ ops → m = n) :
    ∃ earlier last, c.history ops = .ok (earlier, last) ∧
      (earlier ++ [last]).IsChain (fun x y => y.size ≤ max x.size n) ∧
      ∀ x ∈ earlier ++ [last], x.nodes.limit = some n ∧ x.size ≤ max c.size n := by
  obtain ⟨earlier, last, hlast, hreach⟩ := hc.exists_history ha ops
  have hstep : ∀ x : Cache κ ν, x.Reachable hash → x.nodes.limit = some n → ∀ op ∈ ops,
      ∀ answer y, x.perform op = .ok (answer, y) →
        y.nodes.limit = some n ∧ y.size ≤ max x.size n := by
    intro x hx hlimit op hmem answer y hop
    obtain ⟨s, sh⟩ := hx.exists_shows ha
    exact sh.size_le_of_perform hlimit (fun m hm => hops m (hm ▸ hmem)) hop
  have hall := forall_mem_history
    (P := fun x => x.Reachable hash ∧ x.nodes.limit = some n ∧ x.size ≤ max c.size n)
    (fun x hx op hmem answer y hop => by
      obtain ⟨hx, hlimit, hle⟩ := hx
      obtain ⟨hlimit', hle'⟩ := hstep x hx hlimit op hmem answer y hop
      exact ⟨hx.perform hop, hlimit', by omega⟩)
    ⟨hc, hl, by omega⟩ hlast
  refine ⟨earlier, last, hlast, isChain_history hlast ?_, fun x hx => (hall x hx).2⟩
  intro x hx op hmem answer y hop
  exact (hstep x (hreach x hx) (hall x hx).2.1 op hmem answer y hop).2

/-- **Refusals.** An operation that may bring in key `k` is refused exactly if there is no room for
it; the refusal names the limit, and the cache stays as it is. Under a limit the size grows at most
up to it, from each state of a run to the next. -/
theorem refused_iff_noRoom (ha : Agrees hash) (hc : c.Reachable hash) :
    (∀ op k, op.newcomer? = some k → ∃ answer c', c.perform op = .ok (answer, c') ∧
      (∀ r, answer = .refused r ↔ ∃ n, c.NoRoom k n ∧ r = .nodeLimitReached n) ∧
      ((∃ n, c.NoRoom k n) → c' = c)) ∧
    ∀ n d, c.nodes.limit = some n ∧ d = c ∨ d = c.limitNodes n →
      ∀ ops, (∀ m, .command (.limitNodes m) ∈ ops → m = n) →
        ∃ earlier last, d.history ops = .ok (earlier, last) ∧
          (earlier ++ [last]).IsChain (fun x y => y.size ≤ max x.size n) ∧
          ∀ x ∈ earlier ++ [last], x.nodes.limit = some n ∧ x.size ≤ max c.size n := by
  constructor
  · intro op k hk
    obtain ⟨s, sh⟩ := hc.exists_shows ha
    exact sh.exists_perform_newcomer hk
  · rintro n d (⟨hl, rfl⟩ | rfl) ops hops
    · exact hc.exists_history_limited ha hl hops
    · have hset : c.perform (.command (.limitNodes n)) =
          .ok (.limit (some n), c.limitNodes n) := rfl
      exact (hc.perform hset).exists_history_limited ha rfl hops

/-- A limit of one is set where there are two entries: a third is refused, until both are popped. -/
theorem refused_over_limit : ∃ c,
    (empty 5 2 .bySize HashScheme.identity.hash : Cache Int64 Unit).run
      [.command (.push none ⟨0, ()⟩), .command (.push none ⟨1, ()⟩), .command (.limitNodes 1)] =
        .ok ([.flag true, .flag true, .limit (some 1)], c) ∧
    c.NoRoom 2 1 ∧
    c.perform (.command (.push none ⟨2, ()⟩)) = .ok (.refused (.nodeLimitReached 1), c) ∧
    ∃ earlier last, c.history [.command .pop, .command (.push none ⟨2, ()⟩), .command .pop,
        .command (.push none ⟨2, ()⟩)] = .ok (earlier, last) ∧
      (earlier ++ [last]).IsChain (fun x y => y.size ≤ max x.size 1) ∧
      ∀ x ∈ earlier ++ [last], x.nodes.limit = some 1 ∧ x.size ≤ max c.size 1 := by
  have ha := agrees_of_lawful (κ := Int64) HashScheme.identity.hash
  have sh₀ := shows_empty (ν := Unit) ha 5 2 .bySize .initial
  obtain ⟨c, hrun, sh⟩ := sh₀.follows_run [.command (.push none ⟨0, ()⟩),
    .command (.push none ⟨1, ()⟩), .command (.limitNodes 1)]
  have hroom : c.NoRoom 2 1 := sh.noRoom_iff.2 ⟨rfl, rfl, rfl⟩
  have hlimit : ∀ m, .command (.limitNodes m) ∈ ([.command .pop, .command (.push none ⟨2, ()⟩),
      .command .pop, .command (.push none ⟨2, ()⟩)] : List (Op Int64 Unit)) → m = 1 := by
    intro m hm
    simp at hm
  obtain ⟨hrefuse, hgrow⟩ := refused_iff_noRoom ha ((Reachable.empty ..).run hrun)
  obtain ⟨answer, c', hc', hiff, hsame⟩ :=
    hrefuse (.command (.push none ⟨2, ()⟩)) 2 rfl
  rw [hsame ⟨1, hroom⟩, (hiff _).2 ⟨1, hroom, rfl⟩] at hc'
  exact ⟨c, hrun, hroom, hc', hgrow 1 c (.inl ⟨hroom.limit, rfl⟩) _ hlimit⟩

end Cache
end RecencyCache
