import RecencyCache.Proofs.Cache.History
import RecencyCache.Proofs.Roster.Size

/-!
# No more entries than the capacity

A cache that evicts by size alone never holds more entries than its capacity, or than one, whatever
was done to it and however its capacity was changed on the way; and a capacity that was just set is
met at once: `size_le_capacity`.
-/
namespace RecencyCache.Cache

variable {κ ν : Type} [BEq κ] [EquivBEq κ] [Inhabited ν] {hash : κ → UInt64} {c c' : Cache κ ν}

/-- The policy of a cache without a window never gets one. -/
theorem Shows.bySize_perform {s : Shelf κ ν} (sh : c.Shows s) (hp : s.policy = .bySize)
    (op : Op κ ν) : (s.perform op).2.policy = .bySize :=
  (Shelf.changes_roster sh.inv op).keeps (P := fun r => r.policy = .bySize)
    (fun _ _ h => (Roster.bySize_iff_of_change h).2) hp

theorem Reachable.bySize_of_perform (hc : c.Reachable hash) (ha : Agrees hash)
    (hp : c.policy = .bySize) {op : Op κ ν} {answer : Answer κ ν}
    (hop : c.perform op = .ok (answer, c')) : c'.policy = .bySize := by
  obtain ⟨s, sh⟩ := hc.exists_shows ha
  have sh' := ((sh.follows_perform op).of_ok hop).2
  exact sh'.policy.trans (sh.bySize_perform (sh.policy.symm.trans hp) op)

theorem Reachable.size_le (hc : c.Reachable hash) (ha : Agrees hash) (hp : c.policy = .bySize) :
    c.size ≤ max c.capacity 1 := by
  have hnew : ∀ capacity policy clock,
      Roster.Bounded ({ capacity, policy, clock } : Roster κ ν) := by
    intro capacity policy clock _
    exact Nat.zero_le _
  obtain ⟨s, sh, hbounded⟩ :=
    hc.exists_shows_roster hnew (fun _ _ => Roster.bounded_of_change) ha
  rw [sh.size_eq, sh.capacity, ← Shelf.size_roster]
  exact hbounded (sh.policy.symm.trans hp)

/-- A capacity is met as soon as it is set. -/
theorem Shows.exists_setCapacity {s : Shelf κ ν} (sh : c.Shows s) (hp : c.policy = .bySize)
    (n : Nat) : ∃ evicted c', c.setCapacity n = .ok (evicted, c') ∧ c'.capacity = n ∧
      c'.size ≤ n := by
  obtain ⟨c', hc', sh'⟩ := sh.follows_setCapacity n
  have hroster : (s.roster.setCapacity n).2 = (s.setCapacity n).2.roster :=
    congrArg Prod.snd (Shelf.roster_perform sh.inv (.command (.setCapacity n)))
  have hcapacity : (s.setCapacity n).2.roster.capacity = n := by
    rw [← hroster]
    rfl
  refine ⟨_, c', hc', sh'.capacity.trans hcapacity, ?_⟩
  rw [sh'.size_eq, ← Shelf.size_roster, ← hroster]
  exact Roster.length_kept_le_capacity (sh.policy.symm.trans hp)

/-- **Size bound.** In every state of every run a cache without a window holds no more entries than
its capacity, or than one; and with a capacity that is set there, no more than that. -/
theorem size_le_capacity (ha : Agrees hash) (hc : c.Reachable hash) (hp : c.policy = .bySize)
    (ops : List (Op κ ν)) : ∃ earlier last, c.history ops = .ok (earlier, last) ∧
      ∀ x ∈ earlier ++ [last], x.policy = .bySize ∧ x.size ≤ max x.capacity 1 ∧
        ∀ n, ∃ evicted y, x.setCapacity n = .ok (evicted, y) ∧ y.capacity = n ∧ y.size ≤ n := by
  obtain ⟨earlier, last, hlast, -⟩ := hc.exists_history ha ops
  have hall := forall_mem_history (P := fun x => x.Reachable hash ∧ x.policy = .bySize)
    (fun x hx op _ answer y hop => ⟨hx.1.perform hop, hx.1.bySize_of_perform ha hx.2 hop⟩)
    ⟨hc, hp⟩ hlast
  refine ⟨earlier, last, hlast, fun x hx => ?_⟩
  obtain ⟨hreach, hbySize⟩ := hall x hx
  obtain ⟨s, sh⟩ := hreach.exists_shows ha
  exact ⟨hbySize, hreach.size_le ha hbySize, sh.exists_setCapacity hbySize⟩

/-- A cache for no entries at all, whose capacity is raised and lowered. -/
theorem size_le_capacity_of_zero :
    let ops : List (Op Int64 Unit) :=
      [.command (.push none ⟨0, ()⟩), .command (.push none ⟨1, ()⟩), .command (.setCapacity 3),
        .command (.push none ⟨2, ()⟩), .command (.push none ⟨3, ()⟩), .command (.setCapacity 1)]
    ∃ earlier last, (empty 0 1 .bySize HashScheme.identity.hash : Cache Int64 Unit).history ops =
        .ok (earlier, last) ∧ ∀ x ∈ earlier ++ [last], x.policy = .bySize ∧
      x.size ≤ max x.capacity 1 ∧
      ∀ n, ∃ evicted y, x.setCapacity n = .ok (evicted, y) ∧ y.capacity = n ∧ y.size ≤ n :=
  size_le_capacity (agrees_of_lawful _) (.empty ..) rfl _

end RecencyCache.Cache
