import RecencyCache.Proofs.Roster.Refinement
import RecencyCache.Proofs.Shelf.Rehash

/-!
# Hashes cannot be told from outside

Two caches with the same capacity, node limit, policy and clock, but with other hash functions and
other numbers of chains, stay in step through every run. After each operation they expose the same
(`Exposure`), down to the slots and generations of all entries, and they differ in nothing but
hashes and chains (`Rehashed`): `exposeRun_eq_of_rehashed`.
-/
namespace RecencyCache

/-- What a node keeps beside the hash of its key and its neighbours on a chain. -/
def Node.unhashed {κ ν : Type} (n : Node κ ν) : Record κ ν × Link := (⟨n.entry, n.stamp⟩, n.recency)

/-- What a cache shows after an operation. An answer about hashes is left out. -/
structure Exposure (κ ν : Type) where
  answer : Answer κ ν
  entries : List (Entry κ ν)
  entriesRev : List (Entry κ ν)
  /-- The position of each entry, found by its key. -/
  positions : List (Option Position)
  summary : Tally

namespace Cache

variable {κ ν : Type}

/-- `c'` is `c` but for hashes and chains: it has the same entries and stamps in the same slots,
with the same generations, free slots and order of recency. -/
structure Rehashed (c c' : Cache κ ν) : Prop where
  nodes : c'.nodes.map Node.unhashed = c.nodes.map Node.unhashed
  order : c'.order = c.order
  capacity : c'.capacity = c.capacity
  policy : c'.policy = c.policy
  clock : c'.clock = c.clock
  tally : c'.tally = c.tally

variable [BEq κ]

/-- What the cache shows after `op` was answered. -/
def expose (c : Cache κ ν) (op : Op κ ν) (answer : Answer κ ν) :
    Except Fault (Exposure κ ν) := do
  let entries ← c.toList
  let entriesRev ← c.toListRev
  let positions ← entries.mapM (c.position? ·.key)
  pure ⟨if op.onHashes then .done else answer, entries, entriesRev, positions, c.summary⟩

/-- What is exposed after each of some operations, and the cache after the last. -/
def exposeRun [Inhabited ν] (c : Cache κ ν) :
    List (Op κ ν) → Except Fault (List (Exposure κ ν) × Cache κ ν)
  | [] => pure ([], c)
  | op :: ops => do
    let (answer, c) ← c.perform op
    let seen ← c.expose op answer
    let (rest, c) ← c.exposeRun ops
    pure (seen :: rest, c)

namespace Shows

variable {c c' : Cache κ ν} {s : Shelf κ ν} {h : Held κ ν} {a b : List (Held κ ν)}
  {g : κ → UInt64} {m : Nat}

/-- What the node of a record keeps is told by the shelf. -/
theorem unhashed_eq (sh : c.Shows s) (hs : s.held = a ++ h :: b) :
    (c.nodes.get? h.slot).map Node.unhashed =
      some (h.record, ⟨a.getLast?.map Held.slot, b.head?.map Held.slot⟩) := by
  obtain ⟨n, hn, hentry, hstamp, -, hlink⟩ := sh.exists_node hs
  rw [Pool.get_eq_ok_iff.1 hn, Option.map_some, Node.unhashed, hentry, hstamp, hlink]

theorem rehashed (sh : c.Shows s) (sh' : c'.Shows (s.rehash g m)) : c.Rehashed c' where
  nodes := by
    refine Pool.map_eq_map (fun i => ?_) (fun i => ?_) ?_ ?_ ?_
    · rw [sh.generation?_eq, sh'.generation?_eq]
      rfl
    · by_cases hi : i ∈ s.slots
      · obtain ⟨h, hh, rfl⟩ := Shelf.mem_slots.1 hi
        obtain ⟨a, b, hs⟩ := List.append_of_mem hh
        rw [sh.unhashed_eq hs, sh'.unhashed_eq hs]
      · rw [sh.stores.get?_eq_none hi, sh'.stores.get?_eq_none hi]
    · exact sh'.stores.free.trans sh.stores.free.symm
    · exact sh'.stores.live.trans sh.stores.live.symm
    · exact sh'.stores.limit.trans sh.stores.limit.symm
  order := Recency.ext (sh'.head_eq.trans sh.head_eq.symm) (sh'.tail_eq.trans sh.tail_eq.symm)
    (sh'.size_eq.trans sh.size_eq.symm)
  capacity := sh'.capacity.trans sh.capacity.symm
  policy := sh'.policy.trans sh.policy.symm
  clock := sh'.clock.trans sh.clock.symm
  tally := sh'.tally.trans sh.tally.symm

variable [EquivBEq κ]

theorem expose_eq (sh : c.Shows s) (op : Op κ ν) (answer : Answer κ ν) : c.expose op answer =
    .ok ⟨if op.onHashes then .done else answer, s.entries, s.entries.reverse,
      s.entries.map fun e => (s.find? e.key).map s.positionOf, s.summary⟩ := by
  have hpositions : s.entries.mapM (c.position? ·.key) =
      .ok (s.entries.map fun e => (s.find? e.key).map s.positionOf) :=
    mapM_pure fun e _ => sh.position?_eq e.key
  simp only [expose, sh.toList_eq, sh.toListRev_eq, hpositions, sh.summary_eq, Fault.ok_bind,
    Fault.pure_eq]

variable [Inhabited ν]

/-- **One operation.** Both caches expose the same after it, and show the same shelf but for its
hashes. -/
theorem exists_expose (sh : c.Shows s) (sh' : c'.Shows (s.rehash g m)) (op : Op κ ν) :
    ∃ answer c₁ answer' c₁' seen, c.perform op = .ok (answer, c₁) ∧
      c'.perform op = .ok (answer', c₁') ∧ c₁.expose op answer = .ok seen ∧
      c₁'.expose op answer' = .ok seen ∧ c₁.Shows (s.perform op).2 ∧
      c₁'.Shows ((s.perform op).2.rehash g m) := by
  obtain ⟨c₁, hc₁, sh₁⟩ := sh.follows_perform op
  obtain ⟨c₁', hc₁', sh₁'⟩ := sh'.follows_perform op
  obtain ⟨hanswer, hrehash⟩ := s.perform_rehash g m op
  rw [hrehash] at sh₁'
  refine ⟨_, c₁, _, c₁', _, hc₁, hc₁', sh₁.expose_eq op _, ?_, sh₁, sh₁'⟩
  rw [sh₁'.expose_eq]
  by_cases hop : op.onHashes = true
  · rw [if_pos hop, if_pos hop]
    rfl
  · rw [if_neg hop, if_neg hop, hanswer (eq_false_of_ne_true hop)]
    rfl

/-- **A run.** Both caches stay in step. -/
theorem exists_exposeRun (sh : c.Shows s) (sh' : c'.Shows (s.rehash g m)) (ops : List (Op κ ν)) :
    ∃ seen last last', c.exposeRun ops = .ok (seen, last) ∧ c'.exposeRun ops = .ok (seen, last') ∧
      last.Rehashed last' := by
  induction ops generalizing c c' s with
  | nil => exact ⟨[], c, c', rfl, rfl, sh.rehashed sh'⟩
  | cons op ops ih =>
    obtain ⟨answer, c₁, answer', c₁', seen, hc₁, hc₁', hseen, hseen', sh₁, sh₁'⟩ :=
      sh.exists_expose sh' op
    obtain ⟨rest, last, last', hrest, hrest', hlast⟩ := ih sh₁ sh₁'
    refine ⟨seen :: rest, last, last', ?_, ?_, hlast⟩
    · simp only [exposeRun, hc₁, hseen, hrest, Fault.ok_bind, Fault.pure_eq]
    · simp only [exposeRun, hc₁', hseen', hrest', Fault.ok_bind, Fault.pure_eq]

end Shows

variable [EquivBEq κ] [Inhabited ν] {hash hash' : κ → UInt64}

/-- **Hashing is invisible.** New caches of one kind expose the same after every operation of every
run, whatever their hash functions and numbers of chains. -/
theorem exposeRun_eq_of_rehashed (ha : Agrees hash) (ha' : Agrees hash')
    (capacity chainCount chainCount' : Nat) (limit : Option Nat) (policy : Policy)
    (clock : HandClock) (ops : List (Op κ ν)) : ∃ seen last last',
      (build capacity chainCount limit policy hash clock).exposeRun ops = .ok (seen, last) ∧
      (build capacity chainCount' limit policy hash' clock).exposeRun ops = .ok (seen, last') ∧
      last.Rehashed last' := by
  have sh := shows_empty (ν := ν) ha capacity chainCount policy clock
  have sh' := shows_empty (ν := ν) ha' capacity chainCount' policy clock
  cases limit with
  | none => exact sh.exists_exposeRun sh' ops
  | some n => exact (sh.shows_limitNodes n).exists_exposeRun (sh'.shows_limitNodes n) ops

/-- Keys on four chains and on one, where all of them have the same hash. -/
theorem exposeRun_of_constant_hash :
    let ops : List (Op Int64 Unit) :=
      [.command (.push none ⟨0, ()⟩), .command (.push none ⟨1, ()⟩), .command (.push none ⟨0, ()⟩),
        .command (.push none ⟨2, ()⟩), .query .longestChain, .query (.position 2),
        .command (.erase 0), .command (.push none ⟨3, ()⟩), .command (.eraseAt ⟨1, 0⟩)]
    ∃ seen last last',
      (build 2 4 (some 2) .bySize HashScheme.identity.hash .initial).exposeRun ops =
        .ok (seen, last) ∧
      (build 2 0 (some 2) .bySize (fun _ => 0) .initial).exposeRun ops = .ok (seen, last') ∧
      last.Rehashed last' :=
  exposeRun_eq_of_rehashed (agrees_of_lawful _) (agrees_of_lawful _) 2 4 0 (some 2) .bySize
    .initial _

end Cache
end RecencyCache
