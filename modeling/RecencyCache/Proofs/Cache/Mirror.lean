import RecencyCache.Proofs.Roster.Refinement
import RecencyCache.Proofs.Shelf.Bare

/-!
# A map is a set of its keys

A set follows a map: it pushes, takes and erases the same keys, and pushes a key that the map
ensures if it does not have it; where the map writes a value, the set does nothing (`mirror`). Two
such caches of one kind stay in step through every run (`beside_build`). The answers tell the same,
and after each operation all queries do, positions and chains included (`Mirrors`). The same set
follows all maps that differ in values alone, so values have no influence on anything else.
-/
namespace RecencyCache

/-- What a map and the set that follows it answered to an operation, and what they became. -/
structure Moment (κ ν : Type) where
  op : Op κ ν
  answer : Answer κ ν
  /-- There is none if the set did nothing. -/
  reply : Option (Answer κ Unit)
  map : Cache κ ν
  set : Cache κ Unit

namespace Cache

variable {κ ν : Type} [BEq κ]

/-- The set `d` has the keys of the map `c`, in the same places, and answers all queries alike. -/
structure Mirrors (c : Cache κ ν) (d : Cache κ Unit) : Prop where
  keys : ∃ ks, c.keys = .ok ks ∧ d.toList = .ok (ks.map (⟨·, ()⟩))
  ask : ∀ q, ∃ answer, c.ask q = .ok answer ∧ d.ask q = .ok answer.bare
  lengths : d.chains.lengths d.nodes = c.chains.lengths c.nodes

/-- Whether there is a key that is to be ensured and it is present. -/
def hasEnsured (d : Cache κ Unit) (op : Op κ ν) : Except Fault Bool :=
  match op.ensured? with
  | some k => d.contains k
  | none => pure false

/-- A set follows an operation on a map. -/
def mirror (d : Cache κ Unit) (op : Op κ ν) :
    Except Fault (Option (Answer κ Unit) × Cache κ Unit) := do
  match op.bare? (← d.hasEnsured op) with
  | some op' => .map some id <$> d.perform op'
  | none => pure (none, d)

/-- The moments of a run of a map with a set beside it. -/
def beside [Inhabited ν] (c : Cache κ ν) (d : Cache κ Unit) :
    List (Op κ ν) → Except Fault (List (Moment κ ν))
  | [] => pure []
  | op :: ops => do
    let (answer, c) ← c.perform op
    let (reply, d) ← d.mirror op
    let rest ← c.beside d ops
    pure (⟨op, answer, reply, c, d⟩ :: rest)

theorem mirror_congr {d : Cache κ Unit} {op op' : Op κ ν} (h : op.SameKeys op') :
    d.mirror op = d.mirror op' := by
  rw [mirror, mirror, hasEnsured, hasEnsured, h.ensured?]
  simp only [h.bare?]

/-- The same set follows maps that differ in values alone. -/
theorem sets_eq_of_sameKeys [Inhabited ν] {c c' : Cache κ ν} {d : Cache κ Unit}
    {ops ops' : List (Op κ ν)} {moments moments' : List (Moment κ ν)}
    (h : List.Forall₂ Op.SameKeys ops ops')
    (hrun : c.beside d ops = .ok moments) (hrun' : c'.beside d ops' = .ok moments') :
    moments.map Moment.set = moments'.map Moment.set := by
  induction h generalizing c c' d moments moments' with
  | nil =>
    cases hrun
    cases hrun'
    rfl
  | cons hop _ ih =>
    obtain ⟨⟨answer, c₁⟩, -, hrun⟩ := Fault.exists_of_bind hrun
    obtain ⟨⟨answer', c₁'⟩, -, hrun'⟩ := Fault.exists_of_bind hrun'
    obtain ⟨⟨reply, d₁⟩, hd, hrun⟩ := Fault.exists_of_bind hrun
    obtain ⟨⟨reply', d₁'⟩, hd', hrun'⟩ := Fault.exists_of_bind hrun'
    obtain ⟨rest, hrest, hlast⟩ := Fault.exists_of_bind hrun
    obtain ⟨rest', hrest', hlast'⟩ := Fault.exists_of_bind hrun'
    rw [← mirror_congr hop, hd] at hd'
    cases hd'
    cases hlast
    cases hlast'
    rw [List.map_cons, List.map_cons, ih hrest hrest']

variable [EquivBEq κ] {c : Cache κ ν} {d : Cache κ Unit} {s : Shelf κ ν} {t : Shelf κ Unit}

namespace Shows

theorem mirrors (sh : c.Shows s) (sh' : d.Shows s.bare) : c.Mirrors d where
  keys := by
    refine ⟨s.entries.map Entry.key, ?_, ?_⟩
    · rw [Cache.keys, sh.toList_eq]
      rfl
    · rw [sh'.toList_eq, Shelf.entries_bare, List.map_map]
      rfl
  ask q := ⟨s.ask q, sh.ask_eq q, by rw [sh'.ask_eq, Shelf.ask_bare]⟩
  lengths := by
    rw [sh.lengths_eq, sh'.lengths_eq]
    congr 2
    exact funext s.chainLength_bare

theorem hasEnsured_eq (sh : d.Shows t) (op : Op κ ν) :
    d.hasEnsured op = .ok (op.ensured?.any fun k => (t.find? k).isSome) := by
  rw [hasEnsured]
  cases op.ensured? with
  | none => rfl
  | some k => exact sh.contains_eq k

theorem follows_mirror (sh : d.Shows t) (op : Op κ ν) : Follows (d.mirror op) (t.mirror op) := by
  rw [mirror, sh.hasEnsured_eq, Fault.ok_bind, Shelf.mirror]
  cases op.bare? _ with
  | none => exact sh.follows_pure _
  | some op' => exact (sh.follows_perform op').map some

variable [Inhabited ν]

/-- **A run.** The set stays in step with the map. -/
theorem exists_beside (sh : c.Shows s) (sh' : d.Shows s.bare) (ops : List (Op κ ν)) :
    ∃ moments, c.beside d ops = .ok moments ∧ moments.map Moment.op = ops ∧
      ∀ m ∈ moments, m.op.Accords m.answer m.reply ∧ m.map.Mirrors m.set := by
  induction ops generalizing c d s with
  | nil => exact ⟨[], rfl, rfl, List.forall_mem_nil _⟩
  | cons op ops ih =>
    obtain ⟨c₁, hc₁, sh₁⟩ := sh.follows_perform op
    obtain ⟨d₁, hd₁, sh₁'⟩ := sh'.follows_mirror op
    obtain ⟨haccords, hbare⟩ := s.perform_bare op
    rw [hbare] at sh₁'
    obtain ⟨rest, hrest, hops, hall⟩ := ih sh₁ sh₁'
    refine ⟨⟨op, _, _, c₁, d₁⟩ :: rest, ?_, ?_,
      List.forall_mem_cons.2 ⟨⟨haccords, sh₁.mirrors sh₁'⟩, hall⟩⟩
    · simp only [beside, hc₁, hd₁, hrest, Fault.ok_bind, Fault.pure_eq]
    · rw [List.map_cons, hops]

end Shows

variable [Inhabited ν]

/-- **A map is a set of its keys.** Whatever a new map is asked to do, a new set of the same kind
that follows it answers accordingly, and mirrors it after every operation. Whatever the values are,
the set becomes the same. -/
theorem beside_build {hash : κ → UInt64} (ha : Agrees hash) (capacity chainCount : Nat)
    (limit : Option Nat) (policy : Policy) (clock : HandClock) (ops : List (Op κ ν)) :
    ∃ moments, (build capacity chainCount limit policy hash clock).beside
        (build capacity chainCount limit policy hash clock) ops = .ok moments ∧
      moments.map Moment.op = ops ∧
      (∀ m ∈ moments, m.op.Accords m.answer m.reply ∧ m.map.Mirrors m.set) ∧
      ∀ ops', List.Forall₂ Op.SameKeys ops ops' → ∃ moments',
        (build capacity chainCount limit policy hash clock).beside
          (build capacity chainCount limit policy hash clock) ops' = .ok moments' ∧
        moments.map Moment.set = moments'.map Moment.set := by
  have sh := shows_build (ν := ν) ha capacity chainCount limit policy clock
  have sh' := shows_build (ν := Unit) ha capacity chainCount limit policy clock
  obtain ⟨moments, hrun, hops, hall⟩ := sh.exists_beside sh' ops
  refine ⟨moments, hrun, hops, hall, fun ops' hsame => ?_⟩
  obtain ⟨moments', hrun', -⟩ := sh.exists_beside sh' ops'
  exact ⟨moments', hrun', sets_eq_of_sameKeys hsame hrun hrun'⟩

/-- Keys that are spelled in two ways, for a capacity of two: a key is pushed again under another
spelling, values are written, one key is ensured while it is present and one while it is absent,
which displaces an entry, and a value is taken. -/
theorem beside_build_of_caseless :
    let ops : List (Op Caseless Int64) :=
      [.command (.push none ⟨⟨"a"⟩, 0⟩), .command (.push none ⟨⟨"b"⟩, 1⟩),
        .command (.push none ⟨⟨"A"⟩, 2⟩), .command (.write ⟨"b"⟩ 3), .command (.ensure ⟨"B"⟩),
        .command (.ensureWrite ⟨"c"⟩ 4), .command (.takeValue ⟨"a"⟩), .query (.position ⟨"c"⟩)]
    ∃ moments, (build 2 3 none .bySize HashScheme.byteSum.hash .initial).beside
        (build 2 3 none .bySize HashScheme.byteSum.hash .initial) ops = .ok moments ∧
      moments.map Moment.op = ops ∧
      (∀ m ∈ moments, m.op.Accords m.answer m.reply ∧ m.map.Mirrors m.set) ∧
      ∀ ops', List.Forall₂ Op.SameKeys ops ops' → ∃ moments',
        (build 2 3 none .bySize HashScheme.byteSum.hash .initial).beside
          (build 2 3 none .bySize HashScheme.byteSum.hash .initial) ops' = .ok moments' ∧
        moments.map Moment.set = moments'.map Moment.set :=
  beside_build (agrees_caseless .byteSum) 2 3 none .bySize .initial _

end Cache
end RecencyCache
