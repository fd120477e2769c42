import RecencyCache.Proofs.Shelf.Invariant
import RecencyCache.Proofs.Shelf.Recast

/-!
# A shelf without its values

`Shelf.bare` leaves out the values and keeps keys, times, slots and all the rest, which makes it a
recast of the shelf. Every operation on a shelf is then an operation on the bare shelf
(`perform_bare`): the same one without its value, a push where an absent key is ensured, and none at
all where only a value is written (`Op.bare?`). The answers tell the same (`Op.Accords`).
-/
namespace RecencyCache

section Parts

variable {κ ν : Type}

def Entry.bare (e : Entry κ ν) : Entry κ Unit := ⟨e.key, ()⟩

def Record.bare (x : Record κ ν) : Record κ Unit := ⟨x.entry.bare, x.stamp⟩

def Held.bare (h : Held κ ν) : Held κ Unit := ⟨h.record.bare, h.slot⟩

/-- An answer without the values in it. -/
def Answer.bare : Answer κ ν → Answer κ Unit
  | .done => .done
  | .flag b => .flag b
  | .count n => .count n
  | .limit n => .limit n
  | .word w => .word w
  | .entry e => .entry e.bare
  | .found e => .found (e.map Entry.bare)
  | .value _ => .value ()
  | .foundValue v => .foundValue (v.map fun _ => ())
  | .position pos => .position pos
  | .entries es => .entries (es.map Entry.bare)
  | .keys ks => .keys ks
  | .values vs => .values (vs.map fun _ => ())
  | .instant t => .instant t
  | .duration d => .duration d
  | .tally t => .tally t
  | .refused r => .refused r

/-- The key that is pushed with a default value if it is absent. -/
def Op.ensured? : Op κ ν → Option κ
  | .command (.ensure k) | .command (.ensureWrite k _) => some k
  | _ => none

/-- The operation on bare entries that stands for a command, where `present` tells whether the
ensured key is there. -/
def Command.bare? (present : Bool) : Command κ ν → Option (Command κ Unit)
  | .push hint e => some (.push hint e.bare)
  | .pop => some .pop
  | .take k | .takeValue k => some (.take k)
  | .erase k => some (.erase k)
  | .eraseAt pos => some (.eraseAt pos)
  | .clear => some .clear
  | .setCapacity n => some (.setCapacity n)
  | .limitNodes n => some (.limitNodes n)
  | .setWindow d => some (.setWindow d)
  | .writeIfPresent .. | .write .. => none
  | .ensure k | .ensureWrite k _ => if present then none else some (.push none ⟨k, ()⟩)
  | .advance d => some (.advance d)

def Op.bare? (present : Bool) : Op κ ν → Option (Op κ Unit)
  | .query q => some (.query q)
  | .command m => (m.bare? present).map .command

/-- Two operations on maps differ in nothing but the values that they give. -/
structure Op.SameKeys (op op' : Op κ ν) : Prop where
  ensured? : op.ensured? = op'.ensured?
  bare? : ∀ present, op.bare? present = op'.bare? present

/-- The answer of an operation tells the same as the reply of the bare operation, if there is
one. -/
def Op.Accords : Op κ ν → Answer κ ν → Option (Answer κ Unit) → Prop
  | .command (.writeIfPresent ..), _, reply | .command (.write ..), _, reply => reply = none
  | .command (.ensure _), answer, none | .command (.ensureWrite ..), answer, none =>
    ∃ v, answer = .value v
  | .command (.ensure _), answer, some reply | .command (.ensureWrite ..), answer, some reply =>
    (∃ v, answer = .value v ∧ reply = .flag true) ∨ ∃ r, answer = .refused r ∧ reply = .refused r
  | .command (.takeValue _), answer, reply =>
    ∃ v e, answer = .foundValue v ∧ reply = some (.found e) ∧ v.isSome = e.isSome
  | _, answer, reply => reply = some answer.bare

/-- Leaving out the values. -/
def Recast.bare : Recast κ ν Unit where
  entry := Entry.bare
  stamp := id
  policy := id
  clock := id
  key_entry _ := rfl
  now_clock _ := rfl

end Parts

namespace Shelf

variable {κ ν : Type}

/-- The shelf without its values. -/
def bare (s : Shelf κ ν) : Shelf κ Unit := { s with held := s.held.map Held.bare }

variable (s : Shelf κ ν) (h : Held κ ν) (e : Entry κ ν)

/-! ## Reading -/

@[simp] theorem size_bare : s.bare.size = s.size := size_recast s .bare

theorem entries_bare : s.bare.entries = s.entries.map Entry.bare := entries_recast s .bare

@[simp] theorem oldest?_bare : s.bare.oldest? = s.oldest?.map Held.bare := oldest?_recast s .bare

@[simp] theorem at?_bare (pos : Position) : s.bare.at? pos = (s.at? pos).map Held.bare :=
  at?_recast s .bare pos

@[simp] theorem after?_bare : s.bare.after? h.bare = (s.after? h).map Held.bare :=
  after?_recast s .bare h

@[simp] theorem overfull_bare (n : Nat) : s.bare.overfull n = s.overfull n := by
  rw [overfull, overfull, oldest?_bare, Option.map_map]
  rfl

@[simp] theorem victim?_bare : s.bare.victim? = s.victim?.map Held.bare := by
  rw [victim?, victim?, overfull_bare, size_bare, oldest?_bare]
  split <;> rfl

@[simp] theorem summary_bare : s.bare.summary = s.summary := summary_recast s .bare

@[simp] theorem chainLength_bare (i : Nat) : s.bare.chainLength i = s.chainLength i :=
  chainLength_recast s .bare i

theorem longestChain_bare : s.bare.longestChain = s.longestChain := longestChain_recast s .bare

/-! ## Changing -/

@[simp] theorem clock_bare : s.bare.clock = s.clock := rfl

theorem advance_bare (d : Duration) : s.bare.advance d = (s.advance d).bare := by
  rw [advance, advance, clock_bare]
  rfl

theorem evictExcess_bare : s.bare.evictExcess = s.evictExcess.map id bare := by
  rw [evictExcess, size_bare]
  exact evictWithin_recast (P := fun _ => True) s .bare (fun s _ => s.overfull_bare s.size)
    (fun _ _ => trivial) trivial s.size

theorem setCapacity_bare (n : Nat) : s.bare.setCapacity n = (s.setCapacity n).map id bare :=
  evictExcess_bare { s with capacity := n }

theorem setWindow_bare (d : Duration) : s.bare.setWindow d = (s.setWindow d).map id bare :=
  evictExcess_bare { s with policy := s.policy.withWindow d }

/-- A bare shelf cannot tell that a value was overwritten. -/
theorem bare_overwrite (v : ν) : (s.overwrite h v).bare = s.bare := by
  rw [overwrite, bare, bare, List.map_map]
  congr 1
  refine List.map_congr_left fun x _ => ?_
  simp only [Function.comp_apply]
  split <;> rfl

/-! ## By key -/

variable [BEq κ] (k : κ)

@[simp] theorem find?_bare : s.bare.find? k = (s.find? k).map Held.bare := find?_recast s .bare k

theorem push_bare : s.bare.push e.bare = (s.push e).map id bare :=
  push_recast (f := .bare) s.victim?_bare

theorem take_bare : s.bare.take k = (s.take k).map (Option.map Entry.bare) bare :=
  take_recast s .bare k

theorem bare_write? (v : ν) : (s.write? k v).2.bare = s.bare := by
  unfold write?
  split
  · exact bare_overwrite s _ v
  · rfl

/-- A query on a bare shelf is answered without values. -/
theorem ask_bare (q : Query κ) : s.bare.ask q = (s.ask q).bare := by
  cases q with
  | find k | contains k | lookup k | position k | deadline k | isExpired k =>
    rw [ask, find?_bare, ask]
    cases s.find? k <;> rfl
  | get k =>
    rw [ask, find?_bare, ask]
    cases s.find? k <;> rfl
  | newest | newestPosition =>
    rw [ask, ask, bare, List.head?_map]
    cases s.held.head? <;> rfl
  | oldest | oldestPosition =>
    rw [ask, ask, oldest?_bare]
    cases s.oldest? <;> rfl
  | positionAfter pos =>
    rw [ask, ask, at?_bare]
    cases s.at? pos with
    | none => rfl
    | some h =>
      simp only [Option.map_some, Option.bind_some, after?_bare, Option.map_map]
      rfl
  | entryAt pos =>
    rw [ask, ask, at?_bare]
    cases s.at? pos <;> rfl
  | entries | entriesRev | keys | values =>
    rw [ask, ask, entries_bare]
    simp [Answer.bare, Entry.bare]
  | size | isEmpty =>
    rw [ask, ask, size_bare]
    rfl
  | longestChain =>
    rw [ask, ask, longestChain_bare]
    rfl
  | summary =>
    rw [ask, ask, summary_bare]
    rfl
  | hash k | capacity | chainCount | nodeLimit | window | elapsed | audit => rfl

/-! ## One operation -/

variable {s k}

theorem push_of_absent {e : Entry κ ν} (hk : s.find? e.key = none) :
    (∃ r, s.push e = (.error r, s)) ∨ (s.push e).1 = .ok true := by
  rw [push, hk]
  cases s.victim? with
  | some h => exact .inr rfl
  | none =>
    simp only [insertNew]
    cases s.reachedLimit? with
    | some n => exact .inl ⟨_, rfl⟩
    | none => exact .inr rfl

/-- To ensure an absent key is to push it. -/
theorem ensure_of_absent [Inhabited ν] (hk : s.find? k = none) :
    (∃ r, s.push ⟨k, default⟩ = (.error r, s) ∧ s.ensure k = (.error r, s)) ∨
      ∃ h, (s.push ⟨k, default⟩).1 = .ok true ∧ s.ensure k = (.ok h, (s.push ⟨k, default⟩).2) := by
  rw [ensure, hk]
  rcases push_of_absent (e := ⟨k, default⟩) hk with ⟨r, hr⟩ | hr
  · exact .inl ⟨r, hr, by rw [hr]⟩
  · obtain ⟨h, hh, -⟩ := head?_push hk hr
    have hpush : s.push ⟨k, default⟩ = (.ok true, (s.push ⟨k, default⟩).2) := Prod.ext hr rfl
    refine .inr ⟨h, hr, ?_⟩
    rw [hpush]
    simp [hh]

/-- A set follows an operation on a map: it pushes a key that is to be ensured if it does not have
it, and does nothing where a value is written. -/
def mirror (s : Shelf κ Unit) (op : Op κ ν) : Option (Answer κ Unit) × Shelf κ Unit :=
  match op.bare? (op.ensured?.any fun k => (s.find? k).isSome) with
  | some op' => (s.perform op').map some id
  | none => (none, s)

variable (s) [Inhabited ν]

/-- What follows an operation that ensures key `k`. -/
theorem mirror_of_ensured {op : Op κ ν} (hop : op.ensured? = some k) : s.bare.mirror op =
    if (s.find? k).isSome then (none, s.bare)
    else (s.push ⟨k, default⟩).map (fun r => some (.ofExcept .flag r)) bare := by
  have hpush : s.bare.push ⟨k, ()⟩ = (s.push ⟨k, default⟩).map id bare := push_bare s ⟨k, default⟩
  rw [mirror, hop, Option.any_some, find?_bare, Option.isSome_map]
  cases op with
  | query q => cases hop
  | command m =>
    cases m with
    | ensure k' | ensureWrite k' v =>
      cases hop
      by_cases hk : (s.find? k).isSome
      · rw [if_pos hk, hk]
        rfl
      · rw [if_neg hk, eq_false_of_ne_true hk]
        show ((s.bare.push ⟨k, ()⟩).map _ id).map some id = _
        rw [hpush]
        rfl
    | _ => cases hop

/-- **One operation.** Followed by a set, it leads to the bare shelf, and its answer tells the same
as the set's. -/
theorem perform_bare (op : Op κ ν) : op.Accords (s.perform op).1 (s.bare.mirror op).1 ∧
    (s.bare.mirror op).2 = (s.perform op).2.bare := by
  cases op with
  | query q => exact ⟨congrArg some (s.ask_bare q), rfl⟩
  | command m =>
    have hkept : ∀ m' : Command κ Unit, s.bare.apply m' = (s.apply m).map Answer.bare bare →
        (some (s.bare.apply m').1 = some (s.apply m).1.bare) ∧
          (s.bare.apply m').2 = (s.apply m).2.bare := by
      intro m' h
      rw [h]
      exact ⟨rfl, rfl⟩
    cases m with
    | push hint e =>
      refine hkept (.push hint e.bare) ?_
      rw [apply, apply, push_bare]
      obtain ⟨r, s'⟩ := s.push e
      cases r <;> rfl
    | pop =>
      refine hkept .pop ?_
      have hpop : s.bare.pop = s.pop.map (Except.map Entry.bare) bare := pop_recast s .bare
      rw [apply, apply, hpop]
      obtain ⟨r, s'⟩ := s.pop
      cases r <;> rfl
    | take k =>
      refine hkept (.take k) ?_
      rw [apply, apply, take_bare]
      rfl
    | erase k =>
      refine hkept (.erase k) ?_
      have herase : s.bare.erase k = (s.erase k).map id bare := erase_recast s .bare k
      rw [apply, apply, herase]
      rfl
    | eraseAt pos =>
      refine hkept (.eraseAt pos) ?_
      have herase : s.bare.eraseAt pos = (s.eraseAt pos).map id bare := eraseAt_recast s .bare pos
      rw [apply, apply, herase]
      rfl
    | clear =>
      refine hkept .clear ?_
      have hclear : s.bare.clear = s.clear.bare := clear_recast s .bare
      rw [apply, apply, hclear]
      rfl
    | setCapacity n =>
      refine hkept (.setCapacity n) ?_
      rw [apply, apply, setCapacity_bare]
      rfl
    | setWindow d =>
      refine hkept (.setWindow d) ?_
      rw [apply, apply, setWindow_bare]
      rfl
    | limitNodes n => exact hkept (.limitNodes n) rfl
    | advance d =>
      refine hkept (.advance d) ?_
      rw [apply, apply, advance_bare, clock_bare]
      rfl
    | takeValue k =>
      have htake := s.take_bare k
      refine ⟨⟨(s.take k).1.map Entry.value, (s.bare.take k).1, rfl, rfl, ?_⟩,
        congrArg Prod.snd htake⟩
      rw [htake, Prod.map_fst, Option.isSome_map, Option.isSome_map]
    | writeIfPresent k v | write k v => exact ⟨rfl, (bare_write? s k v).symm⟩
    | ensure k =>
      rw [mirror_of_ensured s rfl, perform, apply]
      cases hk : s.find? k with
      | some h =>
        simp only [ensure, hk]
        exact ⟨⟨_, rfl⟩, rfl⟩
      | none =>
        rcases ensure_of_absent hk with ⟨r, hp, he⟩ | ⟨h, hp, he⟩
        · rw [he, hp]
          exact ⟨.inr ⟨r, rfl, rfl⟩, rfl⟩
        · simp only [he, Prod.map, hp]
          exact ⟨.inl ⟨_, rfl, rfl⟩, rfl⟩
    | ensureWrite k v =>
      rw [mirror_of_ensured s rfl, perform, apply]
      cases hk : s.find? k with
      | some h =>
        simp only [ensure, hk]
        exact ⟨⟨_, rfl⟩, (bare_overwrite s h v).symm⟩
      | none =>
        rcases ensure_of_absent hk with ⟨r, hp, he⟩ | ⟨h, hp, he⟩
        · rw [he, hp]
          exact ⟨.inr ⟨r, rfl, rfl⟩, rfl⟩
        · simp only [he, Prod.map, hp, bare_overwrite]
          exact ⟨.inl ⟨_, rfl, rfl⟩, rfl⟩

end Shelf
end RecencyCache
