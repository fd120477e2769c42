import RecencyCache.Proofs.Roster.Aging
import RecencyCache.Proofs.Roster.Chronicle
import RecencyCache.Proofs.Shelf.Recast

/-!
# A shelf without time

`Shelf.timeless` forgets when the records were pushed, evicts by size alone, and has a clock that
does not go. An operation that is about time, other than a new window, is not seen there at all
(`timeless_perform`). Every other one is the same operation with the same answer if it lets no
record leave, or if all records may leave, so that it does not matter how old they are
(`perform_timeless`). A policy with a window and one without differ on an empty shelf, but no record
leaves one.
-/
namespace RecencyCache

section Parts

variable {κ ν : Type}

/-- Whether an operation is about the time or the window. -/
def Op.isTimed : Op κ ν → Bool
  | .query (.deadline _) | .query (.isExpired _) | .query .window | .query .elapsed
  | .command (.setWindow _) | .command (.advance _) => true
  | _ => false

/-- Forgetting the time. -/
def Recast.timeless : Recast κ ν ν where
  entry := id
  stamp _ := HandClock.initial.now
  policy _ := .bySize
  clock _ := .initial
  key_entry _ := rfl
  now_clock _ := rfl

end Parts

namespace Shelf

variable {κ ν : Type}

/-- The shelf without time. -/
def timeless (s : Shelf κ ν) : Shelf κ ν := s.recast .timeless

/-- All records may leave if there are too many. -/
def Ripe (s : Shelf κ ν) : Prop :=
  ∀ h ∈ s.held, s.policy.mayLeave s.clock.now h.record = true

variable {s : Shelf κ ν} {h : Held κ ν} {k : κ}

/-! ## Reading -/

section Reading

variable (s)

theorem size_timeless : s.timeless.size = s.size := size_recast s .timeless

theorem entries_timeless : s.timeless.entries = s.entries :=
  (entries_recast s .timeless).trans (List.map_id _)

theorem head?_timeless : s.timeless.held.head? = s.held.head?.map Recast.timeless.held :=
  List.head?_map

theorem oldest?_timeless : s.timeless.oldest? = s.oldest?.map Recast.timeless.held :=
  oldest?_recast s .timeless

theorem at?_timeless (pos : Position) :
    s.timeless.at? pos = (s.at? pos).map Recast.timeless.held := at?_recast s .timeless pos

theorem find?_timeless [BEq κ] (k : κ) :
    s.timeless.find? k = (s.find? k).map Recast.timeless.held := find?_recast s .timeless k

end Reading

/-! ## What has to leave -/

theorem ripe_of_bySize (hp : s.policy = .bySize) : s.Ripe := by
  intro h _
  rw [hp]
  rfl

theorem ripe_pop (hr : s.Ripe) : s.pop.2.Ripe := by
  unfold pop
  split
  · exact hr
  · exact fun x hx => hr x (List.mem_of_mem_eraseP hx)

theorem overfull_timeless (hr : s.Ripe) (ho : s.oldest? = some h) (n : Nat) :
    s.timeless.overfull n = s.overfull n := by
  rw [overfull, overfull, ho, Option.map_some, Policy.evicts_some, hr h (mem_of_oldest? ho),
    Bool.and_true]
  rfl

theorem victim?_timeless (hr : s.Ripe) :
    s.timeless.victim? = s.victim?.map Recast.timeless.held := by
  rw [victim?, victim?, size_timeless, oldest?_timeless]
  cases ho : s.oldest? with
  | none =>
    -- here the policies may differ, but there is no record to give up
    simp
  | some h =>
    rw [overfull_timeless hr ho]
    split <;> rfl

theorem evictExcess_timeless (hr : s.Ripe) :
    s.timeless.evictExcess = s.evictExcess.map id timeless := by
  have hover : ∀ s : Shelf κ ν, s.Ripe → s.timeless.overfull s.size = s.overfull s.size := by
    intro s hr
    cases ho : s.oldest? with
    | none => rw [oldest?_eq_none_iff.1 ho, not_overfull_zero, not_overfull_zero]
    | some h => exact overfull_timeless hr ho s.size
  rw [evictExcess, size_timeless]
  exact evictWithin_recast s .timeless hover (fun _ => ripe_pop) hr s.size

/-! ## By key -/

theorem overwrite_timeless (v : ν) :
    s.timeless.overwrite (Recast.timeless.held h) v = (s.overwrite h v).timeless := by
  have hheld : ∀ x : Held κ ν,
      (if (Recast.timeless.held x).slot = (Recast.timeless.held h).slot then
        { Recast.timeless.held x with record.entry.value := v } else Recast.timeless.held x) =
      Recast.timeless.held (if x.slot = h.slot then { x with record.entry.value := v } else x) := by
    intro x
    rw [Recast.slot_held, Recast.slot_held]
    split <;> rfl
  simp only [overwrite, timeless, recast, List.map_map, Function.comp_def, hheld]

variable [BEq κ]

theorem write?_timeless (v : ν) : s.timeless.write? k v = (s.write? k v).map id timeless := by
  rw [write?, write?, find?_timeless]
  cases s.find? k with
  | none => rfl
  | some h =>
    simp only [Option.map_some, overwrite_timeless]
    rfl

theorem push_timeless (hr : s.Ripe) (e : Entry κ ν) :
    s.timeless.push e = (s.push e).map id timeless :=
  push_recast (f := .timeless) (victim?_timeless hr)

variable [Inhabited ν]

theorem ensure_timeless (hr : s.Ripe) :
    s.timeless.ensure k = (s.ensure k).map (Except.map Recast.timeless.held) timeless := by
  rw [ensure, ensure, find?_timeless, push_timeless hr]
  cases s.find? k with
  | some h => rfl
  | none =>
    obtain ⟨r, s'⟩ := s.push ⟨k, default⟩
    cases r with
    | error r => rfl
    | ok b =>
      simp only [Option.map_none, Prod.map, id, head?_timeless]
      cases s'.held.head? <;> rfl

/-! ## One operation -/

omit [Inhabited ν] in
theorem ask_timeless (s : Shelf κ ν) {q : Query κ} (hq : Op.isTimed (.query q : Op κ ν) = false) :
    s.timeless.ask q = s.ask q := by
  cases q with
  | deadline k | isExpired k | window | elapsed => cases hq
  | find k | contains k | lookup k | get k | position k =>
    rw [ask, ask, find?_timeless]
    cases s.find? k <;> rfl
  | newest | newestPosition =>
    rw [ask, ask, head?_timeless]
    cases s.held.head? <;> rfl
  | oldest | oldestPosition =>
    rw [ask, ask, oldest?_timeless]
    cases s.oldest? <;> rfl
  | positionAfter pos =>
    rw [ask, ask, at?_timeless]
    cases s.at? pos with
    | none => rfl
    | some h =>
      have hafter : s.timeless.after? (Recast.timeless.held h) =
          (s.after? h).map Recast.timeless.held := after?_recast s .timeless h
      simp only [Option.map_some, Option.bind_some, hafter, Option.map_map]
      rfl
  | entryAt pos =>
    rw [ask, ask, at?_timeless]
    cases s.at? pos <;> rfl
  | entries | entriesRev | keys | values => rw [ask, ask, entries_timeless]
  | size | isEmpty => rw [ask, ask, size_timeless]
  | longestChain => exact congrArg Answer.count (longestChain_recast s .timeless)
  | summary => exact congrArg Answer.tally (summary_recast s .timeless)
  | hash k | capacity | chainCount | nodeLimit | audit => rfl

theorem apply_timeless {m : Command κ ν} (hm : Op.isTimed (.command m) = false)
    (hr : Op.inserts (.command m) = true ∨ Op.tightens (.command m) = true → s.Ripe) :
    s.timeless.apply m = (s.apply m).map id timeless := by
  cases m with
  | setWindow d | advance d => cases hm
  | push hint e =>
    rw [apply, push_timeless (hr (.inl rfl))]
    rfl
  | pop =>
    have hpop : s.timeless.pop = s.pop.map (Except.map id) timeless := pop_recast s .timeless
    rw [apply, hpop, apply]
    obtain ⟨r, s'⟩ := s.pop
    cases r <;> rfl
  | take k | takeValue k =>
    have htake : s.timeless.take k = (s.take k).map (Option.map id) timeless :=
      take_recast s .timeless k
    rw [apply, htake, Option.map_id]
    rfl
  | erase k =>
    have herase : s.timeless.erase k = (s.erase k).map id timeless := erase_recast s .timeless k
    rw [apply, herase]
    rfl
  | eraseAt pos =>
    have herase : s.timeless.eraseAt pos = (s.eraseAt pos).map id timeless :=
      eraseAt_recast s .timeless pos
    rw [apply, herase]
    rfl
  | clear =>
    have hclear : s.timeless.clear = s.clear.timeless := clear_recast s .timeless
    rw [apply, hclear]
    rfl
  | setCapacity n =>
    have hset : s.timeless.setCapacity n = (s.setCapacity n).map id timeless :=
      evictExcess_timeless (s := { s with capacity := n }) (hr (.inr rfl))
    rw [apply, hset]
    rfl
  | limitNodes n => rfl
  | writeIfPresent k v | write k v =>
    rw [apply, write?_timeless]
    rfl
  | ensure k =>
    rw [apply, ensure_timeless (hr (.inl rfl)), apply]
    obtain ⟨r, s'⟩ := s.ensure k
    cases r <;> rfl
  | ensureWrite k v =>
    rw [apply, ensure_timeless (hr (.inl rfl)), apply]
    obtain ⟨r, s'⟩ := s.ensure k
    cases r with
    | error r => rfl
    | ok h =>
      simp only [Prod.map, id, Except.map, overwrite_timeless]
      rfl

/-- **One operation.** Without time it is the same one, if no record is too young to leave where one
may have to. -/
theorem perform_timeless {op : Op κ ν} (hop : op.isTimed = false)
    (hr : op.inserts = true ∨ op.tightens = true → s.Ripe) :
    s.timeless.perform op = (s.perform op).map id timeless := by
  cases op with
  | query q => rw [perform, ask_timeless s hop, perform, Prod.map, id]
  | command m => exact apply_timeless hop hr

/-- **An operation about time.** Without time it is none, unless it sets a window. -/
theorem timeless_perform (s : Shelf κ ν) {op : Op κ ν} (hop : op.isTimed = true)
    (hset : ∀ d, op ≠ .command (.setWindow d)) : (s.perform op).2.timeless = s.timeless := by
  cases op with
  | query q => rfl
  | command m =>
    cases m with
    | setWindow d => exact absurd rfl (hset d)
    | advance d =>
      have hclock : ∀ t : HandClock, { s with clock := t }.timeless = s.timeless := fun _ => rfl
      exact hclock (s.clock.advance d)
    | _ => cases hop

end Shelf
end RecencyCache
