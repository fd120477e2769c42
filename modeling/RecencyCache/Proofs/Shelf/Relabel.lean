import Mathlib.Logic.Function.Basic
import RecencyCache.Proofs.Roster
import RecencyCache.Proofs.Shelf.Bare

/-!
# Shelves with other slot numbers

A `Relabel` gives every slot another number, adds a constant to its generation, and adds constants
to the event counts. Two shelves are `Twins` if one of them is the other one relabelled, the slots
that are not in use yet included, in the order in which they will be. Every operation but one, given
the relabelled position, has the relabelled answer and leads to twins again: `Twins.perform`.

The exception is a clearing, for afterwards the slots are used in another order. But shelves that
have just been cleared, or are new, are twins under some relabelling if their settings are the same:
`exists_twins_of_blank`.
-/
namespace RecencyCache

/-- The counts of both, and the number of entries of the first. -/
def Tally.plus (t u : Tally) : Tally where
  insertions := t.insertions + u.insertions
  refreshes := t.refreshes + u.refreshes
  evictions := t.evictions + u.evictions
  removals := t.removals + u.removals
  entries := t.entries

/-- The same counts, at a time when there are `n` entries. -/
def Tally.among (t : Tally) (n : Nat) : Tally := { t with entries := n }

theorem Tally.among_count (t : Tally) (e : Event) (n : Nat) :
    (t.count e).among n = (t.among n).count e := by
  cases e <;> rfl

theorem Tally.plus_count (t u : Tally) (e : Event) : (t.count e).plus u = (t.plus u).count e := by
  cases e <;> simp [plus, count, Nat.add_right_comm]

/-- Other numbers for slots, with constants for their generations and for the event counts. -/
structure Relabel where
  slot : SlotId → SlotId
  slot_inj : Function.Injective slot
  shift : SlotId → UInt32
  counted : Tally

namespace Relabel

variable {κ ν : Type} (m : Relabel)

def position (pos : Position) : Position := ⟨m.slot pos.slot, pos.generation + m.shift pos.slot⟩

def held (h : Held κ ν) : Held κ ν := ⟨h.record, m.slot h.slot⟩

def answer : Answer κ ν → Answer κ ν
  | .position pos => .position (pos.map m.position)
  | .tally t => .tally (t.plus m.counted)
  | a => a

def query : Query κ → Query κ
  | .positionAfter pos => .positionAfter (m.position pos)
  | .entryAt pos => .entryAt (m.position pos)
  | q => q

def command : Command κ ν → Command κ ν
  | .eraseAt pos => .eraseAt (m.position pos)
  | c => c

def op : Op κ ν → Op κ ν
  | .query q => .query (m.query q)
  | .command c => .command (m.command c)

theorem position_inj {p q : Position} : m.position p = m.position q ↔ p = q := by
  constructor
  · intro h
    obtain ⟨hslot, hgen⟩ := Position.mk.inj h
    have hslot := m.slot_inj hslot
    rw [hslot, UInt32.add_left_inj] at hgen
    cases p
    cases q
    exact congr (congrArg _ hslot) hgen
  · exact congrArg m.position

theorem slot_beq (i j : SlotId) : (m.slot i == m.slot j) = (i == j) := by
  rw [Bool.eq_iff_iff, beq_iff_eq, beq_iff_eq, m.slot_inj.eq_iff]

theorem slot_held_inj {x y : Held κ ν} : (m.held x).slot = (m.held y).slot ↔ x.slot = y.slot :=
  m.slot_inj.eq_iff

/-- An operation that is given no position stays as it is. -/
theorem op_of_position?_eq_none {x : Op κ ν} (h : x.position? = none) : m.op x = x := by
  cases x with
  | query q => cases q <;> first | rfl | cases h
  | command c => cases c <;> first | rfl | cases h

end Relabel

namespace Shelf

variable {κ ν : Type}

/-! ## Slots to come -/

/-- The slot of the new record after `k` others, if none leaves. -/
def upcoming (s : Shelf κ ν) (k : Nat) : SlotId :=
  s.free.getD k (s.slotCount + (k - s.free.length))

theorem upcoming_drop_succ (s : Shelf κ ν) (h : Held κ ν) (k : Nat) :
    (s.drop h).upcoming (k + 1) = s.upcoming k := by
  simp [upcoming, drop]

theorem exists_store (s : Shelf κ ν) (e : Entry κ ν) : ∃ free slotCount,
    s.store e = { s with held := ⟨s.stamped e, s.upcoming 0⟩ :: s.held, free, slotCount } ∧
      ∀ k, (s.store e).upcoming k = s.upcoming (k + 1) := by
  unfold store
  cases hfree : s.free with
  | nil =>
    refine ⟨[], s.slotCount + 1, ?_, fun k => ?_⟩
    · simp [upcoming, hfree]
    · have hnext : s.slotCount + 1 + k = s.slotCount + (k + 1) := by omega
      simpa [upcoming, hfree] using hnext
  | cons i free =>
    refine ⟨free, s.slotCount, ?_, fun k => ?_⟩
    · simp [upcoming, hfree]
    · simp [upcoming, hfree]

/-! ## Twins -/

/-- The same limits, time, hashes and number of chains. -/
structure Alike (s t : Shelf κ ν) : Prop where
  limit : t.limit = s.limit
  capacity : t.capacity = s.capacity
  policy : t.policy = s.policy
  clock : t.clock = s.clock
  hash : t.hash = s.hash
  chainCount : t.chainCount = s.chainCount

/-- The shelf `t` is the shelf `s` relabelled. -/
structure Twins (m : Relabel) (s t : Shelf κ ν) : Prop extends Alike s t where
  held : t.held = s.held.map m.held
  generation : ∀ i, t.generation (m.slot i) = s.generation i + m.shift i
  upcoming : ∀ k, t.upcoming k = m.slot (s.upcoming k)
  tally : ∀ n, t.tally.among n = (s.tally.among n).plus m.counted

/-- Two results tell the same, as `f` says, and lead to twins. -/
structure Agree {α β : Type} (m : Relabel) (f : α → β) (r : α × Shelf κ ν) (r' : β × Shelf κ ν) :
    Prop where
  answer : r'.1 = f r.1
  twins : Twins m r.2 r'.2

variable {m : Relabel} {s t : Shelf κ ν} {h : Held κ ν} {e : Entry κ ν} {i j : SlotId}

theorem Agree.exists_eq {α β : Type} {f : α → β} {r : α × Shelf κ ν} {r' : β × Shelf κ ν}
    (a : Agree m f r r') : ∃ x s' t', r = (x, s') ∧ r' = (f x, t') ∧ Twins m s' t' :=
  ⟨r.1, r.2, r'.2, rfl, Prod.ext a.answer rfl, a.twins⟩

theorem Agree.map {α β α' β' : Type} {f : α → β} {f' : α' → β'} {g : α → α'} {g' : β → β'}
    {r : α × Shelf κ ν} {r' : β × Shelf κ ν} (a : Agree m f r r')
    (hg : ∀ x, g' (f x) = f' (g x)) : Agree m f' (r.map g id) (r'.map g' id) :=
  ⟨(congrArg g' a.answer).trans (hg r.1), a.twins⟩

namespace Twins

/-! ## Reading -/

section Reading

variable (tw : Twins m s t)
include tw

theorem size : t.size = s.size := by
  rw [Shelf.size, tw.held, List.length_map]
  rfl

theorem entries : t.entries = s.entries := by
  rw [Shelf.entries, tw.held, List.map_map]
  rfl

theorem summary : t.summary = s.summary.plus m.counted := by
  rw [Shelf.summary, tw.size]
  exact tw.tally s.size

theorem chainLength (i : Nat) : t.chainLength i = s.chainLength i := by
  rw [Shelf.chainLength, tw.held, List.countP_map, tw.hash, tw.chainCount]
  rfl

theorem longestChain : t.longestChain = s.longestChain := by
  rw [Shelf.longestChain, funext tw.chainLength, tw.chainCount]
  rfl

theorem head? : t.held.head? = s.held.head?.map m.held := by
  rw [tw.held, List.head?_map]

theorem oldest? : t.oldest? = s.oldest?.map m.held := by
  rw [Shelf.oldest?, tw.held, List.getLast?_map]
  rfl

theorem overfull (n : Nat) : t.overfull n = s.overfull n := by
  rw [Shelf.overfull, tw.policy, tw.clock, tw.capacity, tw.oldest?, Option.map_map]
  rfl

theorem victim? : t.victim? = s.victim?.map m.held := by
  rw [Shelf.victim?, tw.overfull, tw.size, tw.oldest?, Shelf.victim?]
  split <;> rfl

theorem reachedLimit? : t.reachedLimit? = s.reachedLimit? := by
  rw [Shelf.reachedLimit?, tw.limit, tw.size]
  rfl

theorem positionOf (h : Held κ ν) : t.positionOf (m.held h) = m.position (s.positionOf h) :=
  congrArg (Position.mk _) (tw.generation h.slot)

theorem map_positionOf (o : Option (Held κ ν)) :
    (o.map m.held).map t.positionOf = (o.map s.positionOf).map m.position := by
  rw [Option.map_map, Option.map_map]
  exact congrArg (Option.map · o) (funext tw.positionOf)

theorem at? (pos : Position) : t.at? (m.position pos) = (s.at? pos).map m.held := by
  rw [Shelf.at?, tw.held, List.find?_map, Shelf.at?]
  congr 2
  funext h
  rw [Function.comp_apply, tw.positionOf, decide_eq_decide]
  exact m.position_inj

theorem after? (h : Held κ ν) : t.after? (m.held h) = (s.after? h).map m.held := by
  rw [Shelf.after?, tw.held, successor?_map, Shelf.after?]
  congr 2
  funext x
  exact m.slot_beq x.slot h.slot

theorem without (i : SlotId) : t.without (m.slot i) = (s.without i).map m.held := by
  rw [Shelf.without, tw.held, List.eraseP_map, Shelf.without]
  congr 2
  funext x
  exact m.slot_beq x.slot i

theorem renewed (i j : SlotId) : t.renewed (m.slot i) (m.slot j) = s.renewed i j + m.shift j := by
  rw [Shelf.renewed, Shelf.renewed, tw.generation]
  by_cases hij : i = j
  · rw [if_pos (congrArg m.slot hij), if_pos hij, UInt32.add_assoc, UInt32.add_assoc,
      UInt32.add_comm (m.shift j)]
  · rw [if_neg (mt (@m.slot_inj i j) hij), if_neg hij]

theorem find? [BEq κ] (k : κ) : t.find? k = (s.find? k).map m.held := by
  rw [Shelf.find?, tw.held, List.find?_map]
  rfl

end Reading

/-! ## Changing -/

section Changing

variable (tw : Twins m s t)
include tw

theorem count (ev : Event) : Twins m (s.count ev) (t.count ev) :=
  { tw with
    tally := fun n => by
      rw [Shelf.count, Tally.among_count, tw.tally, ← Tally.plus_count, ← Tally.among_count]
      rfl }

theorem withClock (clock : HandClock) : Twins m { s with clock } { t with clock } :=
  { tw with clock := rfl }

theorem advance (d : Duration) : Twins m (s.advance d) (t.advance d) := by
  rw [Shelf.advance, Shelf.advance, tw.clock]
  exact tw.withClock _

theorem stamped (e : Entry κ ν) : t.stamped e = s.stamped e := by
  rw [Shelf.stamped, tw.clock]
  rfl

theorem drop (h : Held κ ν) : Twins m (s.drop h) (t.drop (m.held h)) :=
  { tw with
    held := tw.without h.slot
    generation := tw.renewed h.slot
    upcoming := fun k => by
      cases k with
      | zero => rfl
      | succ k => rw [upcoming_drop_succ, upcoming_drop_succ, tw.upcoming] }

theorem refresh (h : Held κ ν) (e : Entry κ ν) :
    Twins m (s.refresh h e) (t.refresh (m.held h) e) := by
  refine Twins.count ?_ .refresh
  exact { tw with
    held := by rw [List.map_cons, ← tw.without, tw.stamped]; rfl
    upcoming := tw.upcoming }

theorem replace (h : Held κ ν) (e : Entry κ ν) :
    Twins m (s.replace h e) (t.replace (m.held h) e) := by
  refine Twins.count (Twins.count ?_ .eviction) .insertion
  exact { tw with
    held := by rw [List.map_cons, ← tw.without, tw.stamped]; rfl
    generation := tw.renewed h.slot
    upcoming := tw.upcoming }

theorem store (e : Entry κ ν) : Twins m (s.store e) (t.store e) := by
  obtain ⟨free, n, hs, hup⟩ := s.exists_store e
  obtain ⟨free', n', ht, hup'⟩ := t.exists_store e
  have hupcoming : ∀ k, (t.store e).upcoming k = m.slot ((s.store e).upcoming k) := by
    intro k
    rw [hup, hup', tw.upcoming]
  rw [hs, ht] at hupcoming ⊢
  exact { tw with
    held := by
      rw [List.map_cons, ← tw.held, tw.stamped, tw.upcoming]
      rfl
    upcoming := hupcoming }

theorem overwrite (h : Held κ ν) (v : ν) : Twins m (s.overwrite h v) (t.overwrite (m.held h) v) :=
  { tw with
    held := by
      rw [Shelf.overwrite, tw.held, Shelf.overwrite, List.map_map, List.map_map]
      refine List.map_congr_left fun x _ => ?_
      simp only [Function.comp_apply]
      by_cases hx : x.slot = h.slot
      · rw [if_pos hx, if_pos (m.slot_held_inj.2 hx)]
        rfl
      · rw [if_neg hx, if_neg (mt m.slot_held_inj.1 hx)]
    upcoming := tw.upcoming }

theorem insertNew (e : Entry κ ν) : Agree m id (s.insertNew e) (t.insertNew e) := by
  rw [Shelf.insertNew, Shelf.insertNew, tw.reachedLimit?]
  cases s.reachedLimit? with
  | some n => exact ⟨rfl, tw⟩
  | none => exact ⟨rfl, (tw.store e).count .insertion⟩

theorem pop : Agree m id s.pop t.pop := by
  rw [Shelf.pop, Shelf.pop, tw.oldest?]
  cases s.oldest? with
  | none => exact ⟨rfl, tw⟩
  | some h => exact ⟨rfl, (tw.drop h).count .eviction⟩

omit tw in
theorem evictWithin (n : Nat) (tw : Twins m s t) :
    Agree m id (Shelf.evictWithin n s) (Shelf.evictWithin n t) := by
  induction n generalizing s t with
  | zero => exact ⟨rfl, tw⟩
  | succ n ih =>
    rw [Shelf.evictWithin, Shelf.evictWithin, tw.overfull, tw.size]
    split
    · obtain ⟨a, s', t', hs, ht, tw'⟩ := tw.pop.exists_eq
      rw [hs, ht]
      cases a with
      | error _ => exact ⟨rfl, tw'⟩
      | ok _ => exact ⟨congrArg (· + 1) (ih tw').answer, (ih tw').twins⟩
    · exact ⟨rfl, tw⟩

theorem evictExcess : Agree m id s.evictExcess t.evictExcess := by
  rw [Shelf.evictExcess, Shelf.evictExcess, tw.size]
  exact tw.evictWithin s.size

theorem remove (h : Held κ ν) :
    Agree m (Option.map m.position) (s.remove h) (t.remove (m.held h)) := by
  refine ⟨?_, (tw.drop h).count .removal⟩
  show (t.after? (m.held h)).map _ = ((s.after? h).map _).map m.position
  rw [tw.after?, Option.map_map, Option.map_map]
  exact congrArg (Option.map · _) (funext (tw.drop h).positionOf)

theorem eraseAt (pos : Position) :
    Agree m (Option.map m.position) (s.eraseAt pos) (t.eraseAt (m.position pos)) := by
  rw [Shelf.eraseAt, Shelf.eraseAt, tw.at?]
  cases s.at? pos with
  | none => exact ⟨rfl, tw⟩
  | some h => exact tw.remove h

variable [BEq κ]

theorem push (e : Entry κ ν) : Agree m id (s.push e) (t.push e) := by
  rw [Shelf.push, Shelf.push, tw.find?, tw.victim?]
  cases s.find? e.key with
  | some h => exact ⟨rfl, tw.refresh h e⟩
  | none =>
    cases s.victim? with
    | some h => exact ⟨rfl, tw.replace h e⟩
    | none => exact tw.insertNew e

theorem erase (k : κ) : Agree m (Option.map m.position) (s.erase k) (t.erase k) := by
  rw [Shelf.erase, Shelf.erase, tw.find?]
  cases s.find? k with
  | none => exact ⟨rfl, tw⟩
  | some h => exact tw.remove h

theorem take (k : κ) : Agree m id (s.take k) (t.take k) := by
  rw [Shelf.take, Shelf.take, tw.find?]
  cases s.find? k with
  | none => exact ⟨rfl, tw⟩
  | some h => exact ⟨rfl, (tw.drop h).count .removal⟩

theorem write? (k : κ) (v : ν) : Agree m id (s.write? k v) (t.write? k v) := by
  rw [Shelf.write?, Shelf.write?, tw.find?]
  cases s.find? k with
  | none => exact ⟨rfl, tw⟩
  | some h => exact ⟨rfl, tw.overwrite h v⟩

theorem ensure [Inhabited ν] (k : κ) : Agree m (Except.map m.held) (s.ensure k) (t.ensure k) := by
  rw [Shelf.ensure, Shelf.ensure, tw.find?]
  cases s.find? k with
  | some h => exact ⟨rfl, tw⟩
  | none =>
    obtain ⟨a, s', t', hs, ht, tw'⟩ := (tw.push ⟨k, default⟩).exists_eq
    simp only [Option.map_none, hs, ht]
    cases a with
    | error _ => exact ⟨rfl, tw'⟩
    | ok _ =>
      refine ⟨?_, tw'⟩
      simp only [id, tw'.head?]
      cases s'.held.head? <;> rfl

/-! ## One operation -/

/-- A query has the relabelled answer. -/
theorem ask (q : Query κ) : t.ask (m.query q) = m.answer (s.ask q) := by
  cases q with
  | find k =>
    show Answer.found ((t.find? k).map Held.entry) = _
    rw [tw.find?, Option.map_map]
    rfl
  | contains k =>
    show Answer.flag (t.find? k).isSome = _
    rw [tw.find?, Option.isSome_map]
    rfl
  | lookup k =>
    show Answer.foundValue ((t.find? k).map (·.entry.value)) = _
    rw [tw.find?, Option.map_map]
    rfl
  | get k =>
    show Answer.ofExcept .value ((t.find? k).elim _ _) = _
    rw [tw.find?, Shelf.ask]
    cases s.find? k <;> rfl
  | position k =>
    show Answer.position ((t.find? k).map t.positionOf) = _
    rw [tw.find?, tw.map_positionOf]
    rfl
  | deadline k =>
    show Answer.instant ((t.find? k).bind _) = _
    rw [tw.find?, tw.policy, Option.bind_map]
    rfl
  | isExpired k =>
    show Answer.flag ((t.find? k).any _) = _
    rw [tw.find?, tw.policy, tw.clock, Option.any_map]
    rfl
  | hash k => exact congrArg (fun hash => Answer.word (hash k)) tw.hash
  | newest =>
    show Answer.found (t.held.head?.map Held.entry) = _
    rw [tw.head?, Option.map_map]
    rfl
  | oldest =>
    show Answer.found (t.oldest?.map Held.entry) = _
    rw [tw.oldest?, Option.map_map]
    rfl
  | newestPosition =>
    show Answer.position (t.held.head?.map t.positionOf) = _
    rw [tw.head?, tw.map_positionOf]
    rfl
  | oldestPosition =>
    show Answer.position (t.oldest?.map t.positionOf) = _
    rw [tw.oldest?, tw.map_positionOf]
    rfl
  | positionAfter pos =>
    show Answer.position (((t.at? (m.position pos)).bind t.after?).map t.positionOf) = _
    have hafter : ((t.at? (m.position pos)).bind t.after?) =
        ((s.at? pos).bind s.after?).map m.held := by
      rw [tw.at?]
      cases s.at? pos with
      | none => rfl
      | some h => exact tw.after? h
    rw [hafter, tw.map_positionOf]
    rfl
  | entryAt pos =>
    show Answer.found ((t.at? (m.position pos)).map Held.entry) = _
    rw [tw.at?, Option.map_map]
    rfl
  | entries => exact congrArg Answer.entries tw.entries
  | entriesRev => exact congrArg (fun es => Answer.entries es.reverse) tw.entries
  | keys => exact congrArg (fun es => Answer.keys (es.map Entry.key)) tw.entries
  | values => exact congrArg (fun es => Answer.values (es.map Entry.value)) tw.entries
  | size => exact congrArg Answer.count tw.size
  | isEmpty => exact congrArg (fun n => Answer.flag (n == 0)) tw.size
  | capacity => exact congrArg Answer.count tw.capacity
  | chainCount => exact congrArg Answer.count tw.chainCount
  | nodeLimit => exact congrArg Answer.limit tw.limit
  | longestChain => exact congrArg Answer.count tw.longestChain
  | window => exact congrArg (fun p => Answer.duration p.window?) tw.policy
  | elapsed => exact congrArg (fun c => Answer.duration (some c.elapsed)) tw.clock
  | summary => exact congrArg Answer.tally tw.summary
  | audit => rfl

variable [Inhabited ν]

/-- A command other than a clearing has the relabelled answer and leads to twins. -/
theorem apply {x : Command κ ν} (hx : x ≠ .clear) :
    Agree m m.answer (s.apply x) (t.apply (m.command x)) := by
  cases x with
  | push hint e =>
    refine (tw.push e).map fun r => ?_
    cases r <;> rfl
  | pop =>
    refine tw.pop.map fun r => ?_
    cases r <;> rfl
  | take k => exact (tw.take k).map fun _ => rfl
  | takeValue k =>
    show Agree m m.answer (s.apply (.takeValue k)) (t.apply (.takeValue k))
    rw [Shelf.apply, Shelf.apply]
    exact (tw.take k).map fun _ => rfl
  | erase k => exact (tw.erase k).map fun _ => rfl
  | eraseAt pos => exact (tw.eraseAt pos).map fun _ => rfl
  | clear => exact absurd rfl hx
  | setCapacity n =>
    have tw' : Twins m { s with capacity := n } { t with capacity := n } :=
      { tw with capacity := rfl }
    exact tw'.evictExcess.map fun _ => rfl
  | limitNodes n => exact ⟨rfl, { tw with limit := rfl }⟩
  | setWindow d =>
    have tw' : Twins m { s with policy := s.policy.withWindow d }
        { t with policy := t.policy.withWindow d } :=
      { tw with policy := congrArg (·.withWindow d) tw.policy }
    exact tw'.evictExcess.map fun _ => rfl
  | writeIfPresent k v => exact (tw.write? k v).map fun _ => rfl
  | write k v =>
    show Agree m m.answer (s.apply (.write k v)) (t.apply (.write k v))
    rw [Shelf.apply, Shelf.apply]
    refine (tw.write? k v).map fun r => ?_
    cases r <;> rfl
  | ensure k =>
    refine (tw.ensure k).map fun r => ?_
    cases r <;> rfl
  | ensureWrite k v =>
    obtain ⟨a, s', t', hs, ht, tw'⟩ := (tw.ensure k).exists_eq
    show Agree m m.answer (s.apply (.ensureWrite k v)) (t.apply (.ensureWrite k v))
    rw [Shelf.apply, Shelf.apply, hs, ht]
    cases a with
    | error r => exact ⟨rfl, tw'⟩
    | ok h => exact ⟨rfl, tw'.overwrite h v⟩
  | advance d =>
    refine ⟨?_, tw.advance d⟩
    show Answer.duration (some (t.advance d).clock.elapsed) = _
    rw [(tw.advance d).clock]
    rfl

/-- **One operation** other than a clearing. It has the relabelled answer and leads to twins. -/
theorem perform {x : Op κ ν} (hx : x ≠ .command .clear) :
    Agree m m.answer (s.perform x) (t.perform (m.op x)) := by
  cases x with
  | query q => exact ⟨tw.ask q, tw⟩
  | command x => exact tw.apply fun h => hx (congrArg Op.command h)

end Changing
end Twins

/-! ## Shelves without records -/

/-- A shelf that is new or has just been cleared: of its slots the last one will be used first. -/
structure Blank (s : Shelf κ ν) : Prop where
  held : s.held = []
  free : s.free = (List.range s.slotCount).reverse

theorem blank_clear (s : Shelf κ ν) : s.clear.Blank := ⟨rfl, rfl⟩

/-- The `k`-th number if the first `n` are counted down. -/
def countdown (n k : Nat) : Nat := if k < n then n - 1 - k else k

theorem involutive_countdown (n : Nat) : Function.Involutive (countdown n) := by
  intro k
  unfold countdown
  split
  · rw [if_pos (by omega)]
    omega
  · rfl

theorem Blank.upcoming (b : s.Blank) (k : Nat) : s.upcoming k = countdown s.slotCount k := by
  rw [Shelf.upcoming, b.free, List.length_reverse, List.length_range, countdown,
    List.getD_eq_getElem?_getD]
  by_cases hk : k < s.slotCount
  · rw [if_pos hk, List.getElem?_reverse (by simpa using hk), List.length_range,
      List.getElem?_range (by omega)]
    rfl
  · rw [if_neg hk, List.getElem?_eq_none (by simpa using hk)]
    show s.slotCount + (k - s.slotCount) = k
    omega

/-- **Blank shelves** with the same settings are twins, whatever slots they have. -/
theorem exists_twins_of_blank (al : Alike s t) (hs : s.Blank) (ht : t.Blank) {b : Tally}
    (htally : ∀ n, t.tally.among n = (s.tally.among n).plus b) :
    ∃ m : Relabel, m.counted = b ∧ Twins m s t := by
  let slot := countdown t.slotCount ∘ countdown s.slotCount
  refine ⟨⟨slot, ?_, fun i => t.generation (slot i) - s.generation i, b⟩, rfl, { al with
    held := ?_
    generation := fun i => ?_
    upcoming := fun k => ?_
    tally := htally }⟩
  · exact (involutive_countdown _).injective.comp (involutive_countdown _).injective
  · rw [hs.held, ht.held]
    rfl
  · rw [UInt32.add_comm, UInt32.sub_add_cancel]
  · rw [hs.upcoming, ht.upcoming]
    exact congrArg _ (involutive_countdown _ k).symm

end Shelf
end RecencyCache
