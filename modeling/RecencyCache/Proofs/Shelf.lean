import RecencyCache.Cache.Run

/-!
# The shelf: a cache without links

A shelf keeps what a cache shows: its records in the order of recency, each with the slot it lies
in, the generation of every slot, and the free slots. It has no links, no chains and no faults, so
each operation is an operation on one list. `perform` and `run` give the operations of a cache with
the answers of a cache, positions and the length of the longest chain included.

A shelf says in closed form what a cache does: which record leaves, which slot a new one gets, and
where every position leads from then on.
-/
namespace RecencyCache

/-- An entry, and when it was last pushed. -/
@[ext] structure Record (κ ν : Type) where
  entry : Entry κ ν
  stamp : Instant
  deriving DecidableEq, Repr

/-- A record and the slot it lies in. -/
@[ext] structure Held (κ ν : Type) where
  record : Record κ ν
  slot : SlotId

namespace Held

variable {κ ν : Type}

abbrev entry (h : Held κ ν) : Entry κ ν := h.record.entry

abbrev key (h : Held κ ν) : κ := h.record.entry.key

end Held

/-- The element behind the first one that `p` accepts. -/
def successor? {α : Type} (p : α → Bool) : List α → Option α
  | [] => none
  | a :: l => if p a then l.head? else successor? p l

structure Shelf (κ ν : Type) where
  /-- The records, most recently pushed first. -/
  held : List (Held κ ν) := []
  generation : SlotId → UInt32 := fun _ => 0
  free : List SlotId := []
  /-- The number of slots, held and free. -/
  slotCount : Nat := 0
  limit : Option Nat := none
  capacity : Nat
  policy : Policy
  clock : HandClock
  tally : Tally := {}
  hash : κ → UInt64
  chainCount : Nat

namespace Shelf

variable {κ ν : Type}

/-- A shelf without records. -/
def empty (capacity chainCount : Nat) (policy : Policy) (hash : κ → UInt64) (clock : HandClock) :
    Shelf κ ν :=
  { capacity, policy, clock, hash, chainCount := max chainCount 1 }

/-! ## Reading -/

def size (s : Shelf κ ν) : Nat := s.held.length

def entries (s : Shelf κ ν) : List (Entry κ ν) := s.held.map Held.entry

def slots (s : Shelf κ ν) : List SlotId := s.held.map Held.slot

/-- The record in slot `i`. -/
def tenant? (s : Shelf κ ν) (i : SlotId) : Option (Held κ ν) := s.held.find? (·.slot == i)

/-- The present position of a record. -/
def positionOf (s : Shelf κ ν) (h : Held κ ν) : Position := ⟨h.slot, s.generation h.slot⟩

/-- The record at a position. -/
def at? (s : Shelf κ ν) (pos : Position) : Option (Held κ ν) :=
  s.held.find? fun h => s.positionOf h = pos

/-- The record that follows `h`. -/
def after? (s : Shelf κ ν) (h : Held κ ν) : Option (Held κ ν) :=
  successor? (·.slot == h.slot) s.held

def oldest? (s : Shelf κ ν) : Option (Held κ ν) := s.held.getLast?

/-- Whether the oldest record would have to leave a shelf of `size` records. -/
def overfull (s : Shelf κ ν) (size : Nat) : Bool :=
  s.policy.evicts s.clock.now size s.capacity (s.oldest?.map (·.record.stamp))

def summary (s : Shelf κ ν) : Tally := { s.tally with entries := s.size }

/-- The number of records on chain `i`. -/
def chainLength (s : Shelf κ ν) (i : Nat) : Nat :=
  s.held.countP fun h => (s.hash h.key).toNat % s.chainCount == i

def longestChain (s : Shelf κ ν) : Nat :=
  ((List.range s.chainCount).map s.chainLength).foldl max 0

/-! ## Changing -/

def count (s : Shelf κ ν) (e : Event) : Shelf κ ν := { s with tally := s.tally.count e }

/-- The generations after slot `i` changed hands. -/
def renewed (s : Shelf κ ν) (i : SlotId) : SlotId → UInt32 :=
  fun j => if i = j then s.generation j + 1 else s.generation j

/-- The records without the one in slot `i`. -/
def without (s : Shelf κ ν) (i : SlotId) : List (Held κ ν) := s.held.eraseP (·.slot == i)

/-- An entry pushed now. -/
def stamped (s : Shelf κ ν) (e : Entry κ ν) : Record κ ν := ⟨e, s.clock.now⟩

/-- Takes a record out and frees its slot. -/
def drop (s : Shelf κ ν) (h : Held κ ν) : Shelf κ ν :=
  { s with held := s.without h.slot, generation := s.renewed h.slot, free := h.slot :: s.free }

/-- Gives the slot of `h` to another entry with an equal key. -/
def refresh (s : Shelf κ ν) (h : Held κ ν) (e : Entry κ ν) : Shelf κ ν :=
  { s with held := ⟨s.stamped e, h.slot⟩ :: s.without h.slot }.count .refresh

/-- Gives the slot of `h` to a new entry. -/
def replace (s : Shelf κ ν) (h : Held κ ν) (e : Entry κ ν) : Shelf κ ν :=
  ({ s with
    held := ⟨s.stamped e, h.slot⟩ :: s.without h.slot
    generation := s.renewed h.slot }.count .eviction).count .insertion

/-- Stores a new entry in a free slot, or in a new one if none is free. -/
def store (s : Shelf κ ν) (e : Entry κ ν) : Shelf κ ν :=
  match s.free with
  | i :: free => { s with held := ⟨s.stamped e, i⟩ :: s.held, free }
  | [] => { s with held := ⟨s.stamped e, s.slotCount⟩ :: s.held, slotCount := s.slotCount + 1 }

/-- The limit, if there is one and it is reached. -/
def reachedLimit? (s : Shelf κ ν) : Option Nat := s.limit.filter (· ≤ s.size)

def insertNew (s : Shelf κ ν) (e : Entry κ ν) : Except Refusal Bool × Shelf κ ν :=
  match s.reachedLimit? with
  | some n => (.error (.nodeLimitReached n), s)
  | none => (.ok true, (s.store e).count .insertion)

/-- The record whose slot a new entry takes over, if there is one. -/
def victim? (s : Shelf κ ν) : Option (Held κ ν) :=
  if s.overfull (s.size + 1) then s.oldest? else none

def pop (s : Shelf κ ν) : Except Refusal (Entry κ ν) × Shelf κ ν :=
  match s.oldest? with
  | none => (.error .noEntries, s)
  | some h => (.ok h.entry, (s.drop h).count .eviction)

/-- Pops while the oldest record has to leave, at most `n` times. -/
def evictWithin : Nat → Shelf κ ν → Nat × Shelf κ ν
  | 0, s => (0, s)
  | n + 1, s =>
    if s.overfull s.size then
      match s.pop with
      | (.ok _, s') => ((evictWithin n s').1 + 1, (evictWithin n s').2)
      | (.error _, s') => (0, s')
    else (0, s)

def evictExcess (s : Shelf κ ν) : Nat × Shelf κ ν := evictWithin s.size s

def setCapacity (s : Shelf κ ν) (capacity : Nat) : Nat × Shelf κ ν :=
  { s with capacity }.evictExcess

def setWindow (s : Shelf κ ν) (window : Duration) : Nat × Shelf κ ν :=
  { s with policy := s.policy.withWindow window }.evictExcess

/-- Removes a record and answers the position of the one that followed it. -/
def remove (s : Shelf κ ν) (h : Held κ ν) : Option Position × Shelf κ ν :=
  ((s.after? h).map (s.drop h).positionOf, (s.drop h).count .removal)

def eraseAt (s : Shelf κ ν) (pos : Position) : Option Position × Shelf κ ν :=
  match s.at? pos with
  | some h => s.remove h
  | none => (none, s)

def clear (s : Shelf κ ν) : Shelf κ ν :=
  { s with
    held := []
    generation := fun i => if i ∈ s.slots then s.generation i + 1 else s.generation i
    free := (List.range s.slotCount).reverse }

/-- Overwrites the value of the record in the slot of `h`. -/
def overwrite (s : Shelf κ ν) (h : Held κ ν) (v : ν) : Shelf κ ν :=
  { s with held := s.held.map fun x =>
      if x.slot = h.slot then { x with record.entry.value := v } else x }

def limitNodes (s : Shelf κ ν) (limit : Nat) : Shelf κ ν := { s with limit := some limit }

def advance (s : Shelf κ ν) (d : Duration) : Shelf κ ν := { s with clock := s.clock.advance d }

/-! ## By key -/

variable [BEq κ]

/-- The record with key `k`. -/
def find? (s : Shelf κ ν) (k : κ) : Option (Held κ ν) := s.held.find? (·.key == k)

def push (s : Shelf κ ν) (e : Entry κ ν) : Except Refusal Bool × Shelf κ ν :=
  match s.find? e.key with
  | some h => (.ok false, s.refresh h e)
  | none =>
    match s.victim? with
    | some h => (.ok true, s.replace h e)
    | none => s.insertNew e

def erase (s : Shelf κ ν) (k : κ) : Option Position × Shelf κ ν :=
  match s.find? k with
  | some h => s.remove h
  | none => (none, s)

def take (s : Shelf κ ν) (k : κ) : Option (Entry κ ν) × Shelf κ ν :=
  match s.find? k with
  | some h => (some h.entry, (s.drop h).count .removal)
  | none => (none, s)

def write? (s : Shelf κ ν) (k : κ) (v : ν) : Option ν × Shelf κ ν :=
  match s.find? k with
  | some h => (some h.entry.value, s.overwrite h v)
  | none => (none, s)

/-- The record with key `k`; an absent key is first pushed with a default value. -/
def ensure [Inhabited ν] (s : Shelf κ ν) (k : κ) : Except Refusal (Held κ ν) × Shelf κ ν :=
  match s.find? k with
  | some h => (.ok h, s)
  | none =>
    match s.push ⟨k, default⟩ with
    | (.error r, s') => (.error r, s')
    | (.ok _, s') => (s'.held.head?.elim (.error .absentKey) .ok, s')

/-! ## Operations as data -/

/-- The answer of a query. -/
def ask (s : Shelf κ ν) : Query κ → Answer κ ν
  | .find k => .found ((s.find? k).map Held.entry)
  | .contains k => .flag (s.find? k).isSome
  | .lookup k => .foundValue ((s.find? k).map (·.entry.value))
  | .get k => .ofExcept .value ((s.find? k).elim (.error .absentKey) (.ok ·.entry.value))
  | .position k => .position ((s.find? k).map s.positionOf)
  | .deadline k => .instant ((s.find? k).bind fun h => s.policy.deadline? h.record.stamp)
  | .isExpired k => .flag ((s.find? k).any fun h => s.policy.isExpired h.record.stamp s.clock.now)
  | .hash k => .word (s.hash k)
  | .newest => .found (s.held.head?.map Held.entry)
  | .oldest => .found (s.oldest?.map Held.entry)
  | .newestPosition => .position (s.held.head?.map s.positionOf)
  | .oldestPosition => .position (s.oldest?.map s.positionOf)
  | .positionAfter pos => .position (((s.at? pos).bind s.after?).map s.positionOf)
  | .entryAt pos => .found ((s.at? pos).map Held.entry)
  | .entries => .entries s.entries
  | .entriesRev => .entries s.entries.reverse
  | .keys => .keys (s.entries.map Entry.key)
  | .values => .values (s.entries.map Entry.value)
  | .size => .count s.size
  | .isEmpty => .flag (s.size == 0)
  | .capacity => .count s.capacity
  | .chainCount => .count s.chainCount
  | .nodeLimit => .limit s.limit
  | .longestChain => .count s.longestChain
  | .window => .duration s.policy.window?
  | .elapsed => .duration (some s.clock.elapsed)
  | .summary => .tally s.summary
  | .audit => .done

variable [Inhabited ν]

/-- The answer of a command and the shelf after it. -/
def apply (s : Shelf κ ν) : Command κ ν → Answer κ ν × Shelf κ ν
  | .push _ e => (s.push e).map (.ofExcept .flag) id
  | .pop => s.pop.map (.ofExcept .entry) id
  | .take k => (s.take k).map .found id
  | .takeValue k => (s.take k).map (.foundValue <| ·.map Entry.value) id
  | .erase k => (s.erase k).map .position id
  | .eraseAt pos => (s.eraseAt pos).map .position id
  | .clear => (.done, s.clear)
  | .setCapacity n => (s.setCapacity n).map .count id
  | .limitNodes n => (.limit (some n), s.limitNodes n)
  | .setWindow d => (s.setWindow d).map .count id
  | .writeIfPresent k v => (s.write? k v).map .foundValue id
  | .write k v =>
    (s.write? k v).map (fun old => .ofExcept .value (old.elim (.error .absentKey) .ok)) id
  | .ensure k => (s.ensure k).map (fun h => .ofExcept (.value ·.entry.value) h) id
  | .ensureWrite k v =>
    match s.ensure k with
    | (.ok h, s') => (.value h.entry.value, s'.overwrite h v)
    | (.error r, s') => (.refused r, s')
  | .advance d => (.duration (some (s.advance d).clock.elapsed), s.advance d)

/-- The answer of an operation and the shelf after it. -/
def perform (s : Shelf κ ν) : Op κ ν → Answer κ ν × Shelf κ ν
  | .query q => (s.ask q, s)
  | .command m => s.apply m

/-- The answers of a list of operations and the shelf after them. -/
def run (s : Shelf κ ν) : List (Op κ ν) → List (Answer κ ν) × Shelf κ ν
  | [] => ([], s)
  | op :: ops =>
    let (answers, s') := (s.perform op).2.run ops
    ((s.perform op).1 :: answers, s')

end Shelf
end RecencyCache
