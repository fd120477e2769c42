import RecencyCache.Proofs.Shelf

/-!
# The roster: a plain list of records

A roster is the reference machine of a cache. It keeps one list of entries with the times of their
last pushes, most recent first, and finds everything in it by key. It has no slots and no
positions: an operation that is given a position gets the entry there instead (`perform`), and an
answer that is a position is the entry there. What a cache answers about its hashes is left out.
-/
namespace RecencyCache

structure Roster (κ ν : Type) where
  /-- The records, most recently pushed first. -/
  records : List (Record κ ν) := []
  limit : Option Nat := none
  capacity : Nat
  policy : Policy
  clock : HandClock
  tally : Tally := {}

/-- What remains of records, the oldest first, when the oldest leaves as long as it has to. -/
def Policy.trim {κ ν : Type} (p : Policy) (now : Instant) (capacity : Nat) :
    List (Record κ ν) → List (Record κ ν)
  | [] => []
  | r :: newer =>
    if p.evicts now (newer.length + 1) capacity (some r.stamp) then trim p now capacity newer
    else r :: newer

namespace Roster

variable {κ ν : Type}

def size (r : Roster κ ν) : Nat := r.records.length

def entries (r : Roster κ ν) : List (Entry κ ν) := r.records.map Record.entry

def oldest? (r : Roster κ ν) : Option (Record κ ν) := r.records.getLast?

def summary (r : Roster κ ν) : Tally := { r.tally with entries := r.size }

def count (r : Roster κ ν) (e : Event) : Roster κ ν := { r with tally := r.tally.count e }

/-- An entry pushed now. -/
def stamped (r : Roster κ ν) (e : Entry κ ν) : Record κ ν := ⟨e, r.clock.now⟩

/-- Whether one more record is too many for the oldest one to stay. -/
def full (r : Roster κ ν) : Bool :=
  r.oldest?.any fun x => r.policy.evicts r.clock.now (r.size + 1) r.capacity (some x.stamp)

def pop (r : Roster κ ν) : Except Refusal (Entry κ ν) × Roster κ ν :=
  match r.oldest? with
  | none => (.error .noEntries, r)
  | some x => (.ok x.entry, { r with records := r.records.dropLast }.count .eviction)

/-- The records that remain when the oldest leaves as long as it has to. -/
def kept (r : Roster κ ν) : List (Record κ ν) :=
  (r.policy.trim r.clock.now r.capacity r.records.reverse).reverse

/-- Evicts what has to leave, and answers how many records left. -/
def shrink (r : Roster κ ν) : Nat × Roster κ ν :=
  let evicted := r.size - r.kept.length
  (evicted, { r with
    records := r.kept
    tally := { r.tally with evictions := r.tally.evictions + evicted } })

def setCapacity (r : Roster κ ν) (capacity : Nat) : Nat × Roster κ ν :=
  { r with capacity }.shrink

def setWindow (r : Roster κ ν) (window : Duration) : Nat × Roster κ ν :=
  { r with policy := r.policy.withWindow window }.shrink

variable [BEq κ]

/-- The record with key `k`. -/
def find? (r : Roster κ ν) (k : κ) : Option (Record κ ν) := r.records.find? (·.entry.key == k)

/-- The record that follows the one with key `k`. -/
def after? (r : Roster κ ν) (k : κ) : Option (Record κ ν) :=
  successor? (·.entry.key == k) r.records

/-- The records without the one with key `k`. -/
def without (r : Roster κ ν) (k : κ) : List (Record κ ν) := r.records.eraseP (·.entry.key == k)

/-- A hit moves the entry, as it is spelled now, to the front; a miss puts it there after the oldest
record has left, if it has to, and is refused if the limit is reached and no record has to leave. -/
def push (r : Roster κ ν) (e : Entry κ ν) : Except Refusal Bool × Roster κ ν :=
  if (r.find? e.key).isSome then
    (.ok false, { r with records := r.stamped e :: r.without e.key }.count .refresh)
  else if r.full then
    (.ok true, ({ r with records := r.stamped e :: r.records.dropLast }.count .eviction).count
      .insertion)
  else
    match r.limit.filter (· ≤ r.size) with
    | some n => (.error (.nodeLimitReached n), r)
    | none => (.ok true, { r with records := r.stamped e :: r.records }.count .insertion)

def take (r : Roster κ ν) (k : κ) : Option (Entry κ ν) × Roster κ ν :=
  match r.find? k with
  | some x => (some x.entry, { r with records := r.without k }.count .removal)
  | none => (none, r)

/-- Removes the record with key `k` and answers the entry that followed it. -/
def erase (r : Roster κ ν) (k : κ) : Option (Entry κ ν) × Roster κ ν :=
  if (r.find? k).isSome then
    ((r.after? k).map Record.entry, { r with records := r.without k }.count .removal)
  else (none, r)

def write? (r : Roster κ ν) (k : κ) (v : ν) : Option ν × Roster κ ν :=
  match r.find? k with
  | some x => (some x.entry.value, { r with records := r.records.map fun y =>
      if y.entry.key == k then { y with entry.value := v } else y })
  | none => (none, r)

/-- The value of key `k`; an absent key is first pushed with a default value. -/
def ensure [Inhabited ν] (r : Roster κ ν) (k : κ) : Except Refusal ν × Roster κ ν :=
  match r.find? k with
  | some x => (.ok x.entry.value, r)
  | none => (r.push ⟨k, default⟩).map (·.map fun _ => default) id

/-! ## Operations as data -/

/-- The answer of a query, which is about the entry `target` if it is given a position. -/
def ask (r : Roster κ ν) (target : Option (Entry κ ν)) : Query κ → Answer κ ν
  | .find k => .found ((r.find? k).map Record.entry)
  | .contains k => .flag (r.find? k).isSome
  | .lookup k => .foundValue ((r.find? k).map (·.entry.value))
  | .get k => .ofExcept .value ((r.find? k).elim (.error .absentKey) (.ok ·.entry.value))
  | .position k => .found ((r.find? k).map Record.entry)
  | .deadline k => .instant ((r.find? k).bind fun x => r.policy.deadline? x.stamp)
  | .isExpired k => .flag ((r.find? k).any fun x => r.policy.isExpired x.stamp r.clock.now)
  | .newest => .found r.entries.head?
  | .oldest => .found r.entries.getLast?
  | .newestPosition => .found r.entries.head?
  | .oldestPosition => .found r.entries.getLast?
  | .positionAfter _ => .found ((target.bind fun e => r.after? e.key).map Record.entry)
  | .entryAt _ => .found ((target.bind fun e => r.find? e.key).map Record.entry)
  | .entries => .entries r.entries
  | .entriesRev => .entries r.entries.reverse
  | .keys => .keys (r.entries.map Entry.key)
  | .values => .values (r.entries.map Entry.value)
  | .size => .count r.size
  | .isEmpty => .flag (r.size == 0)
  | .capacity => .count r.capacity
  | .nodeLimit => .limit r.limit
  | .window => .duration r.policy.window?
  | .elapsed => .duration (some r.clock.elapsed)
  | .summary => .tally r.summary
  | .audit | .hash _ | .chainCount | .longestChain => .done

variable [Inhabited ν]

/-- The answer of a command and the roster after it. -/
def apply (r : Roster κ ν) (target : Option (Entry κ ν)) :
    Command κ ν → Answer κ ν × Roster κ ν
  | .push _ e => (r.push e).map (.ofExcept .flag) id
  | .pop => r.pop.map (.ofExcept .entry) id
  | .take k => (r.take k).map .found id
  | .takeValue k => (r.take k).map (.foundValue <| ·.map Entry.value) id
  | .erase k => (r.erase k).map .found id
  | .eraseAt _ => (target.elim (none, r) fun e => r.erase e.key).map .found id
  | .clear => (.done, { r with records := [] })
  | .setCapacity n => (r.setCapacity n).map .count id
  | .limitNodes n => (.limit (some n), { r with limit := some n })
  | .setWindow d => (r.setWindow d).map .count id
  | .writeIfPresent k v => (r.write? k v).map .foundValue id
  | .write k v =>
    (r.write? k v).map (fun old => .ofExcept .value (old.elim (.error .absentKey) .ok)) id
  | .ensure k => (r.ensure k).map (.ofExcept .value) id
  | .ensureWrite k v =>
    match r.ensure k with
    | (.ok old, r') => (.value old, (r'.write? k v).2)
    | (.error e, r') => (.refused e, r')
  | .advance d =>
    let clock := r.clock.advance d
    (.duration (some clock.elapsed), { r with clock })

/-- The answer of an operation and the roster after it. -/
def perform (r : Roster κ ν) (target : Option (Entry κ ν)) : Op κ ν → Answer κ ν × Roster κ ν
  | .query q => (r.ask target q, r)
  | .command m => r.apply target m

end Roster

/-! ## What an observer sees -/

/-- The answer of an operation, and what the container shows after it. -/
structure Sight (κ ν : Type) where
  answer : Answer κ ν
  entries : List (Entry κ ν)
  size : Nat
  summary : Tally

variable {κ ν : Type} [BEq κ] [Inhabited ν]

/-- What is seen of a roster after each of some operations, each with the entry that its position
leads to. -/
def Roster.watch (r : Roster κ ν) : List (Op κ ν × Option (Entry κ ν)) → List (Sight κ ν)
  | [] => []
  | (op, target) :: ops =>
    let (answer, r') := r.perform target op
    ⟨answer, r'.entries, r'.size, r'.summary⟩ :: r'.watch ops

/-- Whether an operation asks for hashes or for the chains that they select. -/
def Op.onHashes : Op κ ν → Bool
  | .query (.hash _) | .query .chainCount | .query .longestChain => true
  | _ => false

/-- The position that an operation is given. -/
def Op.position? : Op κ ν → Option Position
  | .query (.entryAt pos) | .query (.positionAfter pos) | .command (.eraseAt pos) => some pos
  | _ => none

namespace Cache

/-- The entry that the position of an operation leads to. -/
def target? (c : Cache κ ν) (op : Op κ ν) : Except Fault (Option (Entry κ ν)) :=
  match op.position? with
  | some pos => c.entryAt? pos
  | none => pure none

/-- An answer with the entry in place of a position. -/
def shown (c : Cache κ ν) : Answer κ ν → Except Fault (Answer κ ν)
  | .position (some pos) => .found <$> c.entryAt? pos
  | .position none => pure (.found none)
  | answer => pure answer

/-- What an observer sees of an answer: nothing if it is about hashes. -/
def observe (c : Cache κ ν) (op : Op κ ν) (answer : Answer κ ν) : Except Fault (Answer κ ν) :=
  if op.onHashes then pure .done else c.shown answer

/-- What is seen of a cache after each of some operations, each with the entry that the position
given to the operation leads to. -/
def watch (c : Cache κ ν) : List (Op κ ν) → Except Fault (List (Option (Entry κ ν) × Sight κ ν))
  | [] => pure []
  | op :: ops => do
    let target ← c.target? op
    let (answer, c) ← c.perform op
    let answer ← c.observe op answer
    let entries ← c.toList
    let rest ← c.watch ops
    pure ((target, ⟨answer, entries, c.size, c.summary⟩) :: rest)

end Cache
end RecencyCache
