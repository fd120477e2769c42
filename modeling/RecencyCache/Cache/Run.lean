import RecencyCache.Cache.Audit
import RecencyCache.Cache.Cursor
import RecencyCache.Cache.Values
/-!
# Operations as data

Every public operation of a cache as a value, the answers they have, and the run of a list of
operations from a given cache. Queries leave the cache as it is; commands may change it.
-/
namespace RecencyCache

/-- An operation that only reads. -/
inductive Query (κ : Type) where
  | find (key : κ)
  | contains (key : κ)
  /-- The value of a key, if it is present. -/
  | lookup (key : κ)
  /-- The value of a key, which has to be present. -/
  | get (key : κ)
  | position (key : κ)
  | deadline (key : κ)
  | isExpired (key : κ)
  | hash (key : κ)
  | newest
  | oldest
  | newestPosition
  | oldestPosition
  | positionAfter (pos : Position)
  | entryAt (pos : Position)
  | entries
  /-- All entries, least recently pushed first. -/
  | entriesRev
  | keys
  | values
  | size
  | isEmpty
  | capacity
  | chainCount
  | nodeLimit
  | longestChain
  | window
  /-- The time since the clock's origin. -/
  | elapsed
  | summary
  | audit
  deriving DecidableEq, Repr

/-- An operation that may change the cache. -/
inductive Command (κ ν : Type) where
  /-- A push, with a hint where the entry might go. The hint has no influence. -/
  | push (hint : Option Position) (entry : Entry κ ν)
  | pop
  | take (key : κ)
  /-- As `take`, for the value alone. -/
  | takeValue (key : κ)
  | erase (key : κ)
  | eraseAt (pos : Position)
  | clear
  | setCapacity (capacity : Nat)
  | limitNodes (limit : Nat)
  | setWindow (window : Duration)
  /-- Overwrites the value of a key, if it is present. -/
  | writeIfPresent (key : κ) (value : ν)
  /-- Overwrites the value of a key, which has to be present. -/
  | write (key : κ) (value : ν)
  /-- Pushes a default value if the key is absent. -/
  | ensure (key : κ)
  /-- Pushes a default value if the key is absent, and then overwrites the value. -/
  | ensureWrite (key : κ) (value : ν)
  | advance (d : Duration)
  deriving DecidableEq, Repr

/-- A public operation. -/
inductive Op (κ ν : Type) where
  | query (q : Query κ)
  | command (m : Command κ ν)
  deriving DecidableEq, Repr

/-- The answer of an operation. -/
inductive Answer (κ ν : Type) where
  | done
  | flag (b : Bool)
  | count (n : Nat)
  | limit (n : Option Nat)
  | word (w : UInt64)
  | entry (e : Entry κ ν)
  | found (e : Option (Entry κ ν))
  | value (v : ν)
  | foundValue (v : Option ν)
  | position (pos : Option Position)
  | entries (es : List (Entry κ ν))
  | keys (ks : List κ)
  | values (vs : List ν)
  | instant (t : Option Instant)
  | duration (d : Option Duration)
  | tally (t : Tally)
  | refused (r : Refusal)
  deriving DecidableEq, Repr

/-- The answer of an operation that can be refused. -/
def Answer.ofExcept {κ ν α : Type} (answer : α → Answer κ ν) : Except Refusal α → Answer κ ν
  | .ok a => answer a
  | .error r => .refused r

namespace Cache

variable {κ ν : Type} [BEq κ]

/-- The answer of a query. -/
def ask (c : Cache κ ν) : Query κ → Except Fault (Answer κ ν)
  | .find k => .found <$> c.find? k
  | .contains k => .flag <$> c.contains k
  | .lookup k => .foundValue <$> c.get? k
  | .get k => .ofExcept .value <$> c.get k
  | .position k => .position <$> c.position? k
  | .deadline k => .instant <$> c.deadline? k
  | .isExpired k => .flag <$> c.isExpired k
  | .hash k => pure (.word (c.hash k))
  | .newest => .found <$> c.newest?
  | .oldest => .found <$> c.oldest?
  | .newestPosition => .position <$> c.newestPosition?
  | .oldestPosition => .position <$> c.oldestPosition?
  | .positionAfter pos => .position <$> c.positionAfter? pos
  | .entryAt pos => .found <$> c.entryAt? pos
  | .entries => .entries <$> c.toList
  | .entriesRev => .entries <$> c.toListRev
  | .keys => .keys <$> c.keys
  | .values => .values <$> c.values
  | .size => pure (.count c.size)
  | .isEmpty => pure (.flag c.isEmpty)
  | .capacity => pure (.count c.capacity)
  | .chainCount => pure (.count c.chainCount)
  | .nodeLimit => pure (.limit c.nodes.limit)
  | .longestChain => .count <$> c.longestChain
  | .window => pure (.duration c.policy.window?)
  | .elapsed => pure (.duration (some c.clock.elapsed))
  | .summary => pure (.tally c.summary)
  | .audit => .ofExcept (fun _ => .done) <$> c.verdict

/-- The answer of a command and the cache after it. -/
def apply [Inhabited ν] (c : Cache κ ν) : Command κ ν → Except Fault (Answer κ ν × Cache κ ν)
  | .push _ e => .map (.ofExcept .flag) id <$> c.push e
  | .pop => .map (.ofExcept .entry) id <$> c.pop
  | .take k => .map .found id <$> c.take k
  | .takeValue k => .map .foundValue id <$> c.takeValue k
  | .erase k => .map .position id <$> c.erase k
  | .eraseAt pos => .map .position id <$> c.eraseAt pos
  | .clear => pure (.done, c.clear)
  | .setCapacity n => .map .count id <$> c.setCapacity n
  | .limitNodes n => pure (.limit (some n), c.limitNodes n)
  | .setWindow d => .map .count id <$> c.setWindow d
  | .writeIfPresent k v => .map .foundValue id <$> c.write? k v
  | .write k v => .map (.ofExcept .value) id <$> c.write k v
  | .ensure k => .map (.ofExcept .value) id <$> c.ensure k
  | .ensureWrite k v => .map (.ofExcept .value) id <$> c.ensureWrite k v
  | .advance d =>
    let clock := c.clock.advance d
    pure (.duration (some clock.elapsed), { c with clock })

/-- The answer of an operation and the cache after it. -/
def perform [Inhabited ν] (c : Cache κ ν) : Op κ ν → Except Fault (Answer κ ν × Cache κ ν)
  | .query q => (·, c) <$> c.ask q
  | .command m => c.apply m

/-- The answers of a list of operations, one after the other, and the cache after them. -/
def run [Inhabited ν] (c : Cache κ ν) :
    List (Op κ ν) → Except Fault (List (Answer κ ν) × Cache κ ν)
  | [] => pure ([], c)
  | op :: ops => do
    let (answer, c) ← c.perform op
    let (answers, c) ← c.run ops
    pure (answer :: answers, c)

end Cache
end RecencyCache
