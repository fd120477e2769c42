import RecencyCache.Cache.Push
import RecencyCache.Cache.Removal
/-!
# Values by key

Removing a key for its value, overwriting the value of an entry without touching its place in the
order, its stamp or the tally, and making sure that a key has a value.
-/
namespace RecencyCache.Cache

variable {κ ν : Type}

/-- Overwrites the value in slot `i` and answers the value it had. -/
def exchange (c : Cache κ ν) (i : SlotId) (v : ν) : Except Fault (ν × Cache κ ν) := do
  let old := (← c.entryIn i).value
  let nodes ← c.nodes.modify i fun n => { n with entry := { n.entry with value := v } }
  pure (old, { c with nodes })

variable [BEq κ]

/-- Removes the entry with key `k` and answers its value. -/
def takeValue (c : Cache κ ν) (k : κ) : Except Fault (Option ν × Cache κ ν) := do
  let (e, c) ← c.take k
  pure (e.map Entry.value, c)

/-- Overwrites the value stored with key `k`, if there is one, and answers the value it had. -/
def write? (c : Cache κ ν) (k : κ) (v : ν) : Except Fault (Option ν × Cache κ ν) := do
  match ← c.slot? k with
  | none => pure (none, c)
  | some i =>
    let (old, c) ← c.exchange i v
    pure (some old, c)

/-- As `write?`, for a key that has to be present. -/
def write (c : Cache κ ν) (k : κ) (v : ν) : Except Fault (Outcome κ ν ν) := do
  match ← c.write? k v with
  | (some old, c) => pure (.ok old, c)
  | (none, c) => pure (.error .absentKey, c)

variable [Inhabited ν]

/-- The slot of the entry with key `k`; an absent key is first pushed with a default value. A
present entry is not promoted. -/
def ensureSlot (c : Cache κ ν) (k : κ) : Except Fault (Outcome κ ν SlotId) := do
  match ← c.slot? k with
  | some i => pure (.ok i, c)
  | none =>
    match ← c.push ⟨k, default⟩ with
    | (.error e, c) => pure (.error e, c)
    | (.ok _, c) =>
      match c.order.head with
      | some i => pure (.ok i, c)
      | none => pure (.error .absentKey, c)

/-- The value stored with key `k`; an absent key is first pushed with a default value. -/
def ensure (c : Cache κ ν) (k : κ) : Except Fault (Outcome κ ν ν) := do
  match ← c.ensureSlot k with
  | (.error e, c) => pure (.error e, c)
  | (.ok i, c) => pure (.ok (← c.entryIn i).value, c)

/-- As `ensure`, but afterwards the value is overwritten. -/
def ensureWrite (c : Cache κ ν) (k : κ) (v : ν) : Except Fault (Outcome κ ν ν) := do
  match ← c.ensureSlot k with
  | (.error e, c) => pure (.error e, c)
  | (.ok i, c) =>
    let (old, c) ← c.exchange i v
    pure (.ok old, c)

end RecencyCache.Cache
