import RecencyCache.Time.HandClock
/-!
# Handles of shared clocks

A table of handles, each of them leading to one of a number of clocks. A handle made by `share`
leads to the same clock as the handle it was made from, so what one of them advances, all of them
read; a handle made by `create` has a clock of its own.
-/
namespace RecencyCache

/-- Clocks, and for each handle the index of the clock it leads to. -/
structure SharedClocks where
  clocks : Array HandClock := #[]
  handles : Array Nat := #[]
  deriving DecidableEq, Repr

namespace SharedClocks

/-- What can be done to the table. Handles count from zero in the order in which they were made. -/
inductive Step where
  /-- Makes a handle with a clock of its own. -/
  | create
  /-- Makes another handle of the clock that `handle` leads to. -/
  | share (handle : Nat)
  /-- Advances the clock that `handle` leads to. -/
  | advance (handle : Nat) (d : Duration)
  deriving DecidableEq, Repr

/-- The clock that a handle leads to. -/
def clock? (t : SharedClocks) (handle : Nat) : Option HandClock := do
  t.clocks[← t.handles[handle]?]?

/-- One step; an unknown handle changes nothing. -/
def apply (t : SharedClocks) : Step → SharedClocks
  | .create => { clocks := t.clocks.push .initial, handles := t.handles.push t.clocks.size }
  | .share handle =>
    match t.handles[handle]? with
    | some i => { t with handles := t.handles.push i }
    | none => t
  | .advance handle d =>
    match t.handles[handle]? with
    | some i => { t with clocks := t.clocks.modify i (·.advance d) }
    | none => t

/-- All steps in order. -/
def run (t : SharedClocks) (steps : List Step) : SharedClocks :=
  steps.foldl apply t

/-- The clock of every handle, in the order of the handles. -/
def readings (t : SharedClocks) : List HandClock :=
  (List.range t.handles.size).filterMap t.clock?

end SharedClocks
end RecencyCache
