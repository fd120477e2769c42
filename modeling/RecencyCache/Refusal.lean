import RecencyCache.Text.Quoted
/-!
# Refusals

What a caller of a cache can be refused, the sentence that says so, and the written form of a
refusal as a value.
-/
namespace RecencyCache

/-- The reasons for which an operation or a construction is refused. -/
inductive Refusal where
  /-- The key is not in the cache. -/
  | absentKey
  /-- There is no entry to evict. -/
  | noEntries
  /-- No node could be had for a new entry. -/
  | noNode (reason : String)
  /-- No cache can be built from the settings. -/
  | badSettings (reason : String)
  /-- The parts of the cache disagree. -/
  | disagreement (reason : String)
  deriving DecidableEq, Repr

namespace Refusal

/-- The refusal of a new node where there may be at most `limit`. -/
def nodeLimitReached (limit : Nat) : Refusal :=
  .noNode s!"node limit {limit} reached"

/-- The sentence shown to a user. -/
def message : Refusal → String
  | absentKey => "Key not found"
  | noEntries => "Cache is empty"
  | noNode reason => "Allocation failure: " ++ reason
  | badSettings reason => "Invalid configuration: " ++ reason
  | disagreement reason => "Invariant violated: " ++ reason

/-- The name of the kind of refusal. -/
def name : Refusal → String
  | absentKey => "NotFound"
  | noEntries => "EmptyCache"
  | noNode _ => "AllocationFailure"
  | badSettings _ => "InvalidConfig"
  | disagreement _ => "Invariant"

/-- The reason, for the kinds that carry one. -/
def reason? : Refusal → Option String
  | absentKey | noEntries => none
  | noNode reason | badSettings reason | disagreement reason => some reason

/-- The written form: the name, and the reason in quotes between round brackets. -/
def literal (r : Refusal) : String :=
  match r.reason? with
  | none => r.name
  | some reason => r.name ++ "(" ++ Text.quote reason ++ ")"

end Refusal
end RecencyCache
