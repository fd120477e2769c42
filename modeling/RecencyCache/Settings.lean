import RecencyCache.Refusal
import RecencyCache.Time.Duration
/-!
# Settings

The parameters from which a cache is built, their defaults, and what makes them unusable.
-/
namespace RecencyCache

/-- Construction parameters of a cache. -/
@[ext] structure Settings where
  /-- The number of entries above which the cache gives up old ones. -/
  capacity : UInt64 := 1024
  /-- The number of hash chains. -/
  chainCount : UInt64 := 32
  /-- The freshness window in milliseconds, for caches that have one. -/
  windowMillis : UInt64 := 60000
  /-- The number of nodes there may be, if it is limited. -/
  nodeLimit : Option UInt64 := none
  deriving DecidableEq, Repr

/-- A reason for which no cache can be built from settings. -/
inductive Flaw where
  | zeroCapacity
  | zeroChainCount
  | nodeLimitBelowCapacity (limit capacity : UInt64)
  deriving DecidableEq, Repr

namespace Flaw

/-- The flaw in words. -/
def reason : Flaw → String
  | zeroCapacity => "max_size must be greater than zero"
  | zeroChainCount => "bucket_count must be greater than zero"
  | nodeLimitBelowCapacity limit capacity =>
    s!"node_limit {limit.toNat} is below max_size {capacity.toNat}"

/-- The refusal to build a cache from settings with this flaw. -/
def refusal (f : Flaw) : Refusal := .badSettings f.reason

end Flaw

namespace Settings

/-- The node limit, if there is one and it is below the capacity. -/
def lowNodeLimit? (s : Settings) : Option UInt64 :=
  s.nodeLimit.filter (· < s.capacity)

/-- The first flaw of the settings: the two counts are looked at before the node limit. -/
def flaw? (s : Settings) : Option Flaw :=
  if s.capacity = 0 then some .zeroCapacity
  else if s.chainCount = 0 then some .zeroChainCount
  else s.lowNodeLimit?.map (.nodeLimitBelowCapacity · s.capacity)

/-- Refuses settings that have a flaw. -/
def check (s : Settings) : Except Refusal Unit :=
  match s.flaw? with
  | some flaw => .error flaw.refusal
  | none => .ok ()

/-- The freshness window. -/
def window (s : Settings) : Duration :=
  Duration.ofMillis s.windowMillis

end Settings
end RecencyCache
