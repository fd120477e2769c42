import RecencyCache.Settings
import RecencyCache.Text.Numeral
/-!
# Settings from variables

Each parameter has a variable of its own. A variable that is missing, or whose text is no numeral of
a 64-bit word, leaves its parameter at the default; the other variables have no part in it.
-/
namespace RecencyCache.Settings

/-- The variable of the capacity. -/
def capacityVariable : String := "LRU_MAX_SIZE"

/-- The variable of the number of hash chains. -/
def chainCountVariable : String := "LRU_BUCKET_COUNT"

/-- The variable of the freshness window. -/
def windowVariable : String := "LRU_EXPIRE_MS"

/-- The variable of the node limit. -/
def nodeLimitVariable : String := "LRU_NODE_LIMIT"

/-- All variables. -/
def variableNames : List String :=
  [capacityVariable, chainCountVariable, windowVariable, nodeLimitVariable]

/-- The word that a variable holds, if it holds one. -/
def wordIn? (lookup : String → Option String) (name : String) : Option UInt64 :=
  (lookup name).bind Text.decimalWord?

/-- The settings that the variables hold; what they do not hold is at the default. -/
def ofVariables (lookup : String → Option String) : Settings :=
  let default : Settings := {}
  { capacity := (wordIn? lookup capacityVariable).getD default.capacity
    chainCount := (wordIn? lookup chainCountVariable).getD default.chainCount
    windowMillis := (wordIn? lookup windowVariable).getD default.windowMillis
    nodeLimit := wordIn? lookup nodeLimitVariable }

end RecencyCache.Settings
