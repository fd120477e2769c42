import RecencyCache.Key.Caseless
import RecencyCache.Node
import RecencyCache.Text.Quoted
/-!
# Written forms

An integer is written in decimal and text in quotes. An entry of a set is written as its key, an
entry of a map as a pair, and a list of entries between square brackets.
-/
namespace RecencyCache

/-- Types whose values have a written form. -/
class Literal (α : Type) where
  literal : α → String

export Literal (literal)

instance : Literal Int64 where
  literal n := toString n.toInt

instance : Literal String where
  literal := Text.quote

instance : Literal Caseless where
  literal t := Text.quote t.text

namespace Entry

variable {κ ν : Type} [Literal κ]

/-- The written form of an entry of a set. -/
def keyLiteral (e : Entry κ ν) : String := literal e.key

/-- The written form of an entry of a map. -/
def pairLiteral [Literal ν] (e : Entry κ ν) : String :=
  "(" ++ literal e.key ++ ", " ++ literal e.value ++ ")"

end Entry

/-- Written forms in square brackets, with commas between them. -/
def Text.listing (items : List String) : String :=
  "[" ++ ", ".intercalate items ++ "]"

end RecencyCache
