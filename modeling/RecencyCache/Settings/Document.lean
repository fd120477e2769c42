import RecencyCache.Document.Value
import RecencyCache.Settings
import RecencyCache.Text.Numeral
/-!
# Settings from a document

A document gives settings by an object, whose members are named after the parameters, or by an
array, whose items are the parameters in order. What it leaves out is at the default. Members with
other names are ignored. A parameter that is given twice, or a value that is no 64-bit word, makes
the document unusable; `null` stands for an absent node limit.
-/
namespace RecencyCache.Settings

open Document (Value)

/-- The parameters. -/
inductive Field where
  | capacity
  | chainCount
  | windowMillis
  | nodeLimit
  deriving DecidableEq, Repr

namespace Field

/-- The parameters in the order in which an array gives them. -/
def all : List Field := [capacity, chainCount, windowMillis, nodeLimit]

/-- The name of a parameter in a document. -/
def name : Field → String
  | capacity => "max_size"
  | chainCount => "bucket_count"
  | windowMillis => "expire_ms"
  | nodeLimit => "node_limit"

/-- The parameter with a name. -/
def ofName? (name : String) : Option Field :=
  all.find? (·.name == name)

end Field

/-- The word that a value gives. -/
def wordOf? : Value → Option UInt64
  | .natural n => Text.word? n
  | _ => none

/-- The word that a value gives, or no word for `null`. -/
def optionalWordOf? : Value → Option (Option UInt64)
  | .null => some none
  | v => (wordOf? v).map some

/-- Sets one parameter, if the value is acceptable for it. -/
def set? (s : Settings) (field : Field) (v : Value) : Option Settings :=
  match field with
  | .capacity => (wordOf? v).map fun w => { s with capacity := w }
  | .chainCount => (wordOf? v).map fun w => { s with chainCount := w }
  | .windowMillis => (wordOf? v).map fun w => { s with windowMillis := w }
  | .nodeLimit => (optionalWordOf? v).map fun w => { s with nodeLimit := w }

/-- Sets the parameters that members name. None of them may be in `seen`, and none may come
twice. -/
def setMembers? (seen : List Field) (s : Settings) : List (String × Value) → Option Settings
  | [] => some s
  | (name, v) :: rest =>
    match Field.ofName? name with
    | none => setMembers? seen s rest
    | some field =>
      if field ∈ seen then none
      else (s.set? field v).bind fun s => setMembers? (field :: seen) s rest

/-- Sets the parameters `fields` in order. There may be fewer items than parameters, but not
more. -/
def setItems? (s : Settings) : List Field → List Value → Option Settings
  | _, [] => some s
  | [], _ :: _ => none
  | field :: fields, v :: vs => (s.set? field v).bind fun s => setItems? s fields vs

/-- The settings that the members of an object give. -/
def ofMembers? (members : List (String × Value)) : Option Settings :=
  setMembers? [] {} members

/-- The settings that the items of an array give. -/
def ofItems? (items : List Value) : Option Settings :=
  setItems? {} Field.all items

/-- A member of an object whose name is a text. -/
def named? (member : Option String × Value) : Option (String × Value) :=
  member.1.map (·, member.2)

/-- The settings that the value of a document gives. -/
def ofValue? : Value → Option Settings
  | .object members => (members.mapM named?).bind ofMembers?
  | .array items => ofItems? items
  | _ => none

/-- The settings that a document gives. -/
def ofDocument? (s : String) : Option Settings :=
  (Value.parse? s).bind ofValue?

end RecencyCache.Settings
