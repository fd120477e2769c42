import RecencyCache.Document.Token
/-!
# Values of a document

The tokens of a document are put together into one value. The open arrays and objects are kept on a
stack, so values nest to any depth. An object keeps its members in order, repeated ones too.
-/
namespace RecencyCache.Document

/-- What a document says. A text is `none` if it holds one half of a surrogate pair without the
other. -/
inductive Value where
  | null
  | bool (b : Bool)
  /-- A number without a sign, a point or an exponent. -/
  | natural (n : Nat)
  /-- Any other number. -/
  | real
  | text (s : Option String)
  | array (items : List Value)
  | object (members : List (Option String × Value))
  deriving Repr

/-- An array or object that is not closed yet; what it holds is kept last first. -/
inductive Frame where
  | array (items : List Value)
  /-- An object and the name of the member that comes next. -/
  | object (members : List (Option String × Value)) (name : Option String)
  deriving Repr

/-- What has to come next. -/
inductive Expected where
  | value
  /-- A value, or the end of an array that was just opened. -/
  | item
  /-- The name of a member, or, if `mayClose`, the end of an object that was just opened. -/
  | name (members : List (Option String × Value)) (mayClose : Bool)
  /-- The colon after a name. -/
  | colon
  /-- A comma, or the end of the innermost array or object. -/
  | separator
  | nothing (result : Value)
  deriving Repr

/-- The arrays and objects that are open, innermost first, and what has to come next. -/
structure Assembly where
  frames : List Frame := []
  expected : Expected := .value
  deriving Repr

namespace Assembly

/-- Adds a complete value to the innermost open array or object. -/
def add (frames : List Frame) (v : Value) : Assembly :=
  match frames with
  | [] => ⟨[], .nothing v⟩
  | .array items :: rest => ⟨.array (v :: items) :: rest, .separator⟩
  | .object members name :: rest => ⟨.object ((name, v) :: members) name :: rest, .separator⟩

/-- A token where a value has to begin. -/
def begin? (frames : List Frame) : Token → Option Assembly
  | .null => some (add frames .null)
  | .bool b => some (add frames (.bool b))
  | .natural n => some (add frames (.natural n))
  | .real => some (add frames .real)
  | .text s => some (add frames (.text s))
  | .openArray => some ⟨.array [] :: frames, .item⟩
  | .openObject => some ⟨frames, .name [] true⟩
  | _ => none

/-- Reads one token. -/
def step? (a : Assembly) (t : Token) : Option Assembly :=
  match a.expected with
  | .value => begin? a.frames t
  | .item =>
    match t, a.frames with
    | .closeArray, .array items :: rest => some (add rest (.array items.reverse))
    | t, frames => begin? frames t
  | .name members mayClose =>
    match t with
    | .text name => some ⟨.object members name :: a.frames, .colon⟩
    | .closeObject => if mayClose then some (add a.frames (.object members.reverse)) else none
    | _ => none
  | .colon => if t = .colon then some ⟨a.frames, .value⟩ else none
  | .separator =>
    match t, a.frames with
    | .comma, .array items :: rest => some ⟨.array items :: rest, .value⟩
    | .comma, .object members _ :: rest => some ⟨rest, .name members false⟩
    | .closeArray, .array items :: rest => some (add rest (.array items.reverse))
    | .closeObject, .object members _ :: rest => some (add rest (.object members.reverse))
    | _, _ => none
  | .nothing _ => none

/-- The value of a complete document. -/
def finish? (a : Assembly) : Option Value :=
  match a.expected with
  | .nothing result => some result
  | _ => none

end Assembly

/-- The value that a document says, unless the document is malformed. -/
def Value.parse? (s : String) : Option Value :=
  (tokens? s).bind fun tokens => (tokens.foldlM Assembly.step? {}).bind Assembly.finish?

end RecencyCache.Document
