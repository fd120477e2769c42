import RecencyCache.Text.Numeral
/-!
# Tokens of a document

A document is text in the JSON format. It is read one character at a time into tokens: brackets,
colons, commas, the three words, numbers and texts. Blanks between tokens are the space, the tab,
the line feed and the carriage return. A number has no leading zeros, at least one digit after a
point and at least one in an exponent. A text holds no control characters; its escapes are the
short ones and `\u` with four hexadecimal digits.
-/
namespace RecencyCache.Document

/-- The smallest meaningful part of a document. -/
inductive Token where
  | openObject
  | closeObject
  | openArray
  | closeArray
  | colon
  | comma
  | null
  | bool (b : Bool)
  /-- A number without a sign, a point or an exponent. -/
  | natural (n : Nat)
  /-- Any other number. -/
  | real
  /-- A text; `none` if it holds one half of a surrogate pair without the other. -/
  | text (s : Option String)
  deriving DecidableEq, Repr

/-! ## Texts -/

/-- The characters that a list of code points and UTF-16 surrogates stands for. Surrogates have to
come in pairs, a high one and then a low one. -/
def decodeUnits : List Nat → Option (List Char)
  | [] => some []
  | [u] => if 0xD800 ≤ u ∧ u < 0xE000 then none else some [Char.ofNat u]
  | u :: v :: rest =>
    if 0xD800 ≤ u ∧ u < 0xDC00 then
      if 0xDC00 ≤ v ∧ v < 0xE000 then
        (decodeUnits rest).map (Char.ofNat (0x10000 + (u - 0xD800) * 0x400 + (v - 0xDC00)) :: ·)
      else none
    else if 0xDC00 ≤ u ∧ u < 0xE000 then none
    else (decodeUnits (v :: rest)).map (Char.ofNat u :: ·)

/-- The code point of a short escape, given the character after the backslash. -/
def shortEscape? : Char → Option Nat
  | '"' => some 0x22
  | '\\' => some 0x5C
  | '/' => some 0x2F
  | 'b' => some 0x08
  | 'f' => some 0x0C
  | 'n' => some 0x0A
  | 'r' => some 0x0D
  | 't' => some 0x09
  | _ => none

/-- The value of a hexadecimal digit of either case. -/
def hexValue? (c : Char) : Option Nat :=
  if '0' ≤ c ∧ c ≤ '9' then some (c.toNat - '0'.toNat)
  else if 'a' ≤ c ∧ c ≤ 'f' then some (c.toNat - 'a'.toNat + 10)
  else if 'A' ≤ c ∧ c ≤ 'F' then some (c.toNat - 'A'.toNat + 10)
  else none

/-! ## Numbers -/

/-- How much of a number has been read. -/
inductive NumberStage where
  | minus
  | zero (signed : Bool)
  | integer (signed : Bool) (value : Nat)
  | point
  | fraction
  | exponentMark
  | exponentSign
  | exponent
  deriving DecidableEq, Repr

namespace NumberStage

/-- The stage after one more character of the number, if the number goes on with it. -/
def next? (stage : NumberStage) (c : Char) : Option NumberStage :=
  match stage, Text.digit? c with
  | minus, some d => some (if d = 0 then zero true else integer true d)
  | integer signed value, some d => some (integer signed (value * 10 + d))
  | point, some _ | fraction, some _ => some fraction
  | exponentMark, some _ | exponentSign, some _ | exponent, some _ => some exponent
  | zero _, none | integer _ _, none =>
    if c = '.' then some point else if c = 'e' ∨ c = 'E' then some exponentMark else none
  | fraction, none => if c = 'e' ∨ c = 'E' then some exponentMark else none
  | exponentMark, none => if c = '+' ∨ c = '-' then some exponentSign else none
  | _, _ => none

/-- The token of a number that ends at this stage, if it may. -/
def token? : NumberStage → Option Token
  | zero false => some (.natural 0)
  | integer false value => some (.natural value)
  | zero true | integer true _ | fraction | exponent => some .real
  | minus | point | exponentMark | exponentSign => none

end NumberStage

/-! ## Scanning -/

/-- What the scanner is in the middle of. The code points of a text are kept last first. -/
inductive Mode where
  | between
  /-- The characters `rest` are still to come before `token` is complete. -/
  | keyword (rest : List Char) (token : Token)
  | number (stage : NumberStage)
  | text (units : List Nat)
  | escape (units : List Nat)
  /-- An escape by code point that lacks `missing + 1` digits. -/
  | hex (units : List Nat) (missing value : Nat)
  deriving DecidableEq, Repr

/-- The scanner between two characters: what it is in the middle of, and the tokens so far, last
first. -/
structure Scanner where
  mode : Mode := .between
  tokens : List Token := []
  deriving DecidableEq, Repr

namespace Scanner

/-- Adds a token; the scanner is then between tokens. -/
def emit (s : Scanner) (t : Token) : Scanner := ⟨.between, t :: s.tokens⟩

/-- Goes on in another mode. -/
def enter (s : Scanner) (mode : Mode) : Scanner := { s with mode }

/-- Whether a character is a blank between tokens. -/
def isBlank (c : Char) : Bool := c = ' ' || c = '\t' || c = '\n' || c = '\r'

/-- The first character of a token, or a blank. -/
def start? (s : Scanner) (c : Char) : Option Scanner :=
  match c with
  | '{' => some (s.emit .openObject)
  | '}' => some (s.emit .closeObject)
  | '[' => some (s.emit .openArray)
  | ']' => some (s.emit .closeArray)
  | ':' => some (s.emit .colon)
  | ',' => some (s.emit .comma)
  | '"' => some (s.enter (.text []))
  | '-' => some (s.enter (.number .minus))
  | 'n' => some (s.enter (.keyword ['u', 'l', 'l'] .null))
  | 't' => some (s.enter (.keyword ['r', 'u', 'e'] (.bool true)))
  | 'f' => some (s.enter (.keyword ['a', 'l', 's', 'e'] (.bool false)))
  | c =>
    if isBlank c then some (s.enter .between)
    else (Text.digit? c).map fun d =>
      s.enter (.number (if d = 0 then .zero false else .integer false d))

/-- Reads one character. -/
def step? (s : Scanner) (c : Char) : Option Scanner :=
  match s.mode with
  | .between => s.start? c
  | .keyword rest token =>
    match rest with
    | [] => none
    | [d] => if c = d then some (s.emit token) else none
    | d :: rest => if c = d then some (s.enter (.keyword rest token)) else none
  | .number stage =>
    match stage.next? c with
    | some stage => some (s.enter (.number stage))
    | none => stage.token?.bind fun token => (s.emit token).start? c
  | .text units =>
    if c = '"' then some (s.emit (.text ((decodeUnits units.reverse).map String.ofList)))
    else if c = '\\' then some (s.enter (.escape units))
    else if c < ' ' then none
    else some (s.enter (.text (c.toNat :: units)))
  | .escape units =>
    if c = 'u' then some (s.enter (.hex units 3 0))
    else (shortEscape? c).map fun u => s.enter (.text (u :: units))
  | .hex units missing value =>
    (hexValue? c).map fun d =>
      match missing with
      | 0 => s.enter (.text ((value * 16 + d) :: units))
      | missing + 1 => s.enter (.hex units missing (value * 16 + d))

/-- The tokens at the end of the document, first to last. A number may end there; any other token
has to be complete. -/
def finish? (s : Scanner) : Option (List Token) :=
  match s.mode with
  | .between => some s.tokens.reverse
  | .number stage => stage.token?.map fun token => (token :: s.tokens).reverse
  | _ => none

end Scanner

/-- The tokens of a document. -/
def tokens? (s : String) : Option (List Token) :=
  (s.toList.foldlM Scanner.step? {}).bind Scanner.finish?

end RecencyCache.Document
