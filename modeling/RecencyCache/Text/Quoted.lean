/-!
# Quoted text

Text between double quotes. The quote, the backslash and the four control characters that have a
short name are written with a backslash; every other character stands for itself.
-/
namespace RecencyCache.Text

/-- The written form of one character of a quoted text. -/
def escape : Char → List Char
  | '"' => ['\\', '"']
  | '\\' => ['\\', '\\']
  | '\n' => ['\\', 'n']
  | '\t' => ['\\', 't']
  | '\r' => ['\\', 'r']
  | '\x00' => ['\\', '0']
  | c => [c]

/-- The text between double quotes, with its special characters escaped. -/
def quote (s : String) : String :=
  String.ofList ('"' :: s.toList.flatMap escape ++ ['"'])

end RecencyCache.Text
