/-!
# Numerals

Reading a 64-bit word from decimal text, and writing one in hexadecimal. A decimal numeral is one or
more of the ASCII digits, after an optional `+`; leading zeros are allowed, blanks and a `-` are
not. A numeral above `2 ^ 64 - 1` is refused.
-/
namespace RecencyCache.Text

/-- The value of an ASCII digit. -/
def digit? (c : Char) : Option Nat :=
  if '0' ≤ c ∧ c ≤ '9' then some (c.toNat - '0'.toNat) else none

/-- The number that goes on with the digits `cs` after `acc`, if `cs` holds digits only. -/
def digitsFrom? (acc : Nat) : List Char → Option Nat
  | [] => some acc
  | c :: cs => (digit? c).bind fun d => digitsFrom? (acc * 10 + d) cs

/-- The number written by one or more digits. -/
def natural? : List Char → Option Nat
  | [] => none
  | cs => digitsFrom? 0 cs

/-- A number as a word, if it fits one. -/
def word? (n : Nat) : Option UInt64 :=
  if n < UInt64.size then some (UInt64.ofNat n) else none

/-- The word that a decimal numeral denotes. -/
def decimalWord? (s : String) : Option UInt64 :=
  (match s.toList with
    | '+' :: cs => natural? cs
    | cs => natural? cs).bind word?

/-- The lower-case hexadecimal digit of a value below sixteen. -/
def hexDigit (n : Nat) : Char :=
  if n < 10 then Char.ofNat ('0'.toNat + n) else Char.ofNat ('a'.toNat + n - 10)

/-- A word as its sixteen hexadecimal digits. -/
def hexWord (w : UInt64) : String :=
  String.ofList ((List.range 16).map fun i =>
    hexDigit ((w >>> (4 * UInt64.ofNat (15 - i))).toNat % 16))

theorem word?_eq_some_iff {n : Nat} {w : UInt64} : word? n = some w ↔ w.toNat = n := by
  unfold word?
  constructor
  · intro h
    split at h
    · rename_i hn
      cases h
      exact UInt64.toNat_ofNat_of_lt' hn
    · cases h
  · rintro rfl
    rw [if_pos w.toNat_lt, UInt64.ofNat_toNat]

end RecencyCache.Text
