import RecencyCache.Text.Numeral

/-!
# Which texts write a word

`Writes s n` says what a decimal numeral is without reading it: ASCII digits after an optional `+`,
and `n` is their value in the positional system. Reading accepts exactly the numerals of 64-bit
words, and answers their values: `decimalWord?_eq_some_iff`. Among the numerals of a number are its
plain decimal form, and that form with a `+` or with zeros in front: `writes_rendering`.
-/
namespace RecencyCache.Text

/-- The characters `cs` are one or more ASCII digits, and `n` is their value. -/
structure Digits (cs : List Char) (n : Nat) : Prop where
  ne_nil : cs ≠ []
  isDigit : ∀ c ∈ cs, c.isDigit
  value : Nat.ofDigitChars 10 cs 0 = n

/-- The text is a decimal numeral of `n`. -/
inductive Writes : String → Nat → Prop
  | plain {cs : List Char} {n : Nat} (h : Digits cs n) : Writes (String.ofList cs) n
  | plus {cs : List Char} {n : Nat} (h : Digits cs n) : Writes (String.ofList ('+' :: cs)) n

/-- The decimal form of `n` after a number of zeros, and after a `+` if one is wanted. -/
def rendering (plus : Bool) (zeros n : Nat) : String :=
  (if plus then "+" else "") ++ String.ofList (List.replicate zeros '0') ++ toString n

variable {c : Char} {cs : List Char} {s : String} {acc d n : Nat} {w : UInt64}

/-! ## Reading -/

theorem digit?_eq_some_iff : digit? c = some d ↔ c.isDigit ∧ c.toNat - '0'.toNat = d := by
  have hdigit : c.isDigit ↔ '0' ≤ c ∧ c ≤ '9' := by
    simp [Char.isDigit, Char.le_def]
  unfold digit?
  split
  · rename_i hc
    simp [hdigit.2 hc]
  · rename_i hc
    simp [hdigit, hc]

/-- The value so far moves up by one place with each digit. -/
theorem digitsFrom?_eq_some_iff :
    digitsFrom? acc cs = some n ↔ (∀ c ∈ cs, c.isDigit) ∧ Nat.ofDigitChars 10 cs acc = n := by
  induction cs generalizing acc with
  | nil => simp [digitsFrom?]
  | cons c cs ih =>
    rw [digitsFrom?, Option.bind_eq_some_iff, Nat.ofDigitChars_cons, List.forall_mem_cons,
      Nat.mul_comm 10 acc]
    constructor
    · rintro ⟨d, hd, hrest⟩
      obtain ⟨hc, rfl⟩ := digit?_eq_some_iff.1 hd
      obtain ⟨hcs, hn⟩ := ih.1 hrest
      exact ⟨⟨hc, hcs⟩, hn⟩
    · rintro ⟨⟨hc, hcs⟩, hn⟩
      exact ⟨_, digit?_eq_some_iff.2 ⟨hc, rfl⟩, ih.2 ⟨hcs, hn⟩⟩

theorem natural?_eq_some_iff : natural? cs = some n ↔ Digits cs n := by
  cases cs with
  | nil => exact ⟨fun h => absurd h.symm (Option.some_ne_none n), fun h => absurd rfl h.ne_nil⟩
  | cons c cs =>
    refine digitsFrom?_eq_some_iff.trans ⟨?_, fun h => ⟨h.isDigit, h.value⟩⟩
    rintro ⟨hdigit, hvalue⟩
    exact ⟨List.cons_ne_nil c cs, hdigit, hvalue⟩

/-- **Reading a word.** -/
theorem decimalWord?_eq_some_iff : decimalWord? s = some w ↔ Writes s w.toNat := by
  simp only [decimalWord?, Option.bind_eq_some_iff, word?_eq_some_iff]
  constructor
  · rintro ⟨n, hn, rfl⟩
    split at hn
    · rename_i cs hs
      rw [← String.ofList_toList (s := s), hs]
      exact .plus (natural?_eq_some_iff.1 hn)
    · rw [← String.ofList_toList (s := s)]
      exact .plain (natural?_eq_some_iff.1 hn)
  · intro h
    refine ⟨_, ?_, rfl⟩
    generalize w.toNat = n at h
    cases h with
    | plus h => simpa using natural?_eq_some_iff.2 h
    | plain h =>
      rw [String.toList_ofList]
      split
      · -- a `+` is no digit
        exact absurd (h.isDigit '+' List.mem_cons_self) (by decide)
      · exact natural?_eq_some_iff.2 h

/-! ## Writing -/

/-- The decimal form of a number, zeros in front of it or not. -/
theorem digits_replicate_append (zeros n : Nat) :
    Digits (List.replicate zeros '0' ++ Nat.toDigits 10 n) n where
  ne_nil := List.append_ne_nil_of_right_ne_nil _ Nat.toDigits_ne_nil
  isDigit c hc := by
    rcases List.mem_append.1 hc with hc | hc
    · rw [List.eq_of_mem_replicate hc]
      rfl
    · exact Nat.isDigit_of_mem_toDigits (by decide) (by decide) hc
  value := by
    rw [Nat.ofDigitChars_append, Nat.ofDigitChars_replicate_zero, Nat.mul_zero,
      Nat.ofDigitChars_ten_toDigits]

theorem writes_rendering (plus : Bool) (zeros n : Nat) : Writes (rendering plus zeros n) n := by
  have hdigits := digits_replicate_append zeros n
  cases plus with
  | true =>
    have htext : rendering true zeros n =
        String.ofList ('+' :: (List.replicate zeros '0' ++ Nat.toDigits 10 n)) := by
      apply String.toList_injective
      simp [rendering]
    rw [htext]
    exact .plus hdigits
  | false =>
    have htext : rendering false zeros n =
        String.ofList (List.replicate zeros '0' ++ Nat.toDigits 10 n) := by
      apply String.toList_injective
      simp [rendering]
    rw [htext]
    exact .plain hdigits

end RecencyCache.Text
