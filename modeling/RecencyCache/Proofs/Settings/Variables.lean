import RecencyCache.Proofs.Text.Numeral
import RecencyCache.Settings.Document
import RecencyCache.Settings.Variables

/-!
# Each variable sets its own parameter

`Holds lookup f w` says that the variable of parameter `f` is set to a decimal numeral of the word
`w`. A parameter whose variable holds a word is that word; any other one is at its default; and the
variables of the other parameters have no part in it. So all settings come back from the decimal
forms of their parameters, with zeros or a `+` in front of them or not: `ofVariables_exact`.
-/
namespace RecencyCache.Settings

/-- The variable of a parameter. -/
def Field.variableName : Field → String
  | .capacity => capacityVariable
  | .chainCount => chainCountVariable
  | .windowMillis => windowVariable
  | .nodeLimit => nodeLimitVariable

/-- The word of a parameter. Only the node limit may have none. -/
def word? (s : Settings) : Field → Option UInt64
  | .capacity => some s.capacity
  | .chainCount => some s.chainCount
  | .windowMillis => some s.windowMillis
  | .nodeLimit => s.nodeLimit

/-- The variable of parameter `f` is set to a decimal numeral of `w`. -/
def Holds (lookup : String → Option String) (f : Field) (w : UInt64) : Prop :=
  ∃ text, lookup f.variableName = some text ∧ Text.Writes text w.toNat

/-- Variables that hold a word for each parameter, in a form of its own. A parameter without a word
leaves its variable unset. -/
def renderings (words : Field → Option UInt64) (plus : Field → Bool) (zeros : Field → Nat)
    (name : String) : Option String :=
  (Field.all.find? (·.variableName == name)).bind fun f =>
    (words f).map fun w => Text.rendering (plus f) (zeros f) w.toNat

variable {lookup : String → Option String} {f : Field} {s t : Settings} {w : UInt64}

/-- Settings are their four parameters. -/
theorem eq_of_word? (h : ∀ f, s.word? f = t.word? f) : s = t := by
  ext1
  · exact Option.some.inj (h .capacity)
  · exact Option.some.inj (h .chainCount)
  · exact Option.some.inj (h .windowMillis)
  · exact h .nodeLimit

/-! ## One variable -/

theorem word?_ofVariables (lookup : String → Option String) (f : Field) :
    (ofVariables lookup).word? f = (wordIn? lookup f.variableName).or (word? {} f) := by
  have hgetD : ∀ (o : Option UInt64) (d : UInt64), some (o.getD d) = o.or (some d) := by
    intro o d
    cases o <;> rfl
  cases f with
  | capacity | chainCount | windowMillis => exact hgetD _ _
  | nodeLimit => exact (Option.or_none ..).symm

theorem wordIn?_eq_some_iff : wordIn? lookup f.variableName = some w ↔ Holds lookup f w := by
  simp only [wordIn?, Option.bind_eq_some_iff, Text.decimalWord?_eq_some_iff, Holds]

theorem wordIn?_eq_none_iff : wordIn? lookup f.variableName = none ↔ ∀ w, ¬Holds lookup f w := by
  simp only [← wordIn?_eq_some_iff, Option.eq_none_iff_forall_ne_some, ne_eq]

theorem word?_of_holds (h : Holds lookup f w) : (ofVariables lookup).word? f = some w := by
  rw [word?_ofVariables, wordIn?_eq_some_iff.2 h, Option.some_or]

theorem word?_of_not_holds (h : ∀ w, ¬Holds lookup f w) :
    (ofVariables lookup).word? f = word? {} f := by
  rw [word?_ofVariables, wordIn?_eq_none_iff.2 h, Option.none_or]

theorem word?_of_unset (h : lookup f.variableName = none) :
    (ofVariables lookup).word? f = word? {} f := by
  refine word?_of_not_holds ?_
  rintro w ⟨text, htext, -⟩
  rw [h] at htext
  cases htext

/-! ## All variables -/

section Renderings

variable (words : Field → Option UInt64) (plus : Field → Bool) (zeros : Field → Nat)

/-- No two parameters share a variable. -/
theorem renderings_variableName (f : Field) : renderings words plus zeros f.variableName =
    (words f).map fun w => Text.rendering (plus f) (zeros f) w.toNat := by
  have hfind : Field.all.find? (·.variableName == f.variableName) = some f := by
    cases f <;> decide
  rw [renderings, hfind, Option.bind_some]

/-- The parameters that were given a word have it, and the others are at their defaults. -/
theorem word?_renderings (f : Field) :
    (ofVariables (renderings words plus zeros)).word? f = (words f).or (word? {} f) := by
  have htext := renderings_variableName words plus zeros f
  cases hw : words f with
  | none =>
    rw [hw] at htext
    exact word?_of_unset htext
  | some w =>
    rw [hw] at htext
    exact word?_of_holds ⟨_, htext, Text.writes_rendering _ _ _⟩

theorem ofVariables_renderings (s : Settings) :
    ofVariables (renderings s.word? plus zeros) = s := by
  refine eq_of_word? fun f => ?_
  rw [word?_renderings]
  cases f with
  | capacity | chainCount | windowMillis => rfl
  | nodeLimit => exact Option.or_none ..

end Renderings

/-- **Settings from variables.** Each parameter is the exact value of its own variable if that holds
a word, and at its default otherwise. Settings whose parameters are written to the variables are
read back. -/
theorem ofVariables_exact :
    (∀ lookup f, (∀ w, Holds lookup f w → (ofVariables lookup).word? f = some w) ∧
      ((∀ w, ¬Holds lookup f w) → (ofVariables lookup).word? f = word? {} f)) ∧
    ∀ (s : Settings) plus zeros, ofVariables (renderings s.word? plus zeros) = s :=
  ⟨fun _ _ => ⟨fun _ => word?_of_holds, word?_of_not_holds⟩,
    fun s plus zeros => ofVariables_renderings plus zeros s⟩

/-- The largest word is read, also with a sign and zeros; a number above it and a digit of another
script are not. -/
theorem ofVariables_exact_of_extremes :
    let lookup : String → Option String := fun name =>
      [("LRU_MAX_SIZE", "+0018446744073709551615"), ("LRU_BUCKET_COUNT", "18446744073709551616"),
        ("LRU_EXPIRE_MS", "٣")].lookup name
    (Holds lookup .capacity 18446744073709551615 ∧ (∀ w, ¬Holds lookup .chainCount w) ∧
      (∀ w, ¬Holds lookup .windowMillis w) ∧ ∀ w, ¬Holds lookup .nodeLimit w) ∧
    (ofVariables lookup).word? .capacity = some 18446744073709551615 ∧
      (ofVariables lookup).word? .chainCount = some 32 ∧
      (ofVariables lookup).word? .windowMillis = some 60000 ∧
      (ofVariables lookup).word? .nodeLimit = none := by
  intro lookup
  have hcapacity : Holds lookup .capacity 18446744073709551615 :=
    wordIn?_eq_some_iff.1 (by decide)
  have hchainCount : ∀ w, ¬Holds lookup .chainCount w := wordIn?_eq_none_iff.1 (by decide)
  have hwindow : ∀ w, ¬Holds lookup .windowMillis w := wordIn?_eq_none_iff.1 (by decide)
  have hlimit : ∀ w, ¬Holds lookup .nodeLimit w := wordIn?_eq_none_iff.1 (by decide)
  have hexact := ofVariables_exact.1 lookup
  exact ⟨⟨hcapacity, hchainCount, hwindow, hlimit⟩, (hexact .capacity).1 _ hcapacity,
    (hexact .chainCount).2 hchainCount, (hexact .windowMillis).2 hwindow,
    (hexact .nodeLimit).2 hlimit⟩

end RecencyCache.Settings
