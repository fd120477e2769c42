/-!
# Text compared without case

Text that keeps the spelling it was given, but counts as equal to every text that differs from it in
the case of ASCII letters only. All other characters are compared as they are.
-/
namespace RecencyCache

/-- Text whose ASCII letters compare without case. -/
structure Caseless where
  text : String
  deriving Repr, Inhabited

namespace Caseless

/-- The spelling in which the ASCII letters are lower case. -/
def folded (t : Caseless) : String := t.text.map Char.toLower

instance : BEq Caseless where
  beq a b := a.folded == b.folded

theorem beq_iff {a b : Caseless} : (a == b) = true ↔ a.folded = b.folded :=
  show (a.folded == b.folded) = true ↔ _ from beq_iff_eq

instance : EquivBEq Caseless where
  rfl := beq_iff.2 rfl
  symm h := beq_iff.2 (beq_iff.1 h).symm
  trans h₁ h₂ := beq_iff.2 ((beq_iff.1 h₁).trans (beq_iff.1 h₂))

end Caseless
end RecencyCache
