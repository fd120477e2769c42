import RecencyCache.Proofs.Cache.Shows

/-!
# A cursor between its two ends

A cursor that has given entries from either end still spans the records between them. It finds a
node wherever it steps next (`exists_pop?`), and so takes from its two ends, in any order, what one
takes from the ends of the list of the entries that it spans: `popEnds_eq`.
-/
namespace RecencyCache

/-- The ends of an order of recency. -/
inductive End where
  | recent
  | old
  deriving DecidableEq, Repr

namespace End

variable {α : Type}

/-- The element at one end of a list, and the others. -/
def take : End → List α → Option α × List α
  | recent, l => (l.head?, l.tail)
  | old, l => (l.getLast?, l.dropLast)

/-- The elements taken from the ends of a list, one after the other, and what is left of it. -/
def takeAll : List End → List α → List (Option α) × List α
  | [], l => ([], l)
  | e :: ends, l =>
    let (rest, l') := takeAll ends (e.take l).2
    ((e.take l).1 :: rest, l')

end End

namespace Cursor

variable {κ ν : Type}

/-- Takes the entry at one end of those still to come. -/
def pop? (w : Cursor κ ν) : End → Except Fault (Option (Entry κ ν) × Cursor κ ν)
  | .recent => w.popFront?
  | .old => w.popBack?

/-- Takes one entry after the other, each from a given end. -/
def popEnds (w : Cursor κ ν) :
    List End → Except Fault (List (Option (Entry κ ν)) × Cursor κ ν)
  | [] => pure ([], w)
  | e :: ends => do
    let (found, w) ← w.pop? e
    let (rest, w) ← w.popEnds ends
    pure (found :: rest, w)

/-- A cursor with nothing to come stays where it is. -/
theorem pop?_of_spans_nil {w : Cursor κ ν} {nodes : Strand.Nodes κ ν} {s : Shelf κ ν}
    {newer older : List (Held κ ν)} (sp : w.Spans nodes s newer [] older) (e : End) :
    w.pop? e = .ok (none, w) := by
  have hr : w.remaining = 0 := sp.remaining
  cases e <;> simp [pop?, popFront?, popBack?, hr]

end Cursor

namespace Cache.Shows

variable {κ ν : Type} [BEq κ] {c : Cache κ ν} {s : Shelf κ ν} {w : Cursor κ ν}
  {newer l older : List (Held κ ν)}

/-- **One step.** A cursor takes the entry at the end of the records that it spans, and spans the
others afterwards. -/
theorem exists_pop? (sh : c.Shows s) (sp : w.Spans c.nodes s newer l older) (e : End) :
    ∃ w' newer' l' older', w.pop? e = .ok ((e.take (l.map Held.entry)).1, w') ∧
      w'.Spans c.nodes s newer' l' older' ∧
      l'.map Held.entry = (e.take (l.map Held.entry)).2 := by
  cases e with
  | recent =>
    cases l with
    | nil => exact ⟨w, newer, [], older, Cursor.pop?_of_spans_nil sp .recent, sp, rfl⟩
    | cons h l =>
      obtain ⟨w', hw', sp'⟩ := sh.exists_popFront? sp
      exact ⟨w', newer ++ [h], l, older, hw', sp', rfl⟩
  | old =>
    rcases List.eq_nil_or_concat' l with rfl | ⟨l, h, rfl⟩
    · exact ⟨w, newer, [], older, Cursor.pop?_of_spans_nil sp .old, sp, rfl⟩
    · obtain ⟨w', hw', sp'⟩ := sh.exists_popBack? sp
      exact ⟨w', newer, l, h :: older, by simpa [End.take, Cursor.pop?] using hw', sp',
        by simp [End.take]⟩

/-- **Both ends.** Entries taken from the ends of a cursor, in any order, are those at the ends of
the list of the entries that it spans. -/
theorem popEnds_eq (sh : c.Shows s) (sp : w.Spans c.nodes s newer l older) (ends : List End) :
    ∃ w' newer' l' older',
      w.popEnds ends = .ok ((End.takeAll ends (l.map Held.entry)).1, w') ∧
      w'.Spans c.nodes s newer' l' older' ∧
      l'.map Held.entry = (End.takeAll ends (l.map Held.entry)).2 := by
  induction ends generalizing w newer l older with
  | nil => exact ⟨w, newer, l, older, rfl, sp, rfl⟩
  | cons e ends ih =>
    obtain ⟨w₁, newer₁, l₁, older₁, hw₁, sp₁, hl₁⟩ := sh.exists_pop? sp e
    obtain ⟨w', newer', l', older', hw', sp', hl'⟩ := ih sp₁
    rw [hl₁] at hw' hl'
    refine ⟨w', newer', l', older', ?_, sp', hl'⟩
    simp only [Cursor.popEnds, hw₁, hw', End.takeAll, Fault.ok_bind, Fault.pure_eq]

end Cache.Shows
end RecencyCache
