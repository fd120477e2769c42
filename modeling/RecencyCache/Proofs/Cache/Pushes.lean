import RecencyCache.Proofs.Roster.Change
import RecencyCache.Proofs.Roster.Pushes

/-!
# The pushes of a run

`runLogged` runs operations and logs every push that went through, with its time. What a cache holds
then are last pushes in that log, in its order: `Shows.exists_runLogged`.
-/
namespace RecencyCache.Cache

variable {κ ν : Type} [BEq κ] [Inhabited ν]

/-- The entry that an operation pushes if it is not refused: the given one, or a default value for
an absent key. -/
def offered? (c : Cache κ ν) : Op κ ν → Except Fault (Option (Entry κ ν))
  | .command (.push _ e) => pure (some e)
  | .command (.ensure k) | .command (.ensureWrite k _) => do
    pure (if ← c.contains k then none else some ⟨k, default⟩)
  | _ => pure none

/-- The push that an operation with this answer was. -/
def pushed? (c : Cache κ ν) (op : Op κ ν) (answer : Answer κ ν) :
    Except Fault (Option (Record κ ν)) := do
  let offered ← c.offered? op
  pure (if answer.isRefused then none else offered.map (⟨·, c.clock.now⟩))

/-- The log after some operations, newest push first, if it was `log` before them, and the cache
after them. -/
def runLogged (c : Cache κ ν) (log : List (Record κ ν)) :
    List (Op κ ν) → Except Fault (List (Record κ ν) × Cache κ ν)
  | [] => pure (log, c)
  | op :: ops => do
    let (answer, c') ← c.perform op
    let pushed ← c.pushed? op answer
    c'.runLogged (pushed.toList ++ log) ops

namespace Shows

variable [EquivBEq κ] {c : Cache κ ν} {s : Shelf κ ν} {log : List (Record κ ν)}

theorem offered?_eq (sh : c.Shows s) (op : Op κ ν) :
    c.offered? op = .ok (s.roster.offered? op) := by
  cases op with
  | query q => rfl
  | command m =>
    cases m with
    | ensure k | ensureWrite k v =>
      rw [offered?, sh.contains_eq, Roster.offered?, Shelf.find?_roster, Option.isSome_map]
      rfl
    | _ => rfl

theorem pushed?_eq (sh : c.Shows s) (op : Op κ ν) : c.pushed? op (s.perform op).1 =
    .ok (s.roster.pushed? op (s.roster.perform (s.target? op) op).1) := by
  rw [pushed?, sh.offered?_eq, Fault.ok_bind, sh.clock]
  cases op with
  | query q => simp [Roster.pushed?, Roster.offered?]
  | command m =>
    have hrefused : ∀ a, ((s.apply m).2.shown a).isRefused = a.isRefused := fun a => by
      cases a <;> rfl
    simp only [Roster.pushed?, Roster.perform, Shelf.roster_apply sh.inv, hrefused]
    rfl

/-- **A run.** It goes through, and what is held then are last pushes of the log. -/
theorem exists_runLogged (sh : c.Shows s) (h : s.roster.Logged log) (ops : List (Op κ ν)) :
    ∃ log' c', c.runLogged log ops = .ok (log', c') ∧ c'.Shows (s.run ops).2 ∧
      (s.run ops).2.roster.Logged log' ∧ s.roster.Changes (s.run ops).2.roster := by
  induction ops generalizing c s log with
  | nil => exact ⟨log, c, rfl, sh, h, .refl⟩
  | cons op ops ih =>
    obtain ⟨c₁, hc₁, sh₁⟩ := sh.follows_perform op
    have hlogged := Roster.logged_perform h (Roster.distinct_roster sh.inv) (s.target? op) op
    have hchanges := s.roster.changes_perform (s.target? op) op
    have hpushed := sh.pushed?_eq op
    rw [Shelf.roster_perform sh.inv] at hlogged hchanges hpushed
    obtain ⟨log', c', hrun, sh', hlogged', hchanges'⟩ := ih sh₁ hlogged
    refine ⟨log', c', ?_, sh', hlogged', hchanges.trans hchanges'⟩
    simp only [runLogged, hc₁, hpushed, Fault.ok_bind]
    exact hrun

end Shows
end RecencyCache.Cache
