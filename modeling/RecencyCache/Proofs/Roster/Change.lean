import Mathlib.Logic.Relation
import RecencyCache.Proofs.Roster.Refinement

/-!
# Changes of a roster

Every operation on a roster is at most two of eleven elementary changes, one after the other
(`changes_perform`): a push refreshes, displaces or inserts, records leave in three ways, a value is
overwritten, and four parameters can be set. Only `limitNodes` touches the limit
(`steadyChanges_perform`). So what holds of every new roster and is kept by every elementary change
holds of the records of every reachable cache: `Reachable.exists_shows_roster`.
-/
namespace RecencyCache

namespace Roster

variable {κ ν : Type} [BEq κ]

/-- An elementary change. -/
inductive Change (r : Roster κ ν) : Roster κ ν → Prop
  /-- A push finds its key. -/
  | refresh (e : Entry κ ν) (hfind : (r.find? e.key).isSome) :
    Change r ({ r with records := r.stamped e :: r.without e.key }.count .refresh)
  /-- A push does not find its key, and the oldest record leaves. -/
  | displace (e : Entry κ ν) (hfind : r.find? e.key = none) (hfull : r.full = true) :
    Change r (({ r with records := r.stamped e :: r.records.dropLast }.count .eviction).count
      .insertion)
  /-- A push does not find its key, and nothing has to leave. -/
  | insert (e : Entry κ ν) (hfind : r.find? e.key = none) (hfull : r.full = false)
    (hlimit : r.limit.filter (· ≤ r.size) = none) :
    Change r ({ r with records := r.stamped e :: r.records }.count .insertion)
  | evict (l : List (Record κ ν)) (x : Record κ ν) (h : r.records = l ++ [x]) :
    Change r ({ r with records := l }.count .eviction)
  | remove (k : κ) : Change r ({ r with records := r.without k }.count .removal)
  | clear : Change r { r with records := [] }
  | overwrite (k : κ) (v : ν) : Change r { r with records := r.records.map fun y =>
      if y.entry.key == k then { y with entry.value := v } else y }
  | setCapacity (n : Nat) : Change r (r.setCapacity n).2
  | setWindow (d : Duration) : Change r (r.setWindow d).2
  | limitNodes (n : Nat) : Change r { r with limit := some n }
  | advance (d : Duration) : Change r { r with clock := r.clock.advance d }

/-- Any number of elementary changes. -/
abbrev Changes : Roster κ ν → Roster κ ν → Prop := Relation.ReflTransGen Change

/-- Any number of elementary changes that leave the limit as it is. -/
abbrev SteadyChanges : Roster κ ν → Roster κ ν → Prop :=
  Relation.ReflTransGen fun r r' => r.Change r' ∧ r'.limit = r.limit

variable {r r' : Roster κ ν} {P : Roster κ ν → Prop}

theorem Change.changes (h : r.Change r') : r.Changes r' := Relation.ReflTransGen.single h

theorem Change.steady (h : r.Change r') (hl : r'.limit = r.limit) : r.SteadyChanges r' :=
  Relation.ReflTransGen.single ⟨h, hl⟩

theorem SteadyChanges.changes (h : r.SteadyChanges r') : r.Changes r' :=
  Relation.ReflTransGen.mono (fun _ _ => And.left) _ _ h

/-- What every change keeps, any number of changes keeps. -/
theorem Changes.keeps (h : r.Changes r') (hchange : ∀ r r', r.Change r' → P r → P r')
    (hr : P r) : P r' := by
  induction h with
  | refl => exact hr
  | tail _ hlast ih => exact hchange _ _ hlast ih

theorem SteadyChanges.keeps (h : r.SteadyChanges r')
    (hchange : ∀ r r', r.Change r' → r'.limit = r.limit → P r → P r') (hr : P r) : P r' := by
  induction h with
  | refl => exact hr
  | tail _ hlast ih => exact hchange _ _ hlast.1 hlast.2 ih

variable (r)

theorem steadyChanges_push (e : Entry κ ν) : r.SteadyChanges (r.push e).2 := by
  unfold push
  split
  · rename_i hfind
    exact (Change.refresh e hfind).steady rfl
  · rename_i hfind
    rw [Option.not_isSome_iff_eq_none] at hfind
    split
    · rename_i hfull
      exact (Change.displace e hfind hfull).steady rfl
    · rename_i hfull
      split
      · exact .refl
      · rename_i hlimit
        exact (Change.insert e hfind (eq_false_of_ne_true hfull) hlimit).steady rfl

theorem steadyChanges_pop : r.SteadyChanges r.pop.2 := by
  unfold pop
  split
  · exact .refl
  · rename_i x ho
    obtain ⟨l, hl⟩ := List.getLast?_eq_some_iff.1 ho
    rw [hl, List.dropLast_concat]
    exact (Change.evict l x hl).steady rfl

theorem steadyChanges_take (k : κ) : r.SteadyChanges (r.take k).2 := by
  unfold take
  split
  · exact (Change.remove k).steady rfl
  · exact .refl

theorem steadyChanges_erase (k : κ) : r.SteadyChanges (r.erase k).2 := by
  unfold erase
  split
  · exact (Change.remove k).steady rfl
  · exact .refl

theorem steadyChanges_write? (k : κ) (v : ν) : r.SteadyChanges (r.write? k v).2 := by
  unfold write?
  split
  · exact (Change.overwrite k v).steady rfl
  · exact .refl

variable [Inhabited ν]

theorem steadyChanges_ensure (k : κ) : r.SteadyChanges (r.ensure k).2 := by
  unfold ensure
  split
  · exact .refl
  · exact steadyChanges_push r ⟨k, default⟩

theorem steadyChanges_apply (target : Option (Entry κ ν)) (m : Command κ ν)
    (hm : ∀ n, m = .limitNodes n → r.limit = some n) : r.SteadyChanges (r.apply target m).2 := by
  cases m with
  | push hint e => exact steadyChanges_push r e
  | pop => exact steadyChanges_pop r
  | take k | takeValue k => exact steadyChanges_take r k
  | erase k => exact steadyChanges_erase r k
  | eraseAt pos =>
    cases target with
    | none => exact .refl
    | some e => exact steadyChanges_erase r e.key
  | clear => exact Change.clear.steady rfl
  | setCapacity n => exact (Change.setCapacity n).steady rfl
  | limitNodes n => exact (Change.limitNodes n).steady (hm n rfl).symm
  | setWindow d => exact (Change.setWindow d).steady rfl
  | writeIfPresent k v | write k v => exact steadyChanges_write? r k v
  | ensure k => exact steadyChanges_ensure r k
  | ensureWrite k v =>
    have hensure := steadyChanges_ensure r k
    simp only [apply]
    split <;> rename_i heq <;> rw [heq] at hensure
    · exact hensure.trans (steadyChanges_write? _ k v)
    · exact hensure
  | advance d => exact (Change.advance d).steady rfl

/-- An operation leaves the limit as it is, unless it sets another one. -/
theorem steadyChanges_perform (target : Option (Entry κ ν)) (op : Op κ ν)
    (hop : ∀ n, op = .command (.limitNodes n) → r.limit = some n) :
    r.SteadyChanges (r.perform target op).2 := by
  cases op with
  | query q => exact .refl
  | command m => exact steadyChanges_apply r target m fun n hm => hop n (congrArg _ hm)

theorem changes_perform (target : Option (Entry κ ν)) (op : Op κ ν) :
    r.Changes (r.perform target op).2 := by
  by_cases hop : ∃ n, op = .command (.limitNodes n)
  · obtain ⟨n, rfl⟩ := hop
    exact (Change.limitNodes n).changes
  · exact (steadyChanges_perform r target op fun n hn => absurd ⟨n, hn⟩ hop).changes

end Roster

section Shelf

variable {κ ν : Type} [BEq κ] [EquivBEq κ] [Inhabited ν] {s : Shelf κ ν}

theorem Shelf.changes_roster (inv : s.Inv) (op : Op κ ν) :
    s.roster.Changes (s.perform op).2.roster := by
  have hchanges := s.roster.changes_perform (s.target? op) op
  rwa [Shelf.roster_perform inv] at hchanges

theorem Shelf.steadyChanges_roster (inv : s.Inv) (op : Op κ ν)
    (hop : ∀ n, op = .command (.limitNodes n) → s.limit = some n) :
    s.roster.SteadyChanges (s.perform op).2.roster := by
  have hchanges := s.roster.steadyChanges_perform (s.target? op) op hop
  rwa [Shelf.roster_perform inv] at hchanges

end Shelf

/-- **Induction on the changes.** What holds of new rosters and is kept by every elementary change
holds of the records that a reachable cache shows. -/
theorem Cache.Reachable.exists_shows_roster {κ ν : Type} [BEq κ] [EquivBEq κ] [Inhabited ν]
    {hash : κ → UInt64} {c : Cache κ ν} {P : Roster κ ν → Prop}
    (hnew : ∀ capacity policy clock, P { capacity, policy, clock })
    (hchange : ∀ r r', r.Change r' → P r → P r') (h : c.Reachable hash) (ha : Agrees hash) :
    ∃ s, c.Shows s ∧ P s.roster := by
  refine h.exists_shows_of (P := fun s => P s.roster) (fun capacity _ policy clock => ?_)
    (fun s op inv hs => ?_) ha
  · exact hnew capacity policy clock
  · exact (Shelf.changes_roster inv op).keeps hchange hs

end RecencyCache
