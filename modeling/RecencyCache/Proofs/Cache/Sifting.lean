import RecencyCache.Proofs.Cache.Staleness
import RecencyCache.Proofs.Shelf.Positions

/-!
# Sifting a cache

A sift walks over a cache by positions, from the newest entry on. Where a test accepts the entry it
erases it and goes on at the position that the removal answers, and otherwise at the position after
it. So it changes the very order that it follows. It still finds every entry once, in that order,
and leaves those that the test did not accept, each at the position it had: `sift_filters`.
-/
namespace RecencyCache

/-- A walk by positions: where it has come to, unless it has ended, and what it found at each
position so far, first found first. -/
structure Sift (κ ν : Type) where
  cache : Cache κ ν
  pos : Option Position
  found : List (Option (Entry κ ν)) := []

namespace Sift

variable {κ ν : Type}

/-- Erases the entry at the position if the test accepts it, passes it otherwise, and goes on behind
it. A walk that has ended stays as it is. -/
def step (test : Entry κ ν → Bool) (w : Sift κ ν) : Except Fault (Sift κ ν) := do
  match w.pos with
  | none => pure w
  | some pos =>
    let e ← w.cache.entryAt? pos
    if e.any test then
      let (next, cache) ← w.cache.eraseAt pos
      pure { cache, pos := next, found := w.found ++ [e] }
    else
      let next ← w.cache.positionAfter? pos
      pure { w with pos := next, found := w.found ++ [e] }

/-- The walk after `n` steps more. -/
def steps (test : Entry κ ν → Bool) : Nat → Sift κ ν → Except Fault (Sift κ ν)
  | 0, w => pure w
  | n + 1, w => do
    let w ← w.step test
    steps test n w

end Sift

namespace Cache

variable {κ ν : Type}

/-- The first `n` steps of a walk from the newest entry on. -/
def sift (c : Cache κ ν) (test : Entry κ ν → Bool) (n : Nat) : Except Fault (Sift κ ν) := do
  let pos ← c.newestPosition?
  Sift.steps test n { cache := c, pos }

/-- A walk over `c` has been at the entries `past`, and those of `ahead` are still to come. -/
structure Sifted [BEq κ] (c : Cache κ ν) (test : Entry κ ν → Bool) (w : Sift κ ν)
    (past ahead : List (Entry κ ν)) : Prop where
  found : w.found = past.map some
  ended : w.pos = none ↔ ahead = []
  entries : w.cache.toList = .ok ((past.filter fun e => !test e) ++ ahead)
  summary : w.cache.summary = { c.summary with
    removals := c.summary.removals + past.countP test
    entries := past.countP (fun e => !test e) + ahead.length }
  /-- An entry that was passed or is still to come has the position that it had before. -/
  keeps : ∀ pos e, c.entryAt? pos = .ok (some e) → test e = false ∨ e ∈ ahead →
    w.cache.entryAt? pos = .ok (some e) ∧ w.cache.position? e.key = .ok (some pos)
  loses : ∀ pos e, c.entryAt? pos = .ok (some e) → test e = true → e ∈ past → w.cache.Stale pos
  untouched : (∀ e ∈ past, test e = false) → w.cache = c
  audit : w.cache.verdict = .ok (.ok ())

end Cache

/-! ## The walk on the shelf -/

namespace Sift

variable {κ ν : Type} [BEq κ]

/-- The invariant of the walk: of the records of `s`, which `c` showed, it has been at those of
`past`, and the shelf `t` has those that it passed and those of `ahead`. -/
structure Going (test : Entry κ ν → Bool) (c : Cache κ ν) (s : Shelf κ ν) (w : Sift κ ν)
    (t : Shelf κ ν) (past ahead : List (Held κ ν)) : Prop where
  start : s.held = past ++ ahead
  shows_cache : w.cache.Shows t
  held : t.held = (past.filter fun h => !test h.entry) ++ ahead
  positionOf : ∀ h ∈ t.held, t.positionOf h = s.positionOf h
  pos : w.pos = ahead.head?.map s.positionOf
  found : w.found = past.map fun h => some h.entry
  tally : t.tally = { s.tally with
    removals := s.tally.removals + past.countP fun h => test h.entry }
  untouched : (∀ h ∈ past, test h.entry = false) → w.cache = c

variable {test : Entry κ ν → Bool} {c : Cache κ ν} {s t : Shelf κ ν} {w : Sift κ ν}
  {past ahead : List (Held κ ν)} {h : Held κ ν}

/-- The position of the walk leads to the next record. -/
theorem Going.at?_eq (g : Going test c s w t past (h :: ahead)) :
    h ∈ t.held ∧ w.pos = some (s.positionOf h) ∧ t.at? (s.positionOf h) = some h := by
  have hh : h ∈ t.held := by
    rw [g.held]
    exact List.mem_append_right _ List.mem_cons_self
  refine ⟨hh, g.pos, ?_⟩
  rw [← g.positionOf h hh]
  exact g.shows_cache.inv.at?_eq_some_iff.2 ⟨hh, rfl⟩

/-- The record behind the next one has the position that it had at the start. -/
theorem Going.after?_eq (g : Going test c s w t past (h :: ahead)) :
    t.after? h = ahead.head? ∧ (t.after? h).map t.positionOf = ahead.head?.map s.positionOf := by
  have hafter : t.after? h = ahead.head? := g.shows_cache.inv.after?_eq g.held
  refine ⟨hafter, ?_⟩
  rw [hafter]
  refine Option.map_congr fun x hx => g.positionOf x ?_
  exact g.shows_cache.inv.mem_of_after? g.at?_eq.1 (hafter.trans hx)

/-- Passing a record. -/
theorem Going.pass (g : Going test c s w t past (h :: ahead)) (ht : test h.entry = false) :
    ∃ w', w.step test = .ok w' ∧ Going test c s w' t (past ++ [h]) ahead := by
  obtain ⟨hh, hpos, hat⟩ := g.at?_eq
  obtain ⟨-, hnext⟩ := g.after?_eq
  refine ⟨{ w with pos := ahead.head?.map s.positionOf, found := w.found ++ [some h.entry] }, ?_,
    ?_⟩
  · simp only [step, hpos, g.shows_cache.entryAt?_eq, g.shows_cache.positionAfter?_eq, hat, ht,
      hnext, Option.map_some, Option.bind_some, Option.any_some, Bool.false_eq_true, if_false,
      Fault.ok_bind, Fault.pure_eq]
  · refine ⟨?_, g.shows_cache, ?_, g.positionOf, rfl, ?_, ?_, fun hall => g.untouched ?_⟩
    · rw [g.start, List.append_assoc, List.singleton_append]
    · rw [g.held, List.filter_append, List.append_assoc]
      simp [ht]
    · rw [g.found, List.map_append, List.map_singleton]
    · rw [g.tally, List.countP_append, List.countP_singleton, ht]
      simp
    · exact fun x hx => hall x (List.mem_append_left _ hx)

/-- Erasing a record. -/
theorem Going.erase (g : Going test c s w t past (h :: ahead)) (ht : test h.entry = true) :
    ∃ w' t', w.step test = .ok w' ∧ Going test c s w' t' (past ++ [h]) ahead := by
  obtain ⟨hh, hpos, hat⟩ := g.at?_eq
  obtain ⟨hafter, hnext⟩ := g.after?_eq
  have inv := g.shows_cache.inv
  obtain ⟨cache, hcache, sh⟩ := g.shows_cache.follows_eraseAt (s.positionOf h)
  rw [Shelf.eraseAt, hat] at hcache sh
  have hanswer : (t.remove h).1 = ahead.head?.map s.positionOf := by
    rw [← hnext]
    exact Option.map_congr fun x hx => inv.positionOf_drop hh hx
  have hheld : ((t.drop h).count .removal).held =
      (past.filter fun h => !test h.entry) ++ ahead := inv.without_eq g.held
  refine ⟨{ cache, pos := ahead.head?.map s.positionOf, found := w.found ++ [some h.entry] },
    (t.drop h).count .removal, ?_, ?_, sh, ?_, fun x hx => ?_, rfl, ?_, ?_, fun hall => ?_⟩
  · simp only [step, hpos, g.shows_cache.entryAt?_eq, hat, ht, hcache, hanswer, Option.map_some,
      Option.any_some, if_true, Fault.ok_bind, Fault.pure_eq]
  · rw [g.start, List.append_assoc, List.singleton_append]
  · rw [hheld, List.filter_append]
    simp [ht]
  · -- only the slot of the erased record has changed hands
    rw [hheld] at hx
    have hne : h.slot ≠ x.slot := (inv.slot_ne g.held hx).symm
    rw [← g.positionOf x]
    · show Position.mk x.slot (t.renewed h.slot x.slot) = _
      rw [Shelf.renewed, if_neg hne]
      rfl
    · rw [g.held]
      exact List.Sublist.subset (List.Sublist.append_left (List.sublist_cons_self h ahead) _) hx
  · rw [g.found, List.map_append, List.map_singleton]
  · show t.tally.count .removal = _
    rw [g.tally, List.countP_append, List.countP_singleton, ht]
    rfl
  · have hfalse := hall h (List.mem_append_right past (List.mem_singleton_self h))
    rw [ht] at hfalse
    cases hfalse

/-- **One step.** -/
theorem Going.exists_step (g : Going test c s w t past (h :: ahead)) :
    ∃ w' t', w.step test = .ok w' ∧ Going test c s w' t' (past ++ [h]) ahead := by
  cases ht : test h.entry with
  | false =>
    obtain ⟨w', hw', g'⟩ := g.pass ht
    exact ⟨w', t, hw', g'⟩
  | true => exact g.erase ht

/-- **Any number of steps.** -/
theorem Going.exists_steps (g : Going test c s w t past ahead) (n : Nat) : ∃ w' t',
    steps test n w = .ok w' ∧ Going test c s w' t' (past ++ ahead.take n) (ahead.drop n) := by
  induction n generalizing w t past ahead with
  | zero => exact ⟨w, t, rfl, by simpa using g⟩
  | succ n ih =>
    cases ahead with
    | nil =>
      have hstep : w.step test = .ok w := by
        rw [step, g.pos]
        rfl
      obtain ⟨w', t', hw', g'⟩ := ih g
      exact ⟨w', t', by rw [steps, hstep, Fault.ok_bind, hw'], by simpa using g'⟩
    | cons h ahead =>
      obtain ⟨w₁, t₁, hstep, g₁⟩ := g.exists_step
      obtain ⟨w', t', hw', g'⟩ := ih g₁
      exact ⟨w', t', by rw [steps, hstep, Fault.ok_bind, hw'], by simpa using g'⟩

end Sift

/-! ## The walk in a cache -/

namespace Cache

variable {κ ν : Type} [BEq κ] [EquivBEq κ] {test : Entry κ ν → Bool} {c : Cache κ ν}
  {s t : Shelf κ ν} {w : Sift κ ν} {past ahead : List (Held κ ν)} {hash : κ → UInt64}

/-- What a walk has done so far can be told from outside. -/
theorem Shows.sifted (sh : c.Shows s) (g : Sift.Going test c s w t past ahead) :
    c.Sifted test w (past.map Held.entry) (ahead.map Held.entry) := by
  have sht := g.shows_cache
  have hsub : ∀ x ∈ t.held, x ∈ s.held := by
    rw [g.held, g.start]
    exact (List.filter_sublist.append_right ahead).subset
  -- an entry at a position is that of one record only
  have hrecord : ∀ pos e, c.entryAt? pos = .ok (some e) → ∃ h ∈ s.held, s.positionOf h = pos ∧
      h.entry = e ∧ ∀ x ∈ s.held, x.entry = e → x = h := by
    intro pos e he
    rw [sh.entryAt?_eq, Except.ok.injEq, Option.map_eq_some_iff] at he
    obtain ⟨h, hat, rfl⟩ := he
    obtain ⟨hh, hpos⟩ := sh.inv.at?_eq_some_iff.1 hat
    refine ⟨h, hh, hpos, rfl, fun x hx hxe => sh.inv.eq_of_key hh hx ?_⟩
    rw [show x.key = h.key from congrArg Entry.key hxe]
    exact BEq.rfl
  refine ⟨?_, ?_, ?_, ?_, fun pos e he hkept => ?_, fun pos e he ht hmem => ?_, fun hall => ?_,
    sht.verdict_eq⟩
  · rw [g.found, List.map_map]
    rfl
  · rw [g.pos, Option.map_eq_none_iff, List.head?_eq_none_iff, List.map_eq_nil_iff]
  · rw [sht.toList_eq, Shelf.entries, g.held, List.map_append, List.filter_map]
    rfl
  · rw [sht.summary_eq, sh.summary_eq, Shelf.summary, g.tally, Shelf.size, g.held,
      List.length_append, ← List.countP_eq_length_filter, List.countP_map, List.countP_map,
      List.length_map]
    rfl
  · obtain ⟨h, hh, rfl, rfl, honly⟩ := hrecord pos e he
    have hheld : h ∈ t.held := by
      rw [g.start, List.mem_append] at hh
      rw [g.held, List.mem_append, List.mem_filter, Bool.not_eq_true']
      rcases hkept with ht | hmem
      · exact hh.imp_left (⟨·, ht⟩)
      · obtain ⟨x, hx, hxe⟩ := List.mem_map.1 hmem
        refine .inr (honly x ?_ hxe ▸ hx)
        rw [g.start]
        exact List.mem_append_right past hx
    have hat := sht.inv.at?_eq_some_iff.2 ⟨hheld, g.positionOf h hheld⟩
    have hfind := sht.inv.find?_eq_some_iff.2 ⟨hheld, BEq.rfl⟩
    rw [sht.entryAt?_eq, hat, sht.position?_eq, hfind, Option.map_some, Option.map_some,
      g.positionOf h hheld]
    exact ⟨rfl, rfl⟩
  · obtain ⟨h, hh, rfl, rfl, honly⟩ := hrecord pos e he
    have hpast : h ∈ past := by
      obtain ⟨x, hx, hxe⟩ := List.mem_map.1 hmem
      refine honly x ?_ hxe ▸ hx
      rw [g.start]
      exact List.mem_append_left ahead hx
    rw [sht.stale_iff]
    by_contra hat
    obtain ⟨x, hat⟩ := Option.ne_none_iff_exists'.1 hat
    obtain ⟨hx, hpos⟩ := sht.inv.at?_eq_some_iff.1 hat
    obtain rfl : x = h := sh.inv.eq_of_slot hh (hsub x hx) (congrArg Position.slot hpos)
    -- the record was erased, and it is not among those to come
    rw [g.held, List.mem_append, List.mem_filter, ht] at hx
    have hnodup := sh.inv.slots
    rw [Shelf.slots, g.start, List.map_append, List.nodup_append] at hnodup
    rcases hx with ⟨-, hfalse⟩ | hahead
    · cases hfalse
    · exact hnodup.2.2 _ (List.mem_map_of_mem hpast) _ (List.mem_map_of_mem hahead) rfl
  · exact g.untouched fun h hh => hall h.entry (List.mem_map_of_mem hh)

variable [Inhabited ν]

/-- **Sifting.** Whatever the test, a walk over a cache that erases what the test accepts finds all
entries in their order, one in a step, and has ended when it has been at the last. What it passed is
left in its order, each entry at the position it had before, and the removals are counted. -/
theorem sift_filters (ha : Agrees hash) (hc : c.Reachable hash) (test : Entry κ ν → Bool) :
    ∃ l, c.toList = .ok l ∧
      ∀ n, ∃ w, c.sift test n = .ok w ∧ c.Sifted test w (l.take n) (l.drop n) := by
  obtain ⟨s, sh⟩ := hc.exists_shows ha
  refine ⟨s.entries, sh.toList_eq, fun n => ?_⟩
  have g : Sift.Going test c s { cache := c, pos := s.held.head?.map s.positionOf } s [] s.held :=
    ⟨rfl, sh, rfl, fun _ _ => rfl, rfl, rfl, rfl, fun _ => rfl⟩
  obtain ⟨w, t, hw, g'⟩ := g.exists_steps n
  refine ⟨w, ?_, ?_⟩
  · rw [sift, sh.newestPosition?_eq, Fault.ok_bind]
    exact hw
  · have hsifted := sh.sifted g'
    rwa [List.nil_append, List.map_take, List.map_drop] at hsifted

/-- Of four entries the two newest and the oldest are erased. -/
theorem sift_filters_of_four : ∃ answers c,
    (empty 4 2 .bySize HashScheme.identity.hash : Cache Int64 Unit).run
      [.command (.push none ⟨0, ()⟩), .command (.push none ⟨1, ()⟩),
        .command (.push none ⟨2, ()⟩), .command (.push none ⟨3, ()⟩)] = .ok (answers, c) ∧
    ∃ l, c.toList = .ok l ∧ ∀ n, ∃ w, c.sift (fun e => e.key != 1) n = .ok w ∧
      c.Sifted (fun e => e.key != 1) w (l.take n) (l.drop n) := by
  have ha := agrees_of_lawful (κ := Int64) HashScheme.identity.hash
  have sh := shows_empty (ν := Unit) ha 4 2 .bySize .initial
  obtain ⟨c, hc, -⟩ := sh.follows_run _
  exact ⟨_, c, hc, sift_filters ha ((Reachable.empty ..).run hc) _⟩

end Cache
end RecencyCache
