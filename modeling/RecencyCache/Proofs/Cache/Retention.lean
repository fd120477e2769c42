import RecencyCache.Proofs.Roster.Refinement
import RecencyCache.Proofs.Roster.Retention

/-!
# What pushes leave in a cache

A cache without a window that is only pushed into holds the keys that were pushed most recently, as
many as its capacity and always at least one, each with the entry of its last push. So it can be
told from the pushes alone whether the next one is a hit: `toList_of_pushes`.
-/
namespace RecencyCache

section Pushes

variable {κ ν : Type}

/-- Pushes as operations, each with its hint. -/
def Op.ofPushes (pushes : List (Option Position × Entry κ ν)) : List (Op κ ν) :=
  pushes.map fun p => .command (.push p.1 p.2)

/-- The log of pushes that are made at one time, newest first. -/
def pushLog (now : Instant) (pushes : List (Option Position × Entry κ ν)) : List (Record κ ν) :=
  (pushes.map fun p => ⟨p.2, now⟩).reverse

end Pushes

namespace Shelf

variable {κ ν : Type} [BEq κ] [EquivBEq κ] {s : Shelf κ ν} {log : List (Record κ ν)}

/-- A push on a shelf that evicts by size alone. -/
theorem retains_push (inv : s.Inv) (h : s.roster.Retains log) (e : Entry κ ν) :
    (s.push e).1 = .ok (!(s.roster.find? e.key).isSome) ∧
      (s.push e).2.roster.Retains (⟨e, s.clock.now⟩ :: log) ∧
      (s.push e).2.clock = s.clock ∧ (s.push e).2.capacity = s.capacity := by
  obtain ⟨hanswer, halike, -⟩ := Roster.push_eq h.limit e
  have hretains := h.push e
  rw [← roster_push inv] at hanswer halike hretains
  exact ⟨hanswer, hretains, congrArg Roster.clock halike, congrArg Roster.capacity halike⟩

variable [Inhabited ν]

/-- **Any number of pushes.** -/
theorem retains_run (inv : s.Inv) (h : s.roster.Retains log)
    (pushes : List (Option Position × Entry κ ν)) :
    (s.run (Op.ofPushes pushes)).2.roster.Retains (pushLog s.clock.now pushes ++ log) ∧
      (s.run (Op.ofPushes pushes)).2.capacity = s.capacity := by
  induction pushes generalizing s log with
  | nil => exact ⟨h, rfl⟩
  | cons p pushes ih =>
    obtain ⟨-, h₁, hclock, hcapacity⟩ := retains_push inv h p.2
    obtain ⟨hrest, hrestcapacity⟩ := ih (inv_push inv p.2) h₁
    refine ⟨?_, hrestcapacity.trans hcapacity⟩
    rw [pushLog, List.map_cons, List.reverse_cons, List.append_assoc]
    exact hclock ▸ hrest

end Shelf

namespace Cache

variable {κ ν : Type} [BEq κ] [EquivBEq κ] [Inhabited ν] {hash : κ → UInt64} {c : Cache κ ν}

/-- **Retention.** A cache without a window and without a node limit starts empty, and some entries
are pushed. Then it holds the keys that were pushed most recently, as many as its capacity or one,
in the order of their last pushes and with the entries of these. One more push is a hit if its key
was pushed before and fewer other keys have been pushed since than that. -/
theorem toList_of_pushes (ha : Agrees hash) (hc : c.Reachable hash) (hempty : c.isEmpty = true)
    (hp : c.policy = .bySize) (hl : c.nodes.limit = none)
    (pushes : List (Option Position × Entry κ ν)) :
    ∃ answers last, c.run (Op.ofPushes pushes) = .ok (answers, last) ∧
      last.toList = .ok (((lastPushes (pushLog c.clock.now pushes)).take (max c.capacity 1)).map
        Record.entry) ∧
      ∀ hint e, ∃ b next, last.perform (.command (.push hint e)) = .ok (.flag b, next) ∧
        (b = false ↔ Recurs (pushLog c.clock.now pushes) e.key (max c.capacity 1)) := by
  obtain ⟨s, sh⟩ := hc.exists_shows ha
  have hnone : s.roster.Retains [] := by
    refine ⟨sh.policy.symm.trans hp, sh.stores.limit.symm.trans hl, ?_⟩
    rw [sh.records_eq_nil hempty]
    exact List.take_nil.symm
  obtain ⟨h, hcapacity⟩ := Shelf.retains_run sh.inv hnone pushes
  obtain ⟨last, hlast, sh'⟩ := sh.follows_run (Op.ofPushes pushes)
  have hmax : max (s.run (Op.ofPushes pushes)).2.roster.capacity 1 = max c.capacity 1 :=
    congrArg (max · 1) (hcapacity.trans sh.capacity.symm)
  rw [List.append_nil, ← sh.clock] at h
  refine ⟨_, last, hlast, ?_, fun hint e => ?_⟩
  · rw [sh'.toList_eq, ← Shelf.entries_roster, Roster.entries, h.records, hmax]
  · obtain ⟨hanswer, -⟩ := Shelf.retains_push sh'.inv h e
    obtain ⟨next, hnext, -⟩ := sh'.follows_perform (.command (.push hint e))
    rw [Shelf.perform, Shelf.apply, Prod.map_fst, hanswer] at hnext
    refine ⟨_, next, hnext, ?_⟩
    rw [Bool.not_eq_false', h.isSome_find?_iff, hmax]

/-- Room for two: a key comes back under another spelling, and a third key displaces the one that
did not. -/
theorem toList_of_pushes_of_caseless :
    let c : Cache Caseless Int64 := empty 2 3 .bySize HashScheme.byteSum.hash
    let pushes : List (Option Position × Entry Caseless Int64) :=
      [(none, ⟨⟨"a"⟩, 0⟩), (none, ⟨⟨"b"⟩, 1⟩), (none, ⟨⟨"A"⟩, 2⟩), (none, ⟨⟨"c"⟩, 3⟩)]
    ∃ answers last, c.run (Op.ofPushes pushes) = .ok (answers, last) ∧
      last.toList = .ok (((lastPushes (pushLog c.clock.now pushes)).take (max c.capacity 1)).map
        Record.entry) ∧
      ∀ hint e, ∃ b next, last.perform (.command (.push hint e)) = .ok (.flag b, next) ∧
        (b = false ↔ Recurs (pushLog c.clock.now pushes) e.key (max c.capacity 1)) :=
  toList_of_pushes (agrees_caseless .byteSum) (.empty ..) rfl rfl rfl _

end Cache
end RecencyCache
