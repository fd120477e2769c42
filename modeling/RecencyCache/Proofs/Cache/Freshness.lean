import RecencyCache.Proofs.Cache.Pushes

/-!
# A fresh entry is never evicted

With a window an operation evicts only entries whose last push lies further back than the window,
only the least recently pushed ones, and each of them only while there are more entries than the
capacity (`evicts_only_aged`). An operation that takes entries out on demand is no eviction.
-/
namespace RecencyCache

/-- Whether the policy has a window. -/
def Policy.Timed (p : Policy) : Prop := ∃ w, p = bySizeAndAge w

/-- A policy keeps its kind. -/
theorem Roster.timed_of_change {κ ν : Type} [BEq κ] {r r' : Roster κ ν} (h : r.Change r')
    (hr : r.policy.Timed) : r'.policy.Timed := by
  have hclock : ∀ t : HandClock, { r with clock := t }.policy = r.policy := fun _ => rfl
  cases h with
  | setWindow d =>
    obtain ⟨w, hw⟩ := hr
    exact ⟨d, congrArg (Policy.withWindow d) hw⟩
  | advance d => rwa [hclock]
  | _ => exact hr

namespace Cache

variable {κ ν : Type} [BEq κ]

/-- From `c` to `c'` the entries `dropped` leave, and the more recently pushed ones `kept` stay. For
each that leaves, more time than the window `w` has passed since the last push of its key, and there
were more entries than the capacity, with `incoming` entries to come. -/
structure Sheds (c c' : Cache κ ν) (log : List (Record κ ν)) (w : Duration) (incoming : Nat)
    (kept dropped : List (Entry κ ν)) : Prop where
  entries : c.toList = .ok (kept ++ dropped)
  stays : ∀ e ∈ kept, c'.contains e.key = .ok true
  leaves : ∀ e ∈ dropped, c'.contains e.key = .ok false
  aged : ∀ e ∈ dropped, ∃ x, lastPush? log e.key = some x ∧
    x.stamp.totalNanos + w.totalNanos < c'.clock.now.totalNanos
  crowded : ∀ newer e older, dropped = newer ++ e :: older →
    c'.capacity < (kept ++ newer).length + 1 + incoming

variable [EquivBEq κ] {c c' : Cache κ ν} {s s' : Shelf κ ν} {log : List (Record κ ν)}
  {v w : Duration} {n : Nat} {kept dropped : List (Record κ ν)}

theorem Shows.sheds (sh : c.Shows s) (sh' : c'.Shows s') (hl : s.roster.Logged log)
    (hw : c'.policy = .bySizeAndAge w) (h : s.roster.Sheds s'.roster n kept dropped) :
    c.Sheds c' log w n (kept.map Record.entry) (dropped.map Record.entry) := by
  have hpolicy : s'.roster.policy = .bySizeAndAge w := sh'.policy.symm.trans hw
  have hclock : s'.roster.clock = c'.clock := sh'.clock.symm
  have hcapacity : s'.roster.capacity = c'.capacity := sh'.capacity.symm
  have hfind : ∀ k, c'.contains k = .ok (s'.roster.find? k).isSome := fun k => by
    rw [sh'.contains_eq, Shelf.find?_roster, Option.isSome_map]
  have hevicts := h.evicts
  simp only [hpolicy, hclock, hcapacity, Policy.evicts_bySizeAndAge_iff] at hevicts
  refine ⟨?_, fun e he => ?_, fun e he => ?_, fun e he => ?_, fun newer e older hdropped => ?_⟩
  · rw [sh.toList_eq, ← Shelf.entries_roster, Roster.entries, h.records, List.map_append]
  · obtain ⟨x, hx, rfl⟩ := List.mem_map.1 he
    rw [hfind, h.stays x hx]
  · obtain ⟨x, hx, rfl⟩ := List.mem_map.1 he
    rw [hfind, h.leaves x hx]
    rfl
  · obtain ⟨x, hx, rfl⟩ := List.mem_map.1 he
    obtain ⟨newer, older, hdropped⟩ := List.append_of_mem hx
    have hmem : x ∈ s.roster.records := h.records ▸ List.mem_append_right kept hx
    obtain ⟨y, hy, hmark⟩ := hl.exists_lastPush? hmem
    have hstamp : y.stamp = x.stamp := congrArg Prod.snd hmark
    exact ⟨y, hy, hstamp ▸ (hevicts newer x older hdropped).2⟩
  · obtain ⟨newer, rest, rfl, rfl, hrest⟩ := List.map_eq_append_iff.1 hdropped
    obtain ⟨x, older, rfl, -, -⟩ := List.map_eq_cons_iff.1 hrest
    rw [← List.map_append, List.length_map]
    exact (hevicts newer x older rfl).1

variable [Inhabited ν] {hash : κ → UInt64}

/-- **Only what has aged.** After any operations on a cache with a window, an operation that takes
nothing out on demand drops none but the least recently pushed entries. Each of them is past its
deadline under the window then in force, and there were too many entries when it left. An insertion
drops at most one. -/
theorem evicts_only_aged (ha : Agrees hash) (hc : c.Reachable hash) (hempty : c.isEmpty = true)
    (hv : c.policy = .bySizeAndAge v) (ops : List (Op κ ν)) {op : Op κ ν}
    (hop : op.removes = false) :
    ∃ log last answer next w kept dropped, c.runLogged [] ops = .ok (log, last) ∧
      last.perform op = .ok (answer, next) ∧ next.policy = .bySizeAndAge w ∧
      last.Sheds next log w (if op.inserts then 1 else 0) kept dropped ∧
      (op.inserts = true → dropped.length ≤ 1) := by
  obtain ⟨s, sh⟩ := hc.exists_shows ha
  have hnew : s.roster.Logged [] := by
    rw [Roster.Logged, sh.records_eq_nil hempty]
    exact List.nil_sublist _
  obtain ⟨log, last, hrun, sht, hlogged, hchanges⟩ := sh.exists_runLogged hnew ops
  obtain ⟨next, hnext, sh'⟩ := sht.follows_perform op
  generalize (s.run ops).2 = t at sht hlogged hchanges sh' hnext
  have hchange := t.roster.changes_perform (t.target? op) op
  obtain ⟨kept, dropped, hsheds, hle⟩ :=
    Roster.exists_sheds_perform (Roster.distinct_roster sht.inv) (t.target? op) hop
  rw [Shelf.roster_perform sht.inv] at hchange hsheds
  -- the policy has had a window since the start, if not always the same one
  obtain ⟨w, hw⟩ := Roster.Changes.keeps (P := fun r => r.policy.Timed) (hchanges.trans hchange)
    (fun _ _ => Roster.timed_of_change) ⟨v, sh.policy.symm.trans hv⟩
  have hpolicy : next.policy = .bySizeAndAge w := sh'.policy.trans hw
  exact ⟨log, last, _, next, w, _, _, hrun, hnext, hpolicy, sht.sheds sh' hlogged hpolicy hsheds,
    fun hins => by rw [List.length_map]; exact hle hins⟩

/-- Of three entries past their deadline, in a cache for two, a push evicts the first. -/
theorem evicts_only_aged_of_three :
    let c : Cache Int64 Unit := empty 2 1 (.bySizeAndAge (.ofMillis 100)) HashScheme.identity.hash
    let ops : List (Op Int64 Unit) :=
      [.command (.push none ⟨0, ()⟩), .command (.push none ⟨1, ()⟩),
        .command (.push none ⟨2, ()⟩), .command (.advance (.ofMillis 101))]
    ∃ log last answer next w kept dropped, c.runLogged [] ops = .ok (log, last) ∧
      last.perform (.command (.push none ⟨3, ()⟩)) = .ok (answer, next) ∧
      next.policy = .bySizeAndAge w ∧ last.Sheds next log w 1 kept dropped ∧
      dropped.length ≤ 1 ∧ last.contains 0 = .ok true ∧ next.contains 0 = .ok false := by
  intro c ops
  have hop : Op.removes (.command (.push none ⟨3, ()⟩) : Op Int64 Unit) = false := rfl
  obtain ⟨log, last, answer, next, w, kept, dropped, hrun, hnext, hpolicy, hsheds, hle⟩ :=
    evicts_only_aged (c := c) (agrees_of_lawful _) (.empty ..) rfl rfl ops hop
  -- the shelves that the two caches show have the entries in the open
  have sh : c.Shows (Shelf.empty ..) := shows_empty (agrees_of_lawful _) ..
  obtain ⟨log', last', hrun', sht, -⟩ := sh.exists_runLogged (List.nil_sublist _) ops
  rw [hrun, Except.ok.injEq, Prod.mk.injEq] at hrun'
  obtain ⟨-, rfl⟩ := hrun'
  obtain ⟨next', hnext', sh'⟩ := sht.follows_perform (.command (.push none ⟨3, ()⟩))
  rw [hnext, Except.ok.injEq, Prod.mk.injEq] at hnext'
  obtain ⟨-, rfl⟩ := hnext'
  have hout : next.contains 0 = .ok false := by
    rw [sh'.contains_eq]
    decide +kernel
  exact ⟨log, last, answer, next, w, kept, dropped, hrun, hnext, hpolicy, hsheds, hle rfl,
    sht.contains_eq 0, hout⟩

end Cache
end RecencyCache
