import RecencyCache.Proofs.Cache.Nesting
import RecencyCache.Proofs.Cache.Pushes
import RecencyCache.Proofs.Roster.Chronicle
import RecencyCache.Proofs.Roster.Terms

/-!
# A cache tells its history

`chronicle` runs operations and logs every push that went through and every value that was
overwritten. In every state the cache can be told from this log: the order of its entries, their
keys, their values, and their deadlines under the window that is set (`entries_follow_log`). A
lookup, a write, a hit of `ensure` or an operation on another key touches neither order nor time.
-/
namespace RecencyCache.Cache

variable {κ ν : Type} [BEq κ] {c c' : Cache κ ν} {s : Shelf κ ν} {op : Op κ ν}
  {log : List (Deed κ ν)} {hash : κ → UInt64}

/-- The cache holds the entries `es`, most recently pushed first, and they are as the log tells. -/
structure Recounts (c : Cache κ ν) (log : List (Deed κ ν)) (es : List (Entry κ ν)) : Prop where
  entries : c.toList = .ok es
  order : ∀ (i j : Nat) (hi : i < es.length) (hj : j < es.length),
    i < j ↔ age (pushes log) es[i].key < age (pushes log) es[j].key
  values : ∀ e ∈ es, value? log e.key = some e.value
  /-- The last push gave the key as it is stored, and its time decides when the entry expires. -/
  pushed : ∀ e ∈ es, ∃ x, lastPush? (pushes log) e.key = some x ∧ x.entry.key = e.key ∧
    ∀ w, c.policy = .bySizeAndAge w → ∀ k, (e.key == k) = true →
      c.deadline? k = .ok (x.stamp.add? w) ∧ ∃ late, c.isExpired k = .ok late ∧
        (late = true ↔ ∃ d, x.stamp.add? w = some d ∧ d < c.clock.now)
  absent : ∀ k, (∀ e ∈ es, (e.key == k) = false) →
    c.deadline? k = .ok none ∧ c.isExpired k = .ok false

theorem Shows.recounts [EquivBEq κ] (sh : c.Shows s) (hl : s.roster.Logged (pushes log))
    (hv : s.roster.Valued log) : c.Recounts log s.entries where
  entries := sh.toList_eq
  order i j hi hj := by
    have hages := hl.pairwise_age
    rw [Shelf.entries_roster, ← List.pairwise_map] at hages
    have hiff := @List.SortedLT.getElem_lt_getElem_iff _ _ _ hages.sortedLT i j
      (by rwa [List.length_map]) (by rwa [List.length_map])
    simpa only [List.getElem_map] using hiff.symm
  values e he := by
    obtain ⟨h, hh, rfl⟩ := List.mem_map.1 he
    exact hv h.record (List.mem_map_of_mem hh)
  pushed e he := by
    obtain ⟨h, hh, rfl⟩ := List.mem_map.1 he
    obtain ⟨x, hx, hmark⟩ := hl.exists_lastPush? (List.mem_map_of_mem hh)
    obtain ⟨hkey, hstamp⟩ := Prod.mk.inj hmark
    refine ⟨x, hx, hkey, fun w hw k hk => ?_⟩
    have hfind := sh.inv.find?_eq_some_iff.2 ⟨hh, hk⟩
    rw [sh.deadline?_eq, sh.isExpired_eq, hfind, ← sh.policy, hw, sh.clock, hstamp]
    exact ⟨rfl, _, rfl, Policy.isExpired_iff_exists⟩
  absent k hk := by
    have hfind : s.find? k = none :=
      Shelf.find?_eq_none_iff.2 fun h hh => hk h.entry (List.mem_map_of_mem hh)
    rw [sh.deadline?_eq, sh.isExpired_eq, hfind]
    exact ⟨rfl, rfl⟩

/-! ## The log of a run -/

variable [Inhabited ν]

/-- What an operation with this answer did, newest first. -/
def deeds (c : Cache κ ν) (op : Op κ ν) (answer : Answer κ ν) :
    Except Fault (List (Deed κ ν)) := do
  let pushed ← c.pushed? op answer
  pure ((op.wrote? answer).toList ++ pushed.toList.map .pushed)

/-- The log after some operations, newest deed first, if it was `log` before them, and the cache
after them. -/
def chronicle (c : Cache κ ν) (log : List (Deed κ ν)) :
    List (Op κ ν) → Except Fault (List (Deed κ ν) × Cache κ ν)
  | [] => pure (log, c)
  | op :: ops => do
    let (answer, c') ← c.perform op
    let deeds ← c.deeds op answer
    c'.chronicle (deeds ++ log) ops

/-- From `c`, which holds the records `l`, to `c'`, which holds `l'`, an operation moves no record
but the one that it pushes, which is `p` if there is one, and gives no other a new time. Without a
push all records stay, unless the operation is there to take some out. -/
structure Still (c c' : Cache κ ν) (op : Op κ ν) (answer : Answer κ ν)
    (p : Option (Record κ ν)) (l l' : List (Record κ ν)) : Prop where
  before : c.records = .ok l
  after : c'.records = .ok l'
  pushed : c.pushed? op answer = .ok p
  others : ((l'.filter fun x => !p.any (·.entry.key == x.entry.key)).map Record.mark).Sublist
    (l.map Record.mark)
  all : p = none → op.removes = false → op.tightens = false →
    l'.map Record.mark = l.map Record.mark

variable [EquivBEq κ]

namespace Shows

theorem deeds_eq (sh : c.Shows s) (op : Op κ ν) : c.deeds op (s.perform op).1 =
    .ok (s.roster.deeds op (s.roster.perform (s.target? op) op).1) := by
  rw [deeds, sh.pushed?_eq, Fault.ok_bind, Roster.deeds]
  cases op with
  | query q => rfl
  | command m =>
    have hwrote : ∀ a, (Op.command m).wrote? ((s.apply m).2.shown a) = (Op.command m).wrote? a := by
      intro a
      cases a <;> cases m <;> rfl
    simp only [Roster.perform, Shelf.roster_apply sh.inv, hwrote]
    rfl

/-- **A run.** It goes through, and what is held then is told by the log. -/
theorem exists_chronicle (sh : c.Shows s) (hl : s.roster.Logged (pushes log))
    (hv : s.roster.Valued log) (ops : List (Op κ ν)) :
    ∃ log' c', c.chronicle log ops = .ok (log', c') ∧ c.run ops = .ok ((s.run ops).1, c') ∧
      c'.Shows (s.run ops).2 ∧ (s.run ops).2.roster.Logged (pushes log') ∧
      (s.run ops).2.roster.Valued log' := by
  induction ops generalizing c s log with
  | nil => exact ⟨log, c, rfl, rfl, sh, hl, hv⟩
  | cons op ops ih =>
    obtain ⟨c₁, hc₁, sh₁⟩ := sh.follows_perform op
    have hd := Roster.distinct_roster sh.inv
    have hlogged := Roster.logged_perform hl hd (s.target? op) op
    have hvalued := Roster.valued_perform hv hd (s.target? op) op
    have hdeeds := sh.deeds_eq op
    rw [← Roster.pushes_deeds] at hlogged
    rw [Shelf.roster_perform sh.inv] at hlogged hvalued hdeeds
    obtain ⟨log', c', hlog, hrun, hrest⟩ := ih sh₁ hlogged hvalued
    refine ⟨log', c', ?_, ?_, hrest⟩
    · simp only [chronicle, hc₁, hdeeds, Fault.ok_bind]
      exact hlog
    · simp only [run, hc₁, hrun, Fault.ok_bind, Fault.pure_eq, Shelf.run]

theorem still (sh : c.Shows s) (sh' : c'.Shows (s.perform op).2) :
    c.Still c' op (s.perform op).1 (s.roster.pushed? op (s.roster.perform (s.target? op) op).1)
      s.roster.records (s.perform op).2.roster.records := by
  have hothers := s.roster.others_perform (s.target? op) op
  have hall : s.roster.pushed? op (s.roster.perform (s.target? op) op).1 = none → _ :=
    Roster.marks_eq_perform
  simp only [Shelf.roster_perform sh.inv] at hothers hall ⊢
  refine ⟨sh.records_eq, sh'.records_eq, ?_, hothers, hall⟩
  have hpushed := sh.pushed?_eq op
  rw [Shelf.roster_perform sh.inv] at hpushed
  exact hpushed

end Shows

/-- **History.** After any operations on an empty cache its entries stand in the order of their last
pushes, each with the key, the value and the deadline that the log tells under the window and the
clock that the operations left. The next operation moves only what it pushes. -/
theorem entries_follow_log (ha : Agrees hash) (hc : c.Reachable hash) (hempty : c.isEmpty = true)
    (ops : List (Op κ ν)) : ∃ answers log last es, c.run ops = .ok (answers, last) ∧
      c.chronicle [] ops = .ok (log, last) ∧ last.Recounts log es ∧
      last.terms = ops.foldl Terms.perform c.terms ∧
      ∀ op, ∃ answer next p l l', last.perform op = .ok (answer, next) ∧
        last.Still next op answer p l l' := by
  obtain ⟨s, sh⟩ := hc.exists_shows ha
  have hnone := sh.records_eq_nil hempty
  have hl : s.roster.Logged (pushes []) := by
    rw [Roster.Logged, hnone]
    exact List.nil_sublist _
  have hv : s.roster.Valued [] := by
    rw [Roster.Valued, hnone]
    exact List.forall_mem_nil _
  obtain ⟨log, last, hlog, hrun, sht, hlt, hvt⟩ := sh.exists_chronicle hl hv ops
  refine ⟨_, log, last, _, hrun, hlog, sht.recounts hlt hvt, hc.terms_run ha hrun, fun op => ?_⟩
  obtain ⟨next, hnext, sh'⟩ := sht.follows_perform op
  exact ⟨_, next, _, _, _, hnext, sht.still sh'⟩

/-- Keys that are spelled in two ways: values are written, an absent key is ensured, a key is pushed
again under another spelling, and the window is changed. -/
theorem entries_follow_log_of_caseless :
    let c : Cache Caseless Int64 :=
      empty 2 3 (.bySizeAndAge (.ofMillis 100)) HashScheme.byteSum.hash
    let ops : List (Op Caseless Int64) :=
      [.command (.push none ⟨⟨"a"⟩, 0⟩), .command (.ensureWrite ⟨"b"⟩ 1), .command (.write ⟨"a"⟩ 2),
        .command (.advance (.ofMillis 60)), .command (.push none ⟨⟨"A"⟩, 3⟩),
        .command (.writeIfPresent ⟨"a"⟩ 4), .command (.setWindow (.ofMillis 50))]
    c.isEmpty = true ∧ ∃ answers log last es, c.run ops = .ok (answers, last) ∧
      c.chronicle [] ops = .ok (log, last) ∧ last.Recounts log es ∧
      last.terms = ops.foldl Terms.perform c.terms ∧
      ∀ op, ∃ answer next p l l', last.perform op = .ok (answer, next) ∧
        last.Still next op answer p l l' := by
  intro c ops
  exact ⟨rfl, entries_follow_log (agrees_caseless .byteSum) (.empty ..) rfl ops⟩

end RecencyCache.Cache
