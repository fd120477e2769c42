import RecencyCache.Proofs.Roster.Nesting
import RecencyCache.Proofs.Roster.Refinement

/-!
# A smaller cache holds a part of a larger one

Two caches of one kind serve the same operations, one of them with a capacity and a window no larger
than the other's. Then the smaller one always holds the newest entries of the larger one, pushed at
the same times, and a push that finds its key in the smaller one finds it in the larger one
(`run_prefix_of_larger`). So more room never costs a hit.
-/
namespace RecencyCache

/-- Every push that one run of the operations answers as a hit, the other run answers as a hit. -/
def HitsAlso {κ ν : Type} (ops : List (Op κ ν)) (answers answers' : List (Answer κ ν)) : Prop :=
  ∀ (i : Nat) (hint : Option Position) (e : Entry κ ν),
    ops[i]? = some (.command (.push hint e)) → answers[i]? = some (.flag false) →
      answers'[i]? = some (.flag false)

/-- Whether an operation is a query or a command that keeps caches nested. -/
def Op.isNesting {κ ν : Type} : Op κ ν → Bool
  | .query _ => true
  | .command m => m.isNesting

namespace Cache

variable {κ ν : Type}

/-- The entries and the times of their last pushes, most recently pushed first. -/
def records (c : Cache κ ν) : Except Fault (List (Record κ ν)) := do
  (← Strand.recency.walk c.nodes c.order.head).mapM fun i => do
    let node ← c.nodes.get i
    pure ⟨node.entry, node.stamp⟩

/-- The limits of `c` are no laxer than those of `c'`, which reads the same clock, and neither has a
limit on its nodes. -/
structure Narrower (c c' : Cache κ ν) : Prop where
  capacity : c.capacity ≤ c'.capacity
  policy : c.policy ≤ c'.policy
  clock : c.clock = c'.clock
  unlimited : c.nodes.limit = none
  unlimited' : c'.nodes.limit = none

/-- The entries of `c` are the newest ones of `c'`, and were pushed at the same times. -/
def Begins (c c' : Cache κ ν) : Prop :=
  ∃ l l', c.records = .ok l ∧ c'.records = .ok l' ∧ l <+: l' ∧
    c.toList = .ok (l.map Record.entry) ∧ c'.toList = .ok (l'.map Record.entry)

variable [BEq κ] {c c' : Cache κ ν} {s s' : Shelf κ ν}

namespace Shows

theorem records_eq (sh : c.Shows s) : c.records = .ok s.roster.records := by
  have hlen : s.slots.length ≤ c.nodes.live := by
    rw [sh.stores.live, Shelf.slots, List.length_map]
    exact Nat.le_refl _
  rw [records, sh.wired.order.head,
    Strand.walk_eq sh.wired.order.threads sh.inv.slots hlen, Fault.ok_bind, Shelf.slots,
    List.mapM_map]
  refine mapM_pure fun h hh => ?_
  obtain ⟨a, b, hs⟩ := List.append_of_mem hh
  obtain ⟨n, hn, hentry, hstamp, -⟩ := sh.exists_node hs
  simp [hn, hentry, hstamp]

theorem begins (sh : c.Shows s) (sh' : c'.Shows s') (h : s.roster.Nested s'.roster) :
    c.Begins c' := by
  refine ⟨_, _, sh.records_eq, sh'.records_eq, h.records, ?_, ?_⟩
  · rw [sh.toList_eq, ← Shelf.entries_roster]
    rfl
  · rw [sh'.toList_eq, ← Shelf.entries_roster]
    rfl

theorem nested (sh : c.Shows s) (sh' : c'.Shows s') (h : c.Narrower c')
    (hempty : c.isEmpty = true) : s.roster.Nested s'.roster := by
  have hrecords : s.roster.records <+: s'.roster.records :=
    sh.records_eq_nil hempty ▸ List.nil_prefix
  have hcapacity := h.capacity
  rw [sh.capacity, sh'.capacity] at hcapacity
  have hpolicy := h.policy
  rw [sh.policy, sh'.policy] at hpolicy
  have hclock := h.clock
  rw [sh.clock, sh'.clock] at hclock
  exact ⟨hrecords, hcapacity, hpolicy, hclock, sh.stores.limit.symm.trans h.unlimited,
    sh'.stores.limit.symm.trans h.unlimited'⟩

end Shows
end Cache

/-! ## One operation -/

namespace Shelf

variable {κ ν : Type} {s s' : Shelf κ ν}

theorem target?_of_isNesting {m : Command κ ν} (hm : m.isNesting = true) :
    s.target? (.command m) = none := by
  cases m with
  | eraseAt pos => cases hm
  | _ => rfl

variable [BEq κ] [EquivBEq κ] [Inhabited ν]

theorem nested_perform (inv : s.Inv) (inv' : s'.Inv) (h : s.roster.Nested s'.roster)
    {op : Op κ ν} (hop : op.isNesting = true) :
    (s.perform op).2.roster.Nested (s'.perform op).2.roster := by
  cases op with
  | query q => exact h
  | command m =>
    have hm : m.isNesting = true := hop
    have hnested := h.apply hm
    rw [← target?_of_isNesting (s := s) hm] at hnested
    rw [roster_apply inv, target?_of_isNesting hm, ← target?_of_isNesting (s := s') hm,
      roster_apply inv'] at hnested
    exact hnested

/-- A push that finds its key in the smaller one finds it in the larger one. -/
theorem flag_of_nested (inv : s.Inv) (inv' : s'.Inv) (h : s.roster.Nested s'.roster)
    {hint : Option Position} {e : Entry κ ν}
    (hit : (s.perform (.command (.push hint e))).1 = .flag false) :
    (s'.perform (.command (.push hint e))).1 = .flag false := by
  have hpush : (s.push e).1 = (s.roster.push e).1 := congrArg Prod.fst (roster_push inv e)
  have hpush' : (s'.push e).1 = (s'.roster.push e).1 := congrArg Prod.fst (roster_push inv' e)
  have hfst : (s.roster.push e).1 = .ok false := by
    rw [perform, apply, Prod.map_fst, hpush] at hit
    cases hr : (s.roster.push e).1 with
    | error r =>
      rw [hr] at hit
      cases hit
    | ok b =>
      rw [hr] at hit
      cases hit
      rfl
  rw [perform, apply, Prod.map_fst, hpush', h.hit hfst]
  rfl

end Shelf

/-! ## A run -/

namespace Cache

variable {κ ν : Type} [BEq κ] [EquivBEq κ] [Inhabited ν] {c c' : Cache κ ν} {s s' : Shelf κ ν}

/-- **A run.** Nested caches stay nested, and hits of the smaller one are hits of the larger one. -/
theorem Shows.exists_run_nested (sh : c.Shows s) (sh' : c'.Shows s')
    (h : s.roster.Nested s'.roster) {ops : List (Op κ ν)} (hops : ∀ op ∈ ops, op.isNesting = true) :
    ∃ answers last answers' last', c.run ops = .ok (answers, last) ∧
      c'.run ops = .ok (answers', last') ∧ last.Begins last' ∧
      HitsAlso ops answers answers' := by
  induction ops generalizing c c' s s' with
  | nil => exact ⟨[], c, [], c', rfl, rfl, sh.begins sh' h, fun i hint e hop => by simp at hop⟩
  | cons op ops ih =>
    obtain ⟨c₁, hc₁, sh₁⟩ := sh.follows_perform op
    obtain ⟨c₁', hc₁', sh₁'⟩ := sh'.follows_perform op
    have h₁ := Shelf.nested_perform sh.inv sh'.inv h (hops op (by simp))
    obtain ⟨answers, last, answers', last', hrun, hrun', hbegins, hhits⟩ :=
      ih sh₁ sh₁' h₁ fun o ho => hops o (by simp [ho])
    refine ⟨(s.perform op).1 :: answers, last, (s'.perform op).1 :: answers', last', ?_, ?_,
      hbegins, fun i hint e hop hanswer => ?_⟩
    · simp [run, hc₁, hrun]
    · simp [run, hc₁', hrun']
    · cases i with
      | zero =>
        simp only [List.getElem?_cons_zero, Option.some.injEq] at hop hanswer ⊢
        subst hop
        exact Shelf.flag_of_nested sh.inv sh'.inv h hanswer
      | succ i => exact hhits i hint e hop hanswer

variable {hash hash' : κ → UInt64}

/-- **No anomaly.** Of two caches of one kind without node limits, the one with no more capacity and
no longer window starts empty, and both serve the same operations. However many these are, the
entries of this one are then the newest ones of the other, and every push that found its key in this
one found it in the other. -/
theorem run_prefix_of_larger (ha : Agrees hash) (ha' : Agrees hash') (hc : c.Reachable hash)
    (hc' : c'.Reachable hash') (hn : c.Narrower c') (hempty : c.isEmpty = true)
    {ops : List (Op κ ν)} (hops : ∀ op ∈ ops, op.isNesting = true) :
    ∃ answers last answers' last', c.run ops = .ok (answers, last) ∧
      c'.run ops = .ok (answers', last') ∧ last.Begins last' ∧
      HitsAlso ops answers answers' := by
  obtain ⟨s, sh⟩ := hc.exists_shows ha
  obtain ⟨s', sh'⟩ := hc'.exists_shows ha'
  exact sh.exists_run_nested sh' (sh.nested sh' hn hempty) hops

/-- Room for one entry and for two, with other windows, chains and hashes, and an overshoot. -/
theorem one_begins_two :
    let c : Cache Int64 Unit := empty 1 1 (.bySizeAndAge (.ofMillis 100)) HashScheme.identity.hash
    let c' := empty 2 3 (.bySizeAndAge (.ofMillis 200)) (HashScheme.constant 0).hash
    let ops : List (Op Int64 Unit) :=
      [.command (.push none ⟨0, ()⟩), .command (.push none ⟨1, ()⟩),
        .command (.advance (.ofMillis 150)), .command (.push none ⟨2, ()⟩),
        .command (.push none ⟨2, ()⟩), .command .pop, .command (.take 1)]
    ∃ answers last answers' last', c.run ops = .ok (answers, last) ∧
      c'.run ops = .ok (answers', last') ∧ last.Begins last' ∧ HitsAlso ops answers answers' := by
  intro c c' ops
  have hn : c.Narrower c' :=
    ⟨by decide, Policy.bySizeAndAge_le (by decide), rfl, rfl, rfl⟩
  have hops : ∀ op ∈ ops, op.isNesting = true := by simp [ops, Op.isNesting, Command.isNesting]
  exact run_prefix_of_larger (agrees_of_lawful _) (agrees_of_lawful _) (.empty ..) (.empty ..) hn
    rfl hops

end Cache
end RecencyCache
