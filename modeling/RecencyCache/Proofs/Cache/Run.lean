import RecencyCache.Cache.Run
import RecencyCache.Key.Hash
import RecencyCache.Proofs.Cache.Audit
import RecencyCache.Proofs.Cache.Commands

/-!
# Runs of a cache

Every operation on a cache that shows a shelf goes through, answers what the shelf answers, and
leaves a cache that shows the shelf after it (`follows_perform`); so does every run (`follows_run`).
A new cache shows a new shelf, and so every reachable cache shows some shelf (`exists_shows`).
-/
namespace RecencyCache.Cache

variable {κ ν : Type} [BEq κ]

namespace Shows

variable [EquivBEq κ] {c : Cache κ ν} {s : Shelf κ ν}

theorem ask_eq (sh : c.Shows s) (q : Query κ) : c.ask q = .ok (s.ask q) := by
  cases q with
  | find k => rw [ask, sh.find?_eq]; rfl
  | contains k => rw [ask, sh.contains_eq]; rfl
  | lookup k => rw [ask, sh.get?_eq]; rfl
  | get k => rw [ask, sh.get_eq]; rfl
  | position k => rw [ask, sh.position?_eq]; rfl
  | deadline k => rw [ask, sh.deadline?_eq]; rfl
  | isExpired k => rw [ask, sh.isExpired_eq]; rfl
  | hash k => rw [ask, sh.hash]; rfl
  | newest => rw [ask, sh.newest?_eq]; rfl
  | oldest => rw [ask, sh.oldest?_eq]; rfl
  | newestPosition => rw [ask, sh.newestPosition?_eq]; rfl
  | oldestPosition => rw [ask, sh.oldestPosition?_eq]; rfl
  | positionAfter pos => rw [ask, sh.positionAfter?_eq]; rfl
  | entryAt pos => rw [ask, sh.entryAt?_eq]; rfl
  | entries => rw [ask, sh.toList_eq]; rfl
  | entriesRev => rw [ask, sh.toListRev_eq]; rfl
  | keys => rw [ask, Cache.keys, sh.toList_eq]; rfl
  | values => rw [ask, Cache.values, sh.toList_eq]; rfl
  | size => rw [ask, sh.size_eq]; rfl
  | isEmpty => rw [ask, isEmpty, sh.size_eq]; rfl
  | capacity => rw [ask, sh.capacity]; rfl
  | chainCount => rw [ask, Cache.chainCount, sh.chainCount]; rfl
  | nodeLimit => rw [ask, sh.stores.limit]; rfl
  | longestChain => rw [ask, sh.longestChain_eq]; rfl
  | window => rw [ask, sh.policy]; rfl
  | elapsed => rw [ask, sh.clock]; rfl
  | summary => rw [ask, sh.summary_eq]; rfl
  | audit => rw [ask, sh.verdict_eq]; rfl

variable [Inhabited ν]

theorem follows_apply (sh : c.Shows s) (m : Command κ ν) : Follows (c.apply m) (s.apply m) := by
  cases m with
  | push hint e => exact (sh.follows_push e).map _
  | pop => exact sh.follows_pop.map _
  | take k => exact (sh.follows_take k).map _
  | takeValue k =>
    obtain ⟨c', hc', sh'⟩ := sh.follows_take k
    exact ⟨c', by rw [apply, takeValue, hc']; rfl, sh'⟩
  | erase k => exact (sh.follows_erase k).map _
  | eraseAt pos => exact (sh.follows_eraseAt pos).map _
  | clear => exact ⟨_, rfl, sh.shows_clear⟩
  | setCapacity n => exact (sh.follows_setCapacity n).map _
  | limitNodes n => exact ⟨_, rfl, sh.shows_limitNodes n⟩
  | setWindow d => exact (sh.follows_setWindow d).map _
  | writeIfPresent k v => exact (sh.follows_write? k v).map _
  | write k v =>
    obtain ⟨c', hc', sh'⟩ := sh.follows_write? k v
    rw [apply, write, hc', Fault.ok_bind, Shelf.apply]
    generalize s.write? k v = t at sh' ⊢
    obtain ⟨old, s'⟩ := t
    cases old <;> exact ⟨c', rfl, sh'⟩
  | ensure k =>
    obtain ⟨c', hc', sh'⟩ := sh.follows_ensure k
    refine ⟨c', ?_, sh'⟩
    rw [apply, hc', Shelf.apply]
    obtain ⟨r, s'⟩ := s.ensure k
    cases r <;> rfl
  | ensureWrite k v => exact sh.follows_ensureWrite k v
  | advance d =>
    have sh' := sh.shows_clock (c.clock.advance d)
    rw [sh.clock] at sh'
    exact ⟨_, by rw [apply, sh.clock]; rfl, sh'⟩

/-- **One operation.** It goes through, answers what the shelf answers, and shows the shelf after
it. -/
theorem follows_perform (sh : c.Shows s) (op : Op κ ν) : Follows (c.perform op) (s.perform op) := by
  cases op with
  | query q => exact ⟨c, by rw [perform, sh.ask_eq]; rfl, sh⟩
  | command m => exact sh.follows_apply m

/-- **A run.** No operation is a fault, and all answers are those of the shelf. -/
theorem follows_run (sh : c.Shows s) (ops : List (Op κ ν)) : Follows (c.run ops) (s.run ops) := by
  induction ops generalizing c s with
  | nil => exact sh.follows_pure _
  | cons op ops ih =>
    obtain ⟨c₁, hc₁, sh₁⟩ := sh.follows_perform op
    obtain ⟨c₂, hc₂, sh₂⟩ := ih sh₁
    exact ⟨c₂, by simp only [run, hc₁, hc₂, Fault.ok_bind, Fault.pure_eq, Shelf.run], sh₂⟩

end Shows

/-! ## New caches and what they become -/

variable {hash : κ → UInt64}

theorem agrees_of_lawful {κ : Type} [BEq κ] [LawfulBEq κ] (hash : κ → UInt64) : Agrees hash := by
  intro a b hab
  rw [eq_of_beq hab]

theorem agrees_caseless (scheme : HashScheme) : Agrees (scheme.hash : Caseless → UInt64) :=
  fun _ _ h => HashScheme.hash_caseless h scheme

theorem shows_empty (ha : Agrees hash) (capacity chainCount : Nat) (policy : Policy)
    (clock : HandClock) : (empty capacity chainCount policy hash clock : Cache κ ν).Shows
      (Shelf.empty capacity chainCount policy hash clock) where
  agrees := ha
  chainCount := Chains.count_empty chainCount
  capacity := rfl
  policy := rfl
  clock := rfl
  hash := rfl
  tally := rfl
  inv := Shelf.inv_empty ..
  stores := ⟨fun _ => rfl, fun _ hi => absurd hi (Nat.not_lt_zero _), rfl, rfl, rfl, rfl⟩
  wired := ⟨Recency.lists_nil _, _, Chains.hold_empty _ _⟩

variable [Inhabited ν]

/-- The caches that any operations lead to, from a new cache with the hash function `hash`. -/
inductive Reachable (hash : κ → UInt64) : Cache κ ν → Prop
  | empty (capacity chainCount : Nat) (policy : Policy) (clock : HandClock) :
    Reachable hash (empty capacity chainCount policy hash clock)
  | ofSettings {settings : Settings} {policy : Policy} {clock : HandClock} {c : Cache κ ν}
    (h : ofSettings settings policy hash clock = .ok c) : Reachable hash c
  | perform {c c' : Cache κ ν} {op : Op κ ν} {answer : Answer κ ν} (h : Reachable hash c)
    (hop : c.perform op = .ok (answer, c')) : Reachable hash c'

theorem Reachable.run {c c' : Cache κ ν} {ops : List (Op κ ν)} {answers : List (Answer κ ν)}
    (h : c.Reachable hash) (hrun : c.run ops = .ok (answers, c')) : c'.Reachable hash := by
  induction ops generalizing c answers with
  | nil =>
    cases hrun
    exact h
  | cons op ops ih =>
    rw [Cache.run] at hrun
    obtain ⟨⟨answer, c₁⟩, hop, hrest⟩ := Fault.exists_of_bind hrun
    obtain ⟨⟨rest, c₂⟩, hops, hlast⟩ := Fault.exists_of_bind hrest
    cases hlast
    exact ih (h.perform hop) hops

/-- **Induction.** What holds of new shelves and is kept by every operation holds of a shelf that a
reachable cache shows. -/
theorem Reachable.exists_shows_of [EquivBEq κ] {P : Shelf κ ν → Prop}
    (hempty : ∀ capacity chainCount policy clock,
      P (Shelf.empty capacity chainCount policy hash clock))
    (hperform : ∀ s op, s.Inv → P s → P (s.perform op).2) {c : Cache κ ν} (h : c.Reachable hash)
    (ha : Agrees hash) : ∃ s : Shelf κ ν, c.Shows s ∧ P s := by
  induction h with
  | empty capacity chainCount policy clock =>
    exact ⟨_, shows_empty ha capacity chainCount policy clock, hempty ..⟩
  | @ofSettings settings policy clock c h =>
    have sh := shows_empty (ν := ν) ha settings.capacity.toNat settings.chainCount.toNat policy
      clock
    have hP := hempty settings.capacity.toNat settings.chainCount.toNat policy clock
    rw [Cache.ofSettings] at h
    cases hcheck : settings.check with
    | error r => simp [hcheck, bind, Except.bind] at h
    | ok _ =>
      cases hlimit : settings.nodeLimit with
      | none =>
        simp only [hcheck, hlimit] at h
        cases h
        exact ⟨_, sh, hP⟩
      | some n =>
        simp only [hcheck, hlimit] at h
        cases h
        exact ⟨_, sh.shows_limitNodes _, hperform _ (.command (.limitNodes n.toNat)) sh.inv hP⟩
  | @perform c c' op answer _ hop ih =>
    obtain ⟨s, sh, hP⟩ := ih
    exact ⟨_, ((sh.follows_perform op).of_ok hop).2, hperform s op sh.inv hP⟩

/-- **Representation.** Every reachable cache shows a shelf. -/
theorem Reachable.exists_shows [EquivBEq κ] {c : Cache κ ν} (h : c.Reachable hash)
    (ha : Agrees hash) : ∃ s : Shelf κ ν, c.Shows s := by
  obtain ⟨s, sh, -⟩ := h.exists_shows_of (P := fun _ => True) (fun _ _ _ _ => trivial)
    (fun _ _ _ _ => trivial) ha
  exact ⟨s, sh⟩

end RecencyCache.Cache
