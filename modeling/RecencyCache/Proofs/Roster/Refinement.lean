import RecencyCache.Proofs.Cache.Run
import RecencyCache.Proofs.Roster.Shrink

/-!
# Caches are rosters

`Shelf.roster` forgets slots, generations and hashes. Each operation of a shelf is then the
operation of the roster of the same name (`roster_perform`), and since a cache shows a shelf, an
observer cannot tell a cache from a roster: `watch_eq_roster`.
-/
namespace RecencyCache

/-! ## Forgetting the slots -/

namespace Shelf

variable {κ ν : Type}

/-- The shelf without its slots. -/
def roster (s : Shelf κ ν) : Roster κ ν where
  records := s.held.map Held.record
  limit := s.limit
  capacity := s.capacity
  policy := s.policy
  clock := s.clock
  tally := s.tally

variable {s : Shelf κ ν} {h x : Held κ ν} {a b : List (Held κ ν)} {k : κ} {e : Entry κ ν}

@[simp] theorem size_roster (s : Shelf κ ν) : s.roster.size = s.size := List.length_map _

@[simp] theorem entries_roster (s : Shelf κ ν) : s.roster.entries = s.entries := List.map_map

@[simp] theorem oldest?_roster (s : Shelf κ ν) : s.roster.oldest? = s.oldest?.map Held.record :=
  List.getLast?_map

@[simp] theorem summary_roster (s : Shelf κ ν) : s.roster.summary = s.summary := by
  rw [Roster.summary, size_roster]
  rfl

theorem roster_clock (s : Shelf κ ν) (t : HandClock) :
    { s.roster with clock := t } = { s with clock := t }.roster := rfl

theorem roster_capacity (s : Shelf κ ν) (n : Nat) :
    { s.roster with capacity := n } = { s with capacity := n }.roster := rfl

theorem roster_policy (s : Shelf κ ν) (p : Policy) :
    { s.roster with policy := p } = { s with policy := p }.roster := rfl

theorem full_roster (s : Shelf κ ν) : s.roster.full = s.victim?.isSome := by
  rw [Roster.full, oldest?_roster, size_roster, victim?, overfull]
  cases ho : s.oldest? with
  | none => simp
  | some h =>
    simp only [Option.map_some, Option.any_some]
    split <;> simp_all [roster]

/-- The records without the oldest one. -/
theorem map_without_oldest [BEq κ] (inv : s.Inv) (ho : s.oldest? = some h) :
    (s.without h.slot).map Held.record = s.roster.records.dropLast := by
  obtain ⟨a, hs⟩ := oldest?_eq_some_iff.1 ho
  rw [inv.without_eq hs, roster, hs]
  simp

theorem roster_pop [BEq κ] (inv : s.Inv) : s.pop.map id roster = s.roster.pop := by
  rw [pop, Roster.pop, oldest?_roster]
  cases ho : s.oldest? with
  | none => rfl
  | some h =>
    rw [Option.map_some, ← map_without_oldest inv ho]
    rfl

/-- Popping while the oldest record has to leave is trimming the list. -/
theorem roster_evictWithin [BEq κ] {n : Nat} (inv : s.Inv) (hn : s.size = n) :
    (evictWithin n s).map id roster = s.roster.shrink := by
  induction n generalizing s with
  | zero =>
    have hheld : s.held = [] := List.length_eq_zero_iff.1 hn
    have hkept : s.roster.kept = s.roster.records := by
      simp [Roster.kept, roster, hheld, Policy.trim]
    rw [evictWithin, Roster.shrink_of_kept hkept]
    rfl
  | succ n ih =>
    obtain ⟨h, ho, hpop⟩ := exists_pop (s := s) (by omega)
    have hh := mem_of_oldest? ho
    have hsize := inv.size_drop hh
    have hrest := ih (inv_count (inv_drop inv hh) .eviction) (Nat.succ.inj (hsize.trans hn))
    obtain ⟨a, hs⟩ := oldest?_eq_some_iff.1 ho
    have hshrink := Roster.shrink_append (r := s.roster) (l := a.map Held.record) (x := h.record)
      (by simp [roster, hs])
    have hover : s.overfull s.size = s.roster.policy.evicts s.roster.clock.now s.roster.size
        s.roster.capacity (some h.record.stamp) := by
      rw [overfull, ho, size_roster]
      rfl
    have hroster : { s.roster with records := a.map Held.record }.count .eviction =
        ((s.drop h).count .eviction).roster := by
      simp [roster, Roster.count, Shelf.count, drop, inv.without_eq hs]
    rw [evictWithin, hover, hpop, hshrink, hroster, ← hrest]
    split <;> rfl

theorem roster_evictExcess [BEq κ] (inv : s.Inv) : s.evictExcess.map id roster = s.roster.shrink :=
  roster_evictWithin inv rfl

/-! ## By key -/

section ByKey

variable [BEq κ]

@[simp] theorem find?_roster (s : Shelf κ ν) (k : κ) :
    s.roster.find? k = (s.find? k).map Held.record := List.find?_map

variable [EquivBEq κ]

theorem map_without (inv : s.Inv) (hk : s.find? k = some h) :
    (s.without h.slot).map Held.record = s.roster.without k :=
  inv.map_without Held.record hk fun _ => rfl

theorem after?_roster (inv : s.Inv) (hk : s.find? k = some h) :
    s.roster.after? k = (s.after? h).map Held.record :=
  (inv.map_after? Held.record hk fun _ => rfl).symm

theorem roster_push (inv : s.Inv) (e : Entry κ ν) : (s.push e).map id roster = s.roster.push e := by
  rw [push, Roster.push, find?_roster, full_roster]
  cases hk : s.find? e.key with
  | some h =>
    rw [Option.map_some, Option.isSome_some, if_pos rfl, ← map_without inv hk]
    rfl
  | none =>
    cases hv : s.victim? with
    | some h =>
      simp only [Option.map_none, Option.isSome_none, Option.isSome_some, Bool.false_eq_true,
        if_false, if_true]
      rw [← map_without_oldest inv (oldest?_of_victim? hv)]
      rfl
    | none =>
      have hlimit : s.roster.limit.filter (· ≤ s.roster.size) = s.reachedLimit? := by
        rw [size_roster]
        rfl
      simp only [Option.map_none, Option.isSome_none, Bool.false_eq_true, if_false, hlimit,
        insertNew]
      cases s.reachedLimit? with
      | some n => rfl
      | none =>
        simp only [store]
        split <;> rfl

theorem roster_take (inv : s.Inv) (k : κ) : (s.take k).map id roster = s.roster.take k := by
  rw [take, Roster.take, find?_roster]
  cases hk : s.find? k with
  | none => rfl
  | some h =>
    rw [Option.map_some, ← map_without inv hk]
    rfl

theorem roster_overwrite (inv : s.Inv) (hk : s.find? k = some h) (v : ν) :
    (s.overwrite h v).roster = { s.roster with records := s.roster.records.map fun y =>
      if y.entry.key == k then { y with entry.value := v } else y } := by
  obtain ⟨hh, hhk⟩ := inv.find?_eq_some_iff.1 hk
  simp only [roster, overwrite, List.map_map, Roster.mk.injEq, and_true]
  refine List.map_congr_left fun x hx => ?_
  have hiff : x.slot = h.slot ↔ (x.key == k) = true := by
    constructor
    · intro hslot
      rw [inv.eq_of_slot hh hx hslot]
      exact hhk
    · intro hxk
      have hfind := inv.find?_eq_some_iff.2 ⟨hx, hxk⟩
      rw [hk, Option.some.injEq] at hfind
      rw [hfind]
  by_cases hslot : x.slot = h.slot
  · simp [hslot, hiff.1 hslot]
  · simp [hslot, mt hiff.2 hslot]

theorem roster_write? (inv : s.Inv) (k : κ) (v : ν) :
    (s.write? k v).map id roster = s.roster.write? k v := by
  rw [write?, Roster.write?, find?_roster]
  cases hk : s.find? k with
  | none => rfl
  | some h =>
    rw [Option.map_some, ← roster_overwrite inv hk]
    rfl

variable [Inhabited ν]

theorem roster_ensure (inv : s.Inv) (k : κ) :
    (s.ensure k).map (Except.map (·.entry.value)) roster = s.roster.ensure k := by
  rw [ensure, Roster.ensure, find?_roster]
  cases hk : s.find? k with
  | some h => rfl
  | none =>
    have hhead := fun r => head?_push (e := (⟨k, default⟩ : Entry κ ν)) (r := r) hk
    simp only [Option.map_none, ← roster_push inv]
    generalize s.push ⟨k, default⟩ = t at hhead ⊢
    obtain ⟨r, s'⟩ := t
    cases r with
    | error r => rfl
    | ok b =>
      obtain ⟨x, hx, hentry⟩ := hhead b rfl
      simp only at hx
      simp [hx, hentry, Except.map]

end ByKey

/-! ## Positions as the entries they lead to -/

/-- An answer with the entry in place of a position. -/
def shown (s : Shelf κ ν) : Answer κ ν → Answer κ ν
  | .position pos => .found ((pos.bind s.at?).map Held.entry)
  | answer => answer

/-- The entry that the position of an operation leads to. -/
def target? (s : Shelf κ ν) (op : Op κ ν) : Option (Entry κ ν) :=
  (op.position?.bind s.at?).map Held.entry

theorem shown_ofExcept {α : Type} {f : α → Answer κ ν} (hf : ∀ a, s.shown (f a) = f a)
    (r : Except Refusal α) : s.shown (.ofExcept f r) = .ofExcept f r := by
  cases r with
  | ok a => exact hf a
  | error r => rfl

variable [BEq κ]

theorem bind_at? (inv : s.Inv) {o : Option (Held κ ν)} (ho : ∀ h, o = some h → h ∈ s.held) :
    (o.map s.positionOf).bind s.at? = o := by
  cases o with
  | none => rfl
  | some h => exact inv.at?_eq_some_iff.2 ⟨ho h rfl, rfl⟩

variable [EquivBEq κ]

theorem find?_key_of_at? (inv : s.Inv) {pos : Position} (hat : s.at? pos = some h) :
    s.find? h.key = some h :=
  inv.find?_eq_some_iff.2 ⟨(inv.at?_eq_some_iff.1 hat).1, BEq.rfl⟩

theorem roster_ask (inv : s.Inv) (q : Query κ) (hq : Op.onHashes (.query q : Op κ ν) = false) :
    s.roster.ask (s.target? (.query q)) q = s.shown (s.ask q) := by
  cases q with
  | hash | chainCount | longestChain => cases hq
  | find k | contains k | lookup k | get k | deadline k | isExpired k =>
    rw [Roster.ask, find?_roster, ask]
    cases s.find? k <;> rfl
  | position k =>
    rw [Roster.ask, find?_roster, ask, shown, bind_at? inv fun h hk => mem_of_find? hk,
      Option.map_map]
    rfl
  | newest =>
    rw [Roster.ask, entries_roster, entries, List.head?_map]
    rfl
  | oldest =>
    rw [Roster.ask, entries_roster, entries, List.getLast?_map]
    rfl
  | newestPosition =>
    rw [Roster.ask, entries_roster, entries, ask, shown,
      bind_at? inv fun h hh => List.mem_of_head? hh, List.head?_map]
  | oldestPosition =>
    rw [Roster.ask, entries_roster, entries, ask, shown,
      bind_at? inv fun h hh => mem_of_oldest? hh, List.getLast?_map, oldest?]
  | positionAfter pos =>
    rw [Roster.ask, ask, shown]
    simp only [target?, Op.position?, Option.bind_some]
    cases hat : s.at? pos with
    | none => rfl
    | some h =>
      have hh := (inv.at?_eq_some_iff.1 hat).1
      simp only [Option.map_some, Option.bind_some, after?_roster inv (find?_key_of_at? inv hat)]
      rw [bind_at? inv fun x hx => inv.mem_of_after? hh hx, Option.map_map]
      rfl
  | entryAt pos =>
    simp only [Roster.ask, ask, shown, target?, Op.position?, Option.bind_some]
    cases hat : s.at? pos with
    | none => rfl
    | some h =>
      simp only [Option.map_some, Option.bind_some, find?_roster, find?_key_of_at? inv hat]
  | entries | entriesRev | keys | values =>
    rw [Roster.ask, entries_roster]
    rfl
  | size | isEmpty =>
    rw [Roster.ask, size_roster]
    rfl
  | summary =>
    rw [Roster.ask, summary_roster]
    rfl
  | capacity | nodeLimit | window | elapsed | audit => rfl

/-- Removing the record with key `k`, with the entry behind it in place of a position. -/
theorem roster_remove (inv : s.Inv) (hk : s.find? k = some h) :
    ((s.remove h).2.shown (.position (s.remove h).1), (s.remove h).2.roster) =
      (s.roster.erase k).map .found id := by
  have hh := mem_of_find? hk
  have hafter : ((s.after? h).map (s.drop h).positionOf).bind ((s.drop h).count .removal).at? =
      s.after? h :=
    bind_at? (inv_drop inv hh) fun x hx => inv.mem_drop_of_after? hh hx
  rw [remove, shown, hafter, Roster.erase, find?_roster, hk, Option.map_some, Option.isSome_some,
    if_pos rfl, after?_roster inv hk, ← map_without inv hk, Option.map_map]
  rfl

variable [Inhabited ν]

theorem roster_apply (inv : s.Inv) (m : Command κ ν) :
    s.roster.apply (s.target? (.command m)) m =
      ((s.apply m).2.shown (s.apply m).1, (s.apply m).2.roster) := by
  cases m with
  | push hint e =>
    rw [Roster.apply, ← roster_push inv, apply, Prod.map_fst, shown_ofExcept fun _ => rfl]
    rfl
  | pop =>
    rw [Roster.apply, ← roster_pop inv, apply, Prod.map_fst, shown_ofExcept fun _ => rfl]
    rfl
  | take k | takeValue k =>
    rw [Roster.apply, ← roster_take inv]
    rfl
  | erase k =>
    rw [Roster.apply, apply, Prod.map_fst, Prod.map_snd, erase]
    cases hk : s.find? k with
    | none =>
      rw [Roster.erase, find?_roster, hk]
      rfl
    | some h => exact (roster_remove inv hk).symm
  | eraseAt pos =>
    rw [Roster.apply, apply, Prod.map_fst, Prod.map_snd, eraseAt]
    simp only [target?, Op.position?, Option.bind_some]
    cases hat : s.at? pos with
    | none => rfl
    | some h => exact (roster_remove inv (find?_key_of_at? inv hat)).symm
  | clear | limitNodes n => rfl
  | advance d =>
    have hclock : (s.advance d).clock = s.clock.advance d := by rw [advance]
    simp only [Roster.apply, apply, shown, hclock]
    exact congrArg _ (roster_clock s (s.clock.advance d))
  | setCapacity n =>
    have hinv : Inv { s with capacity := n } := { inv with }
    rw [Roster.apply, Roster.setCapacity, roster_capacity, ← roster_evictExcess hinv]
    rfl
  | setWindow d =>
    have hinv : Inv { s with policy := s.policy.withWindow d } := { inv with }
    have hpolicy : s.roster.policy = s.policy := rfl
    rw [Roster.apply, Roster.setWindow, roster_policy, hpolicy, ← roster_evictExcess hinv]
    rfl
  | writeIfPresent k v =>
    rw [Roster.apply, ← roster_write? inv]
    rfl
  | write k v =>
    rw [Roster.apply, ← roster_write? inv, apply, Prod.map_fst, shown_ofExcept fun _ => rfl]
    rfl
  | ensure k =>
    rw [Roster.apply, ← roster_ensure inv, apply]
    generalize s.ensure k = t
    obtain ⟨r, s'⟩ := t
    cases r <;> rfl
  | ensureWrite k v =>
    rw [Roster.apply, ← roster_ensure inv, apply]
    have hinv := inv_ensure inv k
    have hfind := fun h => find?_ensure (k := k) (h := h) inv
    generalize s.ensure k = t at hinv hfind ⊢
    obtain ⟨r, s'⟩ := t
    cases r with
    | error r => rfl
    | ok h =>
      have hwrite := roster_write? hinv k v
      rw [write?, hfind h rfl] at hwrite
      simp only [Prod.map, id, Except.map, ← hwrite]
      rfl

/-- **One operation.** Without slots it is the operation of the roster. -/
theorem roster_perform (inv : s.Inv) (op : Op κ ν) : s.roster.perform (s.target? op) op =
    (if op.onHashes then .done else (s.perform op).2.shown (s.perform op).1,
      (s.perform op).2.roster) := by
  cases op with
  | command m =>
    rw [Roster.perform, perform, roster_apply inv]
    rfl
  | query q =>
    rw [Roster.perform, perform]
    by_cases hq : Op.onHashes (.query q : Op κ ν) = true
    · rw [if_pos hq]
      cases q with
      | hash k | chainCount | longestChain => rfl
      | _ => cases hq
    · rw [if_neg hq, roster_ask inv q (by simpa using hq)]

/-- A shelf without records, with a limit on its slots if there is one. -/
def fresh (capacity chainCount : Nat) (limit : Option Nat) (policy : Policy) (hash : κ → UInt64)
    (clock : HandClock) : Shelf κ ν :=
  { empty capacity chainCount policy hash clock with limit }

end Shelf

/-! ## Watching a cache -/

namespace Cache

variable {κ ν : Type} [BEq κ] {c : Cache κ ν} {s : Shelf κ ν}

theorem Shows.records_eq_nil (sh : c.Shows s) (h : c.isEmpty = true) : s.roster.records = [] := by
  rw [isEmpty, sh.size_eq, beq_iff_eq, ← Shelf.size_roster] at h
  exact List.length_eq_zero_iff.1 h

theorem Shows.target?_eq (sh : c.Shows s) (op : Op κ ν) : c.target? op = .ok (s.target? op) := by
  unfold target? Shelf.target?
  cases op.position? with
  | none => rfl
  | some pos => exact sh.entryAt?_eq pos

theorem Shows.shown_eq (sh : c.Shows s) (answer : Answer κ ν) :
    c.shown answer = .ok (s.shown answer) := by
  cases answer with
  | position pos =>
    cases pos with
    | none => rfl
    | some pos =>
      simp only [shown, sh.entryAt?_eq, Fault.map_ok, Shelf.shown, Option.bind_some]
  | _ => rfl

variable [EquivBEq κ] [Inhabited ν]

/-- **A run, watched.** After every operation an observer sees what the roster shows. -/
theorem Shows.exists_watch (sh : c.Shows s) (ops : List (Op κ ν)) :
    ∃ seen, c.watch ops = .ok seen ∧ seen.length = ops.length ∧
      seen.map Prod.snd = s.roster.watch (ops.zip (seen.map Prod.fst)) := by
  induction ops generalizing c s with
  | nil => exact ⟨[], rfl, rfl, rfl⟩
  | cons op ops ih =>
    obtain ⟨c', hc', sh'⟩ := sh.follows_perform op
    obtain ⟨seen, hseen, hlen, hwatch⟩ := ih sh'
    have hobserve : c'.observe op (s.perform op).1 =
        .ok (s.roster.perform (s.target? op) op).1 := by
      rw [observe, sh'.shown_eq, Shelf.roster_perform sh.inv]
      split <;> rfl
    refine ⟨(s.target? op, ⟨(s.roster.perform (s.target? op) op).1, (s.perform op).2.entries,
      (s.perform op).2.size, (s.perform op).2.summary⟩) :: seen, ?_, ?_, ?_⟩
    · simp only [watch, sh.target?_eq, hc', hobserve, sh'.toList_eq, hseen, sh'.size_eq,
        sh'.summary_eq, Fault.ok_bind, Fault.pure_eq]
    · simp [hlen]
    · simp only [List.map_cons, List.zip_cons_cons, Roster.watch, hwatch,
        Shelf.roster_perform sh.inv, Shelf.entries_roster, Shelf.size_roster,
        Shelf.summary_roster]

/-- A new cache, with a limit on its nodes if there is one. -/
def build (capacity chainCount : Nat) (limit : Option Nat) (policy : Policy) (hash : κ → UInt64)
    (clock : HandClock) : Cache κ ν :=
  match limit with
  | none => empty capacity chainCount policy hash clock
  | some n => (empty capacity chainCount policy hash clock).limitNodes n

theorem shows_build {κ ν : Type} [BEq κ] {hash : κ → UInt64} (ha : Agrees hash)
    (capacity chainCount : Nat) (limit : Option Nat) (policy : Policy) (clock : HandClock) :
    (build capacity chainCount limit policy hash clock : Cache κ ν).Shows
      (Shelf.fresh capacity chainCount limit policy hash clock) := by
  have sh := shows_empty (ν := ν) ha capacity chainCount policy clock
  cases limit with
  | none => exact sh
  | some n => exact sh.shows_limitNodes n

/-- **Refinement.** Whatever its capacity, chains, node limit, policy and hash, a new cache shows an
observer after each of any operations what a plain list of records shows. -/
theorem watch_eq_roster {hash : κ → UInt64} (ha : Agrees hash) (capacity chainCount : Nat)
    (limit : Option Nat) (policy : Policy) (clock : HandClock) (ops : List (Op κ ν)) :
    ∃ seen, (build capacity chainCount limit policy hash clock).watch ops = .ok seen ∧
      seen.length = ops.length ∧ seen.map Prod.snd =
        Roster.watch { limit, capacity, policy, clock } (ops.zip (seen.map Prod.fst)) := by
  have sh := shows_empty (ν := ν) ha capacity chainCount policy clock
  cases limit with
  | none => exact sh.exists_watch ops
  | some n => exact (sh.shows_limitNodes n).exists_watch ops

/-- The refinement for keys that are spelled in two ways, with an eviction and a stale position. -/
theorem watch_of_caseless :
    let ops : List (Op Caseless Unit) :=
      [.command (.push none ⟨⟨"ab"⟩, ()⟩), .command (.push none ⟨⟨"c"⟩, ()⟩),
        .command (.push none ⟨⟨"AB"⟩, ()⟩), .command (.push none ⟨⟨"d"⟩, ()⟩),
        .command (.eraseAt ⟨1, 0⟩), .command (.erase ⟨"aB"⟩)]
    ∃ seen, (build 2 2 (some 2) .bySize HashScheme.byteSum.hash .initial).watch ops = .ok seen ∧
      seen.length = 6 ∧ seen.map Prod.snd =
        Roster.watch { limit := some 2, capacity := 2, policy := .bySize, clock := .initial }
          (ops.zip (seen.map Prod.fst)) :=
  watch_eq_roster (agrees_caseless .byteSum) 2 2 (some 2) .bySize .initial _

end Cache
end RecencyCache
