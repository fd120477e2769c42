import RecencyCache.Proofs.Cache.Coherence
import RecencyCache.Proofs.Shelf.Rehash

/-!
# Equal keys with unequal hashes

A lookup compares hashes before it compares keys, so a cache never takes two keys of unequal hashes
for one, whether they count as equal or not. Every command does to it what it would do if keys
counted as equal only with equal hashes (`keying`). With that equality any hash function gives equal
hashes to equal keys, so every reachable cache shows a shelf, whatever its hash function:
`exists_shows_keying`.
-/
namespace RecencyCache

/-- Keys count as equal if they did before and have equal hashes. -/
@[reducible] def keying {κ : Type} [BEq κ] (hash : κ → UInt64) : BEq κ :=
  ⟨fun a b => a == b && hash a == hash b⟩

section Keying

variable {κ : Type} [BEq κ] (hash : κ → UInt64)

theorem keying_iff {a b : κ} :
    (keying hash).beq a b = true ↔ (a == b) = true ∧ hash a = hash b :=
  Bool.and_eq_true_iff.trans (and_congr_right' beq_iff_eq)

theorem agrees_keying : @Agrees κ (keying hash) hash :=
  fun _ _ hab => ((keying_iff hash).1 hab).2

theorem equivBEq_keying [EquivBEq κ] : @EquivBEq κ (keying hash) := by
  refine @EquivBEq.mk κ (keying hash) (@PartialEquivBEq.mk κ (keying hash) ?_ ?_)
    (@ReflBEq.mk κ (keying hash) ?_)
  · intro a b hab
    obtain ⟨hk, hh⟩ := (keying_iff hash).1 hab
    exact (keying_iff hash).2 ⟨BEq.symm hk, hh.symm⟩
  · intro a b c hab hbc
    obtain ⟨hk, hh⟩ := (keying_iff hash).1 hab
    obtain ⟨hk', hh'⟩ := (keying_iff hash).1 hbc
    exact (keying_iff hash).2 ⟨BEq.trans hk hk', hh.trans hh'⟩
  · intro a
    exact (keying_iff hash).2 ⟨BEq.rfl, rfl⟩

end Keying

/-- A search asks about entries of nodes with the hash only. -/
theorem Chains.findFrom_congr {κ ν : Type} {nodes : Strand.Nodes κ ν} {hash : UInt64}
    {accepts accepts' : Entry κ ν → Bool}
    (h : ∀ i n, nodes.get? i = some n → n.hash = hash → accepts n.entry = accepts' n.entry)
    (m : Nat) (start : Option SlotId) :
    findFrom nodes hash accepts m start = findFrom nodes hash accepts' m start := by
  induction m generalizing start with
  | zero => cases start <;> rfl
  | succ m ih =>
    cases start with
    | none => rfl
    | some i =>
      cases hi : nodes.get? i with
      | none => simp only [findFrom, Pool.get, hi]; rfl
      | some n =>
        simp only [findFrom, Pool.get, hi, Fault.ok_bind, ih]
        by_cases hn : n.hash = hash
        · rw [h i n hi hn]
        · simp only [beq_eq_false_iff_ne.2 hn, Bool.false_and]

namespace Shelf

variable {κ ν : Type} [BEq κ] [Inhabited ν]

/-- No operation changes the hash function. -/
theorem hash_perform (s : Shelf κ ν) (op : Op κ ν) : (s.perform op).2.hash = s.hash :=
  have h : (s.perform op).2 = (s.perform op).2.rehash s.hash s.chainCount :=
    (perform_rehash s s.hash s.chainCount op).2
  (congrArg Shelf.hash h).trans rfl

end Shelf

namespace Cache

variable {κ ν : Type} {c : Cache κ ν}

section Commands

variable {b b' : BEq κ} [Inhabited ν]

/-- A command compares keys to look them up, and for nothing else. -/
theorem apply_congr (h : ∀ k, @slot? κ ν b c k = @slot? κ ν b' c k) (m : Command κ ν) :
    @apply κ ν b _ c m = @apply κ ν b' _ c m := by
  have hpush : ∀ e, @push κ ν b c e = @push κ ν b' c e := fun e => by simp only [push, h]
  have htake : ∀ k, @take κ ν b c k = @take κ ν b' c k := fun k => by simp only [take, h]
  have hwrite : ∀ k v, @write? κ ν b c k v = @write? κ ν b' c k v := fun k v => by
    simp only [write?, h]
  have hensure : ∀ k, @ensureSlot κ ν b _ c k = @ensureSlot κ ν b' _ c k := fun k => by
    simp only [ensureSlot, h, hpush]
  cases m with
  | push hint e => simp only [apply, hpush]
  | take k => simp only [apply, htake]
  | takeValue k => simp only [apply, takeValue, htake]
  | erase k => simp only [apply, erase, position?, h]
  | writeIfPresent k v => simp only [apply, hwrite]
  | write k v => simp only [apply, write, hwrite]
  | ensure k => simp only [apply, ensure, hensure]
  | ensureWrite k v => simp only [apply, ensureWrite, hensure]
  | _ => rfl

end Commands

variable [BEq κ]

/-- Every stored hash is that of the stored key, so the keys that a lookup compares have equal
hashes. -/
theorem slot?_keying (h : ∀ i n, c.nodes.get? i = some n → n.hash = c.hash n.entry.key) (k : κ) :
    c.slot? k = @slot? κ ν (keying c.hash) c k := by
  refine Chains.findFrom_congr (fun i n hi hn => ?_) _ _
  have hhash : c.hash n.entry.key = c.hash k := (h i n hi).symm.trans hn
  show (n.entry.key == k) = (n.entry.key == k && c.hash n.entry.key == c.hash k)
  rw [hhash, beq_self_eq_true, Bool.and_true]

variable [EquivBEq κ] [Inhabited ν] {hash : κ → UInt64}

/-- A reachable cache has the hash function that it was made with, and its nodes have the hashes of
their keys. -/
theorem Reachable.hash_eq (ha : Agrees hash) (hc : c.Reachable hash) :
    c.hash = hash ∧ ∀ i n, c.nodes.get? i = some n → n.hash = c.hash n.entry.key := by
  obtain ⟨s, sh, hs⟩ := hc.exists_shows_of (P := fun s => s.hash = hash) (fun _ _ _ _ => rfl)
    (fun s op _ hs => (s.hash_perform op).trans hs) ha
  exact ⟨sh.hash.trans hs, fun i n hi => sh.hash_eq hi⟩

/-- What operations lead to, they lead to if keys count as equal only with equal hashes. -/
theorem Reachable.reachable_keying (hc : c.Reachable hash) :
    @Reachable κ ν (keying hash) _ hash c := by
  induction hc with
  | empty capacity chainCount policy clock =>
    exact @Reachable.empty κ ν (keying hash) _ hash capacity chainCount policy clock
  | ofSettings h => exact @Reachable.ofSettings κ ν (keying hash) _ hash _ _ _ _ h
  | @perform c c' op answer _ hop ih =>
    cases op with
    | query q =>
      obtain ⟨a, -, hlast⟩ := Fault.exists_of_bind hop
      cases hlast
      exact ih
    | command m =>
      obtain ⟨hc, hget⟩ := @Reachable.hash_eq κ ν c (keying hash) (equivBEq_keying hash) _ hash
        (agrees_keying hash) ih
      have happly := apply_congr (fun k => slot?_keying hget k) m
      rw [hc] at happly
      refine @Reachable.perform κ ν (keying hash) _ hash c c' (.command m) answer ih ?_
      rw [← hop]
      exact happly.symm

/-- **Representation.** Every reachable cache shows a shelf, whatever its hash function. -/
theorem Reachable.exists_shows_keying (hc : c.Reachable hash) :
    ∃ s : Shelf κ ν, @Shows κ ν (keying hash) c s :=
  @Reachable.exists_shows κ ν (keying hash) hash _ (equivBEq_keying hash) c hc.reachable_keying
    (agrees_keying hash)

end Cache
end RecencyCache
