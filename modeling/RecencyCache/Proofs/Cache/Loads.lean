import Mathlib.Algebra.Group.Action.Defs
import Mathlib.Algebra.Order.BigOperators.Group.List
import Mathlib.Algebra.Order.Ring.Nat
import Mathlib.Order.Bounds.Basic
import RecencyCache.Proofs.Cache.Keying

/-!
# Chain lengths count entries

Chain `i` is as long as there are entries whose hash is `i` modulo the number of chains (`load`).
The longest chain is the longest of these, and all chains together hold every entry once, so there
are no fewer entries than on the longest chain and no more than if all chains were as long:
`reachable_spread`.
-/
namespace RecencyCache

/-- The greatest of some numbers is one of them, and the others are no greater. -/
theorem isGreatest_foldl_max {l : List Nat} (hl : l ≠ []) :
    IsGreatest {n | n ∈ l} (l.foldl max 0) := by
  cases l with
  | nil => exact absurd rfl hl
  | cons a l =>
    have hmax : (a :: l).max? = some ((a :: l).foldl max 0) := by
      rw [List.max?_cons', List.foldl_cons, Nat.zero_max]
    exact List.max?_eq_some_iff.1 hmax

namespace Shelf

variable {κ ν : Type} (s : Shelf κ ν)

theorem chainLength_le_size (i : Nat) : s.chainLength i ≤ s.size := List.countP_le_length

variable (h : 0 < s.chainCount)
include h

theorem sum_chainLength : ((List.range s.chainCount).map s.chainLength).sum = s.size := by
  rw [List.sum_eq_foldl]
  exact s.foldl_chainLength h

theorem isGreatest_longestChain :
    IsGreatest (s.chainLength '' Set.Iio s.chainCount) s.longestChain := by
  have hne : (List.range s.chainCount).map s.chainLength ≠ [] := by
    rw [ne_eq, List.map_eq_nil_iff, List.range_eq_nil]
    exact Nat.ne_of_gt h
  have hset : {n | n ∈ (List.range s.chainCount).map s.chainLength} =
      s.chainLength '' Set.Iio s.chainCount := by
    ext n
    simp
  exact hset ▸ isGreatest_foldl_max hne

theorem longestChain_le_size : s.longestChain ≤ s.size := by
  obtain ⟨i, -, hi⟩ := (s.isGreatest_longestChain h).1
  rw [← hi]
  exact s.chainLength_le_size i

/-- No chain is longer than the longest one. -/
theorem size_le_mul : s.size ≤ s.chainCount * s.longestChain := by
  have hle : ∀ n ∈ (List.range s.chainCount).map s.chainLength, n ≤ s.longestChain := by
    intro n hn
    obtain ⟨i, hi, rfl⟩ := List.mem_map.1 hn
    exact (s.isGreatest_longestChain h).2 ⟨i, List.mem_range.1 hi, rfl⟩
  have hsum := List.sum_le_card_nsmul _ _ hle
  rwa [s.sum_chainLength h, List.length_map, List.length_range, smul_eq_mul] at hsum

end Shelf

namespace Cache

variable {κ ν : Type}

/-- The number of entries whose hash selects chain `i`. -/
def load (c : Cache κ ν) (entries : List (Entry κ ν)) (i : Nat) : Nat :=
  entries.countP fun e => (c.hash e.key).toNat % c.chainCount == i

/-- The entries are spread over the chains, and the longest of these holds `longest` of them. -/
structure Spread (c : Cache κ ν) (entries : List (Entry κ ν)) (longest : Nat) : Prop where
  chain : ∀ i < c.chainCount, ∃ slots, c.chains.chain c.nodes i = .ok slots ∧
    slots.length = c.load entries i
  greatest : IsGreatest (c.load entries '' Set.Iio c.chainCount) longest
  sum : ((List.range c.chainCount).map (c.load entries)).sum = c.size
  longest_le : longest ≤ c.size
  size_le : c.size ≤ c.chainCount * longest

namespace Shows

variable [BEq κ] {c : Cache κ ν} {s : Shelf κ ν}

theorem load_eq (sh : c.Shows s) (i : Nat) : c.load s.entries i = s.chainLength i := by
  rw [load, Shelf.entries, List.countP_map, chainCount, sh.hash, sh.chainCount]
  rfl

theorem spread (sh : c.Shows s) : c.Spread s.entries s.longestChain := by
  have hload : c.load s.entries = s.chainLength := funext sh.load_eq
  have hpos : 0 < s.chainCount := sh.chainCount ▸ c.chains.heads_pos
  obtain ⟨C, hC⟩ := sh.wired.chains
  refine ⟨fun i hi => ⟨C i, Chains.chain_eq hC.toLists hi (sh.length_le_live hC hi), ?_⟩, ?_, ?_,
    ?_, ?_⟩
  · rw [sh.load_eq, sh.length_chain hC hi]
  · rw [hload, chainCount, sh.chainCount]
    exact s.isGreatest_longestChain hpos
  · rw [hload, chainCount, sh.chainCount, sh.size_eq]
    exact s.sum_chainLength hpos
  · rw [sh.size_eq]
    exact s.longestChain_le_size hpos
  · rw [chainCount, sh.chainCount, sh.size_eq]
    exact s.size_le_mul hpos

end Shows

variable [BEq κ] [EquivBEq κ] [Inhabited ν] {hash : κ → UInt64} {c : Cache κ ν}

/-- **Chain lengths.** Each chain of a reachable cache is as long as there are entries whose hash
selects it, the longest chain is the greatest of these lengths, and the lengths add up to the number
of entries. -/
theorem reachable_spread (hc : c.Reachable hash) : ∃ entries longest,
    c.toList = .ok entries ∧ c.longestChain = .ok longest ∧ c.Spread entries longest := by
  obtain ⟨s, sh⟩ := hc.exists_shows_keying
  exact ⟨s.entries, s.longestChain, @Shows.toList_eq κ ν (keying hash) c s sh,
    @Shows.longestChain_eq κ ν (keying hash) c s sh, @Shows.spread κ ν (keying hash) c s sh⟩

/-- Chain lengths after a node was taken over by a key of another chain. -/
theorem reachable_spread_taken_over : ∃ answers c,
    (empty 2 2 .bySize HashScheme.identity.hash : Cache Int64 Unit).run
      [.command (.push none ⟨0, ()⟩), .command (.push none ⟨2, ()⟩),
        .command (.push none ⟨3, ()⟩)] = .ok (answers, c) ∧
    ∃ entries longest, c.toList = .ok entries ∧ c.longestChain = .ok longest ∧
      c.Spread entries longest := by
  have sh := shows_empty (κ := Int64) (ν := Unit) (agrees_of_lawful HashScheme.identity.hash) 2 2
    .bySize .initial
  obtain ⟨c, hc, -⟩ := sh.follows_run _
  exact ⟨_, c, hc, reachable_spread ((Reachable.empty ..).run hc)⟩

end Cache
end RecencyCache
