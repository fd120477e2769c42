import RecencyCache.Proofs.Cache.Run

/-!
# The order and the chains describe the same nodes

`Cache.Coherent c l C` says, in terms of links and stored nodes alone, that both strands of a cache
agree: the order runs through the slots of `l` in both directions, these are the occupied ones, and
each of them lies once on the chain that the hash of its present key selects. Every reachable cache
is coherent, and its audit finds nothing: `reachable_coherent`.
-/
namespace RecencyCache.Cache

variable {κ ν : Type} [BEq κ]

/-- The order runs through the slots of `l`, chain `s` through those of `C s`, and they agree. -/
structure Coherent (c : Cache κ ν) (l : List SlotId) (C : Nat → List SlotId) : Prop where
  forward : ∀ n, Strand.recency.follow c.nodes n c.order.head = .ok (l.take n)
  backward : ∀ n, Strand.recency.followBack c.nodes n c.order.tail = .ok (l.reverse.take n)
  nodup : l.Nodup
  size : l.length = c.size
  occupied : ∀ i, i ∈ l ↔ (c.nodes.get? i).isSome
  chain : ∀ s < c.chainCount, c.chains.chain c.nodes s = .ok (C s)
  chain_nodup : ∀ s < c.chainCount, (C s).Nodup
  /-- A chain holds the occupied slots whose keys belong there. -/
  home : ∀ s < c.chainCount, ∀ i, i ∈ C s ↔
    ∃ n, c.nodes.get? i = some n ∧ (c.hash n.entry.key).toNat % c.chainCount = s
  /-- Forward and backward links of the chains are inverse to each other. -/
  inverse : ∀ i j m n, c.nodes.get? i = some m → c.nodes.get? j = some n →
    (m.chain.next = some j ↔ n.chain.prev = some i)
  /-- The stored hash is that of the key as it is spelled now. -/
  hash : ∀ i n, c.nodes.get? i = some n → n.hash = c.hash n.entry.key
  keys : ∀ i j m n, i ≠ j → c.nodes.get? i = some m → c.nodes.get? j = some n →
    (m.entry.key == n.entry.key) = false

variable {c : Cache κ ν} {s : Shelf κ ν} {i : SlotId} {n : Node κ ν}

namespace Shows

/-- An occupied slot is that of a record. -/
theorem exists_held (sh : c.Shows s) (hi : c.nodes.get? i = some n) :
    ∃ h ∈ s.held, h.slot = i ∧ n.entry = h.entry ∧ n.hash = s.hash h.key := by
  have hsome : (c.nodes.get? i).isSome := by
    rw [hi]
    rfl
  obtain ⟨h, hh, rfl⟩ := Shelf.mem_slots.1 (sh.stores.isSome_get?_iff.1 hsome)
  obtain ⟨m, hm, hload⟩ := sh.stores.exists_node sh.inv hh
  obtain rfl : n = m := Option.some.inj (hi.symm.trans hm)
  exact ⟨h, hh, rfl, congrArg (·.1.entry) hload, congrArg (·.2) hload⟩

/-- The stored hash is that of the key. -/
theorem hash_eq (sh : c.Shows s) (hi : c.nodes.get? i = some n) : n.hash = c.hash n.entry.key := by
  obtain ⟨h, -, -, hentry, hhash⟩ := sh.exists_held hi
  rw [hhash, sh.hash, hentry]

theorem coherent [EquivBEq κ] (sh : c.Shows s) : ∃ C, c.Coherent s.slots C := by
  obtain ⟨C, hC⟩ := sh.wired.chains
  have hhash : ∀ i n, c.nodes.get? i = some n → n.hash = c.hash n.entry.key :=
    fun i n hi => sh.hash_eq hi
  have hocc : ∀ i, i ∈ s.slots ↔ (c.nodes.get? i).isSome :=
    fun i => sh.stores.isSome_get?_iff.symm
  -- a node is on its chain, and its neighbours there are its links
  have hhome : ∀ i n, c.nodes.get? i = some n → i ∈ C (Chains.home c.chains.count n.hash) := by
    intro i n hi
    exact hC.mem i ((hocc i).2 (by rw [hi]; rfl)) n hi
  refine ⟨C, ?_, ?_, sh.inv.slots, ?_, hocc, ?_, hC.nodup, ?_, ?_, hhash, ?_⟩
  · intro n
    rw [sh.wired.order.head]
    exact Strand.follow_eq n sh.wired.order.threads sh.inv.slots
  · intro n
    rw [sh.wired.order.tail]
    exact Strand.followBack_eq n sh.wired.order.threads sh.inv.slots
  · exact sh.wired.order.size.symm
  · exact fun t ht => Chains.chain_eq hC.toLists ht (sh.length_le_live hC ht)
  · intro t ht i
    constructor
    · intro hi
      obtain ⟨n, hn, hhome⟩ := hC.home t ht i hi
      exact ⟨n, hn, by rw [← hhash i n hn]; exact hhome⟩
    · rintro ⟨n, hn, rfl⟩
      rw [← hhash i n hn]
      exact hhome i n hn
  · intro i j m n hi hj
    have hnext := Strand.next_eq_some_iff (j := j) (hC.threads _ (Chains.home_lt c.chains m.hash))
      (hC.nodup _ (Chains.home_lt ..)) (hhome i m hi) hi
    have hprev := Strand.prev_eq_some_iff (i := i) (hC.threads _ (Chains.home_lt c.chains n.hash))
      (hC.nodup _ (Chains.home_lt ..)) (hhome j n hj) hj
    show (m.link .chain).next = some j ↔ (n.link .chain).prev = some i
    rw [hnext, hprev]
    constructor
    · intro hin
      rw [← hC.eq_home hj (Chains.home_lt ..) (hin.subset (by simp))]
      exact hin
    · intro hin
      rw [← hC.eq_home hi (Chains.home_lt ..) (hin.subset (by simp))]
      exact hin
  · intro i j m n hij hi hj
    obtain ⟨x, hx, rfl, hxm, -⟩ := sh.exists_held hi
    obtain ⟨y, hy, rfl, hyn, -⟩ := sh.exists_held hj
    rw [← Bool.not_eq_true, hxm, hyn]
    exact fun hk => hij (congrArg Held.slot (sh.inv.eq_of_key hy hx hk))

end Shows

variable [EquivBEq κ] [Inhabited ν]

/-- **Coherence.** In every reachable cache the order and the chains describe the same nodes, and
the audit finds no disagreement. -/
theorem reachable_coherent {hash : κ → UInt64} (ha : Agrees hash) {c : Cache κ ν}
    (hc : c.Reachable hash) : (∃ l C, c.Coherent l C) ∧ c.verdict = .ok (.ok ()) := by
  obtain ⟨s, sh⟩ := hc.exists_shows ha
  obtain ⟨C, hC⟩ := sh.coherent
  exact ⟨⟨s.slots, C, hC⟩, sh.verdict_eq⟩

/-- Coherence after a key was spelled anew and another one evicted. -/
theorem coherent_after_respelling : ∃ answers c,
    (empty 2 2 .bySize HashScheme.fnv1a.hash : Cache Caseless Unit).run
      [.command (.push none ⟨⟨"ab"⟩, ()⟩), .command (.push none ⟨⟨"AB"⟩, ()⟩),
        .command (.push none ⟨⟨"c"⟩, ()⟩), .command (.push none ⟨⟨"d"⟩, ()⟩)] = .ok (answers, c) ∧
      (∃ l C, c.Coherent l C) ∧ c.verdict = .ok (.ok ()) := by
  have sh := shows_empty (ν := Unit) (agrees_caseless .fnv1a) 2 2 .bySize .initial
  obtain ⟨c, hc, -⟩ := sh.follows_run _
  exact ⟨_, c, hc, reachable_coherent (agrees_caseless .fnv1a) ((Reachable.empty ..).run hc)⟩

end RecencyCache.Cache
