import RecencyCache.Proofs.Cache.Keying

/-!
# Every walk ends

The functions that follow links count down a number of steps, and running out of them is a fault.
The walks themselves need no such number. `Walks next start l` says that following `next` from
`start`, for as long as it leads on, visits `l` and ends; `Evicts c l c'` says the same of popping
for as long as an entry has to leave. `WalksEnd` names all walks of a cache, each with its end: no
node is visited twice, there are no more steps than entries, and the counting function finds what
the walk finds (`reachable_walksEnd`).
-/
namespace RecencyCache.Cache

variable {κ ν : Type}

/-! ## Evicting -/

/-- Popping for as long as an entry has to leave pops the entries `l`, no pop is refused, and what
is left is `c'`. -/
inductive Evicts : Cache κ ν → List (Entry κ ν) → Cache κ ν → Prop
  | stop {c : Cache κ ν} (h : c.wouldEvict c.size = .ok false) : Evicts c [] c
  | pop {c d c' : Cache κ ν} {e : Entry κ ν} {l : List (Entry κ ν)}
    (h : c.wouldEvict c.size = .ok true) (hpop : c.pop = .ok (.ok e, d)) (rest : Evicts d l c') :
    Evicts c (e :: l) c'

theorem evictWithin_of_evicts {c c' : Cache κ ν} {l : List (Entry κ ν)} (h : c.Evicts l c')
    {m : Nat} (hm : l.length ≤ m) : c.evictWithin m = .ok (l.length, c') := by
  induction h generalizing m with
  | stop h => cases m <;> simp [evictWithin, h]
  | pop h hpop rest ih =>
    obtain ⟨m, rfl⟩ := Nat.exists_eq_add_of_le' (Nat.lt_of_lt_of_le (Nat.succ_pos _) hm)
    have hrest := ih (Nat.le_of_succ_le_succ hm)
    simp [evictWithin, h, hpop, hrest]

/-! ## All walks of a cache -/

/-- The search for an entry with a hash looks at no node twice and at no more nodes than there are
entries, and finds what `r` says. -/
def SearchEnds (c : Cache κ ν) (hash : UInt64) (accepts : Entry κ ν → Bool)
    (r : Except Fault (Option SlotId)) : Prop :=
  ∃ l, Walks (Chains.searchNext c.nodes hash accepts) c.chains.heads[c.chains.select hash] l ∧
    l.Nodup ∧ l.length ≤ c.size ∧ r = .ok (l.find? (Chains.Matches c.nodes hash accepts))

/-- The eviction of all entries that have to leave takes no more pops than there are entries, and
has the result `r`. -/
def EvictionEnds (c : Cache κ ν) (r : Except Fault (Nat × Cache κ ν)) : Prop :=
  ∃ l c', c.Evicts l c' ∧ l.length ≤ c.size ∧ r = .ok (l.length, c')

/-- Every walk ends, after no more steps than there are entries. -/
structure WalksEnd (c : Cache κ ν) : Prop where
  search : ∀ hash accepts, c.SearchEnds hash accepts (c.chains.find c.nodes hash accepts)
  chain : ∀ i < c.chainCount, ∃ l, Walks (Strand.chain.next c.nodes) (c.chains.head? i) l ∧
    l.Nodup ∧ l.length ≤ c.size ∧ c.chains.chain c.nodes i = .ok l
  /-- The order has the same nodes from both ends. -/
  order : ∃ l, Walks (Strand.recency.next c.nodes) c.order.head l ∧
    Walks (Strand.recency.prev c.nodes) c.order.tail l.reverse ∧ l.Nodup ∧ l.length = c.size
  /-- Fewer positions follow a position than there are entries, and none follows a stale one. -/
  positions : ∀ pos, ∃ l, Walks c.positionAfter? (some pos) (pos :: l) ∧ (pos :: l).Nodup ∧
    l.length ≤ c.size - 1
  setCapacity : ∀ n, { c with capacity := n }.EvictionEnds (c.setCapacity n)
  setWindow : ∀ d, { c with policy := c.policy.withWindow d }.EvictionEnds (c.setWindow d)

namespace Shows

variable [BEq κ] {c : Cache κ ν} {s : Shelf κ ν} {a b : List (Held κ ν)}

theorem walks_positionAfter? (sh : c.Shows s) (hs : s.held = a ++ b) :
    Walks c.positionAfter? (b.head?.map s.positionOf) (b.map s.positionOf) := by
  induction b generalizing a with
  | nil => exact .stop
  | cons h b ih =>
    have hh : h ∈ s.held := hs ▸ List.mem_append_right a List.mem_cons_self
    have hrest := ih (a := a ++ [h]) (by simpa using hs)
    refine .step ?_ hrest
    rw [sh.positionAfter?_eq, sh.inv.at?_eq_some_iff.2 ⟨hh, rfl⟩, Option.bind_some,
      sh.inv.after?_eq hs]

theorem exists_walks_positionAfter? (sh : c.Shows s) (pos : Position) :
    ∃ l, Walks c.positionAfter? (some pos) (pos :: l) ∧ (pos :: l).Nodup ∧
      l.length ≤ c.size - 1 := by
  cases hat : s.at? pos with
  | none =>
    refine ⟨[], .step ?_ .stop, List.nodup_singleton pos, Nat.zero_le _⟩
    rw [sh.positionAfter?_eq, hat]
    rfl
  | some h =>
    obtain ⟨hh, rfl⟩ := sh.inv.at?_eq_some_iff.1 hat
    obtain ⟨a, b, hs⟩ := List.append_of_mem hh
    have hnodup : ((h :: b).map s.positionOf).Nodup := by
      refine List.Nodup.of_map Position.slot ?_
      have hslots := sh.inv.slots
      rw [Shelf.slots, hs, List.map_append] at hslots
      rw [List.map_map]
      exact hslots.sublist (List.sublist_append_right _ _)
    refine ⟨b.map s.positionOf, sh.walks_positionAfter? hs, hnodup, ?_⟩
    rw [sh.size_eq, Shelf.size, hs]
    simp only [List.length_map, List.length_append, List.length_cons]
    omega

/-- Every pop goes through, and leaves one record less. -/
theorem exists_evicts {n : Nat} (sh : c.Shows s) (hn : s.size = n) :
    ∃ l c', c.Evicts l c' ∧ l.length ≤ n := by
  have hover : c.wouldEvict c.size = .ok (s.overfull s.size) := by
    rw [sh.size_eq, sh.wouldEvict_eq]
  induction n generalizing c s with
  | zero =>
    rw [hn, Shelf.not_overfull_zero] at hover
    exact ⟨[], c, .stop hover, Nat.le_refl 0⟩
  | succ n ih =>
    cases ho : s.overfull s.size with
    | false =>
      rw [ho] at hover
      exact ⟨[], c, .stop hover, Nat.zero_le _⟩
    | true =>
      rw [ho] at hover
      obtain ⟨d, hd, sh'⟩ := sh.follows_pop
      obtain ⟨h, hold, hpop⟩ := Shelf.exists_pop (s := s) (by omega)
      have hsize := sh.inv.size_drop (Shelf.mem_of_oldest? hold)
      rw [hpop] at hd sh'
      obtain ⟨l, c', hl, hle⟩ := ih sh' (Nat.succ.inj (hsize.trans hn))
        (by rw [sh'.size_eq, sh'.wouldEvict_eq])
      exact ⟨h.entry :: l, c', .pop hover hd hl, Nat.succ_le_succ hle⟩

theorem evictionEnds (sh : c.Shows s) : c.EvictionEnds c.evictExcess := by
  obtain ⟨l, c', hl, hle⟩ := sh.exists_evicts sh.size_eq.symm
  exact ⟨l, c', hl, hle, evictWithin_of_evicts hl hle⟩

theorem walksEnd (sh : c.Shows s) : c.WalksEnd := by
  obtain ⟨C, hC⟩ := sh.wired.chains
  have hlen : ∀ i < c.chains.count, (C i).length ≤ c.size := by
    intro i hi
    rw [sh.size_eq, ← sh.stores.live]
    exact sh.length_le_live hC hi
  refine ⟨fun hash accepts => ?_, fun i hi => ?_, ?_, sh.exists_walks_positionAfter?, fun n => ?_,
    fun d => ?_⟩
  · have hi := Chains.home_lt c.chains hash
    obtain ⟨l, hl, hw, -⟩ := hC.exists_search hash accepts
    rw [← Chains.heads_select] at hw
    refine ⟨l, hw, (hC.nodup _ hi).sublist hl.sublist, Nat.le_trans hl.length_le (hlen _ hi), ?_⟩
    refine Chains.findFrom_of_walks hw ?_
    exact Nat.le_trans hl.length_le (sh.length_le_live hC hi)
  · have hchain := Chains.chain_eq hC.toLists hi (sh.length_le_live hC hi)
    exact ⟨C i, hC.toLists.walks hi, hC.nodup i hi, hlen i hi, hchain⟩
  · obtain ⟨hn, hsize, hf, hb⟩ := Recency.lists_iff_walks.1 sh.wired.order
    exact ⟨s.slots, hf, hb, hn, hsize.symm⟩
  · exact (sh.shows_limits (fun _ => n) id).evictionEnds
  · exact (sh.shows_limits id (·.withWindow d)).evictionEnds

end Shows

variable [BEq κ] [EquivBEq κ] [Inhabited ν] {hash : κ → UInt64} {c : Cache κ ν}

/-- **Every walk ends.** This is so in every reachable cache, whatever its hash function, and also
of the search that looks up a key. -/
theorem reachable_walksEnd (hc : c.Reachable hash) :
    c.WalksEnd ∧ ∀ k, c.SearchEnds (c.hash k) (·.key == k) (c.slot? k) := by
  obtain ⟨s, sh⟩ := hc.exists_shows_keying
  have h : c.WalksEnd := @Shows.walksEnd κ ν (keying hash) c s sh
  exact ⟨h, fun k => h.search (c.hash k) (·.key == k)⟩

/-- All entries on one chain, after a node was taken over and another one freed. -/
theorem reachable_walksEnd_one_chain : ∃ answers c,
    (empty 2 1 .bySize (HashScheme.constant 7).hash : Cache Int64 Unit).run
      [.command (.push none ⟨0, ()⟩), .command (.push none ⟨1, ()⟩),
        .command (.push none ⟨2, ()⟩), .command (.take 1)] = .ok (answers, c) ∧
      c.WalksEnd ∧ ∀ k, c.SearchEnds (c.hash k) (·.key == k) (c.slot? k) := by
  have sh := shows_empty (κ := Int64) (ν := Unit) (agrees_of_lawful (HashScheme.constant 7).hash)
    2 1 .bySize .initial
  obtain ⟨c, hc, -⟩ := sh.follows_run _
  exact ⟨_, c, hc, reachable_walksEnd ((Reachable.empty ..).run hc)⟩

end RecencyCache.Cache
