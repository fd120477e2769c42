import RecencyCache.Proofs.Cache.Run
import RecencyCache.Proofs.Roster.Size

/-!
# Taking over a node

A push that displaces the oldest entry takes over its node: it exchanges the entry in place and
never frees the slot. The cache is then the very cache that popping the oldest entry and storing the
new one in a node of its own lead to, node by node and slot by slot: `push_eq_pop_insertNew`. For
the popped slot is on top of the free stack, and a node that was taken out keeps none of its links
(`exists_of_unlink`).
-/
namespace RecencyCache

variable {κ ν : Type}

/-! ## A node without neighbours -/

theorem Chains.link?_of_remove {c c' : Chains} {p q : Strand.Nodes κ ν} {i : SlotId}
    (h : c.remove p i = .ok (c', q)) : Strand.chain.link? q i = some {} := by
  obtain ⟨n, -, h⟩ := Fault.exists_of_bind h
  obtain ⟨⟨link, p'⟩, hp', h⟩ := Fault.exists_of_bind h
  cases h
  exact (Strand.link?_of_detach hp').1

theorem Recency.link?_of_remove {r r' : Recency} {p q : Strand.Nodes κ ν} {i : SlotId}
    (h : r.remove p i = .ok (r', q)) : Strand.recency.link? q i = some {} ∧
      Strand.chain.link? q i = Strand.chain.link? p i := by
  obtain ⟨⟨link, p'⟩, hp', h⟩ := Fault.exists_of_bind h
  obtain ⟨hlink, hbare⟩ := Strand.link?_of_detach hp'
  cases hsize : r.size with
  | zero =>
    simp only [hsize] at h
    cases h
  | succ size =>
    simp only [hsize] at h
    cases h
    exact ⟨hlink, Strand.link?_eq_of_bare (by decide) hbare i⟩

namespace Cache

variable {c c' c₁ : Cache κ ν} {i : SlotId} {e : Entry κ ν}

/-- A node that was taken out of its chain and out of the order has no neighbours. -/
theorem exists_of_unlink (h : c.unlink i = .ok c') :
    ∃ n, c'.nodes.get? i = some n ∧ n.recency = {} ∧ n.chain = {} := by
  obtain ⟨⟨chains, p⟩, hp, h⟩ := Fault.exists_of_bind h
  obtain ⟨⟨order, q⟩, hq, h⟩ := Fault.exists_of_bind h
  cases h
  obtain ⟨hrecency, hchain⟩ := Recency.link?_of_remove hq
  rw [Chains.link?_of_remove hp] at hchain
  obtain ⟨n, hn, hlink⟩ := Option.map_eq_some_iff.1 hrecency
  rw [Strand.link?, hn] at hchain
  exact ⟨n, hn, hlink, Option.some.inj hchain⟩

/-- Linking a node counts nothing. -/
theorem link_count (c : Cache κ ν) (ev : Event) (i : SlotId) :
    (c.count ev).link i = (·.count ev) <$> c.link i := by
  unfold link
  show (c.chains.prepend c.nodes i >>= _) = _
  cases c.chains.prepend c.nodes i with
  | error f => rfl
  | ok r =>
    show (c.order.prepend r.2 i >>= _) = (_ <$> (c.order.prepend r.2 i >>= _))
    cases c.order.prepend r.2 i with
    | error f => rfl
    | ok r' => rfl

theorem insertNew_of_store {q : Strand.Nodes κ ν}
    (hq : c.nodes.store { entry := e, stamp := c.clock.now, hash := c.hash e.key } =
      .ok (.granted i q)) (hc' : { c with nodes := q }.link i = .ok c') :
    c.insertNew e = .ok (.ok true, c'.count .insertion) := by
  simp only [insertNew, hq, hc', Fault.ok_bind, Fault.pure_eq]

/-- Where the slot that a pop frees can be stored in again, exchanging the entry of that slot in
place leads to the same cache. -/
theorem insertNew_of_discard {old : Option (Entry κ ν)} (hc : c.discard i = .ok (old, c₁))
    (hc' : c.replace i e = .ok c') (hl : c₁.nodes.reachedLimit? = none) :
    (c₁.count .eviction).insertNew e = .ok (.ok true, c') := by
  obtain ⟨u, hu, hc⟩ := Fault.exists_of_bind hc
  obtain ⟨⟨n?, q⟩, hq, hc⟩ := Fault.exists_of_bind hc
  cases hc
  obtain ⟨u', hu', hc'⟩ := Fault.exists_of_bind hc'
  obtain rfl : u = u' := Except.ok.inj (hu.symm.trans hu')
  obtain ⟨r, hr, hc'⟩ := Fault.exists_of_bind hc'
  obtain ⟨v, hv, hc'⟩ := Fault.exists_of_bind hc'
  cases hc'
  obtain ⟨n, hn, hrecency, hchain⟩ := exists_of_unlink hu
  -- the node that is exchanged in place is the node that a store makes: it has no links
  have hnew : { n with entry := e, stamp := u.clock.now, hash := u.hash e.key } =
      ({ entry := e, stamp := u.clock.now, hash := u.hash e.key } : Node κ ν) := by
    ext1
    · rfl
    · rfl
    · rfl
    · exact hrecency
    · exact hchain
  have hstore := Pool.store_of_release hn hq hr hl
  rw [hnew] at hstore
  have hlink := link_count { u with nodes := r.renew i } .eviction i
  rw [hv] at hlink
  exact insertNew_of_store hstore hlink

end Cache

/-! ## After the oldest record has left -/

namespace Shelf

variable [BEq κ] {s : Shelf κ ν} {h : Held κ ν} {k : κ}

theorem find?_drop_of_none (h : Held κ ν) (hk : s.find? k = none) : (s.drop h).find? k = none :=
  find?_eq_none_iff.2 (without_key_ne hk h.slot)

/-- Nothing has to leave for one more record, where there were no more than the capacity. -/
theorem victim?_drop (inv : s.Inv) (ho : s.oldest? = some h)
    (hsize : s.size ≤ max s.capacity 1) : (s.drop h).victim? = none := by
  have hdrop := inv.size_drop (mem_of_oldest? ho)
  rw [victim?]
  split
  · rename_i hover
    -- the capacity is zero, and there is no record left that could leave
    have hlt : s.capacity < (s.drop h).size + 1 := Policy.lt_of_evicts hover
    exact oldest?_eq_none_iff.2 (by omega)
  · rfl

end Shelf

/-! ## In a cache -/

namespace Cache

variable {c c' c₁ : Cache κ ν} {i : SlotId} {e : Entry κ ν}

section Keyed

variable [BEq κ] [EquivBEq κ] {s : Shelf κ ν} {h : Held κ ν}

namespace Shows

/-- Taking over the node of the oldest entry leads to the cache that a pop and a store lead to. -/
theorem exists_takeover (sh : c.Shows s) (hk : s.find? e.key = none) (ho : s.oldest? = some h)
    (hl : ∀ n, c.nodes.limit = some n → c.size ≤ n) : ∃ c₁ c', c.replace h.slot e = .ok c' ∧
      c.pop = .ok (.ok h.entry, c₁) ∧ c₁.Shows ((s.drop h).count .eviction) ∧
      c₁.insertNew e = .ok (.ok true, c') := by
  have hh := Shelf.mem_of_oldest? ho
  obtain ⟨c', hc', -⟩ := sh.exists_replace hh (Shelf.without_key_ne hk h.slot)
  obtain ⟨c₁, hc₁, sh₁⟩ := sh.exists_discard hh
  have hroom : c₁.nodes.reachedLimit? = none := by
    have hsize := sh.inv.size_drop hh
    rw [sh₁.stores.reachedLimit?_eq, Shelf.reachedLimit?, Option.filter_eq_none_iff]
    intro n hn
    have hle := hl n (sh.stores.limit.trans hn)
    rw [sh.size_eq] at hle
    rw [decide_eq_true_eq]
    omega
  refine ⟨c₁.count .eviction, c', hc', ?_, sh₁.count .eviction, insertNew_of_discard hc₁ hc' hroom⟩
  rw [pop, sh.tail_eq, ho]
  simp only [Option.map_some, hc₁, Fault.ok_bind, Fault.pure_eq]

theorem push_eq_replace (sh : c.Shows s) (hk : s.find? e.key = none) (hv : s.victim? = some h) :
    c.push e = (fun c' => (.ok true, c')) <$> c.replace h.slot e := by
  simp only [push, sh.slot?_eq, hk, sh.victim?_eq, hv, Option.map_none, Option.map_some,
    Fault.ok_bind]
  rfl

theorem push_eq_insertNew (sh : c.Shows s) (hk : s.find? e.key = none) (hv : s.victim? = none) :
    c.push e = c.insertNew e := by
  simp only [push, sh.slot?_eq, hk, sh.victim?_eq, hv, Option.map_none, Fault.ok_bind]

end Shows

variable [Inhabited ν] {hash : κ → UInt64}

/-- **Taking over a node.** Where a push of an absent key takes over the node in slot `i`, and there
are no more entries than the limit on nodes, the push leads to the cache that popping an entry and
storing the new one in a node of its own lead to. Without a window, storing is what the push after
the pop does. -/
theorem push_eq_pop_insertNew (ha : Agrees hash) (hc : c.Reachable hash)
    (hk : c.contains e.key = .ok false) (hv : c.victim? = .ok (some i))
    (hl : ∀ n, c.nodes.limit = some n → c.size ≤ n) :
    ∃ old c₁ c', c.push e = .ok (.ok true, c') ∧ c.replace i e = .ok c' ∧
      c.pop = .ok (.ok old, c₁) ∧ c₁.insertNew e = .ok (.ok true, c') ∧
      (c.policy = .bySize → c₁.push e = .ok (.ok true, c')) := by
  obtain ⟨s, sh, hbounded⟩ := hc.exists_shows_roster (P := Roster.Bounded)
    (fun _ _ _ _ => Nat.zero_le _) (fun _ _ h hr => Roster.bounded_of_change h hr) ha
  rw [sh.contains_eq, Except.ok.injEq, Option.isSome_eq_false_iff, Option.isNone_iff_eq_none] at hk
  rw [sh.victim?_eq, Except.ok.injEq, Option.map_eq_some_iff] at hv
  obtain ⟨h, hv, rfl⟩ := hv
  have ho := Shelf.oldest?_of_victim? hv
  obtain ⟨c₁, c', hc', hpop, sh₁, hinsert⟩ := sh.exists_takeover hk ho hl
  refine ⟨h.entry, c₁, c', ?_, hc', hpop, hinsert, fun hp => ?_⟩
  · rw [sh.push_eq_replace hk hv, hc', Fault.map_ok]
  · have hsize := hbounded (sh.policy.symm.trans hp)
    rw [Shelf.size_roster] at hsize
    rw [sh₁.push_eq_insertNew (Shelf.find?_drop_of_none h hk), hinsert]
    exact Shelf.victim?_drop sh.inv ho hsize

/-- A cache for two entries on one chain, with room for two nodes. -/
def packed : Cache Int64 Unit :=
  (empty 2 1 .bySize (HashScheme.constant 0).hash).limitNodes 2

/-- The node of the oldest entry is taken over by one that goes on the same chain. -/
theorem push_eq_pop_insertNew_packed : ∃ answers c, packed.run [.command (.push none ⟨0, ()⟩),
      .command (.push none ⟨1, ()⟩)] = .ok (answers, c) ∧
    c.contains 2 = .ok false ∧ c.victim? = .ok (some 0) ∧
    (∀ n, c.nodes.limit = some n → c.size ≤ n) ∧
    ∃ old c₁ c', c.push ⟨2, ()⟩ = .ok (.ok true, c') ∧ c.replace 0 ⟨2, ()⟩ = .ok c' ∧
      c.pop = .ok (.ok old, c₁) ∧ c₁.insertNew ⟨2, ()⟩ = .ok (.ok true, c') ∧
      (c.policy = .bySize → c₁.push ⟨2, ()⟩ = .ok (.ok true, c')) := by
  have sh : packed.Shows ((Shelf.empty 2 1 .bySize (HashScheme.constant 0).hash .initial).limitNodes
      2) := (shows_empty (agrees_of_lawful _) ..).shows_limitNodes 2
  obtain ⟨c, hc, sh'⟩ := sh.follows_run [.command (.push none ⟨0, ()⟩),
    .command (.push none ⟨1, ()⟩)]
  have hlimit : perform (empty 2 1 .bySize (HashScheme.constant 0).hash)
      (.command (.limitNodes 2)) = .ok (.limit (some 2), packed) := rfl
  have hreach := ((Reachable.empty 2 1 .bySize .initial).perform hlimit).run hc
  have hk : c.contains 2 = .ok false := sh'.contains_eq 2
  have hv : c.victim? = .ok (some 0) := sh'.victim?_eq
  have hl : ∀ n, c.nodes.limit = some n → c.size ≤ n := by
    intro n hn
    rw [sh'.stores.limit] at hn
    cases hn
    rw [sh'.size_eq]
    decide
  exact ⟨_, c, hc, hk, hv, hl, push_eq_pop_insertNew (agrees_of_lawful _) hreach hk hv hl⟩

end Keyed

end Cache
end RecencyCache
