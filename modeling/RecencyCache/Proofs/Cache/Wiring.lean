import RecencyCache.Cache.Basic
import RecencyCache.Proofs.Chains
import RecencyCache.Proofs.Recency
import RecencyCache.Proofs.Shelf

/-!
# Nodes on both strands

`Cache.Strung c l C` says that the order of recency runs through the slots of `l` and chain `s`
through those of `C s`, and that these are the same slots, each on the chain of its node. On such a
cache `link`, `unlink` and a promotion go through and are list operations on `l` and on one chain;
of a node they change nothing but its links (`Rewired`). The other way round, a change of nodes that
keeps the links and hashes of the slots of `l` keeps the cache strung (`Strung.of_nodes`), and the
lists leave no choice of links (`Strung.get?_eq`). `Cache.Wired c l` leaves the chains unnamed.
-/
namespace RecencyCache

namespace Node

variable {κ ν : Type}

/-- What a node stores beside its links. -/
def load (n : Node κ ν) : Record κ ν × UInt64 := (⟨n.entry, n.stamp⟩, n.hash)

/-- What the chain of a node depends on. -/
def chained (n : Node κ ν) : UInt64 × Link := (n.hash, n.chain)

/-- What both strands depend on. -/
def wiring (n : Node κ ν) : Link × UInt64 × Link := (n.recency, n.chained)

theorem load_bare (s : Strand) : load ∘ bare s = (load : Node κ ν → _) := by
  cases s <;> rfl

theorem chained_bare : chained ∘ bare .recency = (chained : Node κ ν → _) := rfl

end Node

/-! ## Chains that hold given slots -/

namespace Chains

variable {κ ν : Type}

/-- The chains hold the slots of `l`, each on the chain of its node, and no others. -/
structure Hold (c : Chains) (nodes : Strand.Nodes κ ν) (C : Nat → List SlotId) (l : List SlotId) :
    Prop extends c.Lists nodes C where
  sub : ∀ s < c.count, ∀ i ∈ C s, i ∈ l
  mem : ∀ i ∈ l, ∀ n, nodes.get? i = some n → i ∈ C (Chains.home c.count n.hash)

variable {c : Chains} {p q nodes : Strand.Nodes κ ν} {C : Nat → List SlotId}
  {l a b : List SlotId} {i : SlotId} {n : Node κ ν}

/-- Chains depend on the hashes and chain links of the nodes on them, and on nothing else. -/
theorem Hold.of_nodes (h : c.Hold p C l)
    (hq : ∀ i ∈ l, (q.get? i).map Node.chained = (p.get? i).map Node.chained) :
    c.Hold q C l := by
  refine ⟨⟨h.head, h.nodup, ?_, ?_⟩, h.sub, ?_⟩
  · intro s hs i hi
    have hlink := congrArg (Option.map Prod.snd) (hq i (h.sub s hs i hi))
    simp only [Option.map_map] at hlink
    exact hlink.trans (h.threads s hs i hi)
  · intro s hs i hi
    obtain ⟨n, hn, hhome⟩ := h.home s hs i hi
    have hget := hq i (h.sub s hs i hi)
    rw [hn, Option.map_some, Option.map_eq_some_iff] at hget
    obtain ⟨m, hm, heq⟩ := hget
    have hhash : m.hash = n.hash := congrArg Prod.fst heq
    exact ⟨m, hm, by rw [hhash, hhome]⟩
  · intro i hi m hm
    have hget := hq i hi
    rw [hm, Option.map_some, eq_comm, Option.map_eq_some_iff] at hget
    obtain ⟨n, hn, heq⟩ := hget
    have hhash : n.hash = m.hash := congrArg Prod.fst heq
    rw [← hhash]
    exact h.mem i hi n hn

theorem hold_empty (count : Nat) (nodes : Strand.Nodes κ ν) :
    (empty count).Hold nodes (fun _ => []) [] :=
  ⟨lists_empty count nodes, fun _ _ _ hi => hi, fun _ hi => nomatch hi⟩

/-- The chains with slot `i` in front of chain `s`. -/
def consAt (C : Nat → List SlotId) (s : Nat) (i : SlotId) : Nat → List SlotId :=
  Function.update C s (i :: C s)

/-- The chains without slot `i` on chain `s`. -/
def eraseAt (C : Nat → List SlotId) (s : Nat) (i : SlotId) : Nat → List SlotId :=
  Function.update C s ((C s).erase i)

theorem eraseAt_consAt (C : Nat → List SlotId) (s : Nat) (i : SlotId) :
    eraseAt (consAt C s i) s i = C := by
  rw [eraseAt, consAt, Function.update_self, List.erase_cons_head, Function.update_idem,
    Function.update_eq_self]

theorem Hold.exists_prepend (h : c.Hold nodes C l) (hi : nodes.get? i = some n) (hil : i ∉ l) :
    ∃ c' q, c.prepend nodes i = .ok (c', q) ∧ c'.count = c.count ∧
      c'.Hold q (consAt C (Chains.home c.count n.hash) i) (i :: l) ∧
      q.map (Node.bare .chain) = nodes.map (Node.bare .chain) := by
  have hs := home_lt c n.hash
  obtain ⟨c', q, hq, hcount, hlists, hr⟩ :=
    Chains.exists_prepend h.toLists hi fun hic => hil (h.sub _ hs i hic)
  refine ⟨c', q, hq, hcount, ⟨hlists, ?_, ?_⟩, hr.bare⟩ <;> rw [hcount]
  · intro s hsc j hj
    by_cases hsn : s = Chains.home c.count n.hash
    · subst hsn
      rw [consAt, Function.update_self] at hj
      exact (List.mem_cons.1 hj).elim (fun e => by simp [e])
        fun hj => List.mem_cons_of_mem _ (h.sub _ hsc j hj)
    · rw [consAt, Function.update_of_ne hsn] at hj
      exact List.mem_cons_of_mem _ (h.sub s hsc j hj)
  · intro j hj m hm
    obtain ⟨m', hm', hhash⟩ := home_of_bare hr.bare.symm hm
    rw [← hhash]
    rcases List.mem_cons.1 hj with rfl | hj
    · rw [hi] at hm'
      cases hm'
      simp [consAt]
    · have hjC := h.mem j hj m' hm'
      by_cases hmn : Chains.home c.count m'.hash = Chains.home c.count n.hash
      · rw [hmn] at hjC ⊢
        simp [consAt, hjC]
      · simpa [consAt, Function.update_of_ne hmn] using hjC

theorem Hold.exists_remove (h : c.Hold nodes C (a ++ i :: b)) (hn : (a ++ i :: b).Nodup)
    (hi : nodes.get? i = some n) :
    ∃ c' q, c.remove nodes i = .ok (c', q) ∧ c'.count = c.count ∧
      c'.Hold q (eraseAt C (Chains.home c.count n.hash) i) (a ++ b) ∧
      q.map (Node.bare .chain) = nodes.map (Node.bare .chain) := by
  have hs := home_lt c n.hash
  have hnot : i ∉ a ++ b := (List.nodup_cons.1 (List.nodup_middle.1 hn)).1
  obtain ⟨a', b', hC⟩ := List.append_of_mem (h.mem i (by simp) n hi)
  have hiC : i ∉ a' ++ b' := (List.nodup_cons.1 (List.nodup_middle.1 (hC ▸ h.nodup _ hs))).1
  obtain ⟨c', q, hq, hcount, hlists, hr⟩ := Chains.exists_remove h.toLists hi hC
  have herase : (C (Chains.home c.count n.hash)).erase i = a' ++ b' := by
    rw [hC, List.erase_append_right _ fun hia => hiC (List.mem_append_left b' hia),
      List.erase_cons_head]
  rw [eraseAt, herase]
  -- a slot other than `i` is on the list before exactly if it is on it afterwards
  have hl : ∀ j ≠ i, ∀ x y : List SlotId, j ∈ x ++ i :: y ↔ j ∈ x ++ y := by
    intro j hj x y
    simp [hj]
  refine ⟨c', q, hq, hcount, ⟨hlists, ?_, ?_⟩, hr.bare⟩ <;> rw [hcount]
  · intro s hsc j hj
    have hji : j ≠ i := by
      rintro rfl
      by_cases hsn : s = Chains.home c.count n.hash
      · rw [hsn, Function.update_self] at hj
        exact hiC hj
      · rw [Function.update_of_ne hsn] at hj
        exact hsn (h.eq_home hi hsc hj)
    rw [← hl j hji]
    refine h.sub s hsc j ?_
    by_cases hsn : s = Chains.home c.count n.hash
    · rw [hsn, Function.update_self] at hj
      rw [hsn, hC]
      exact (hl j hji ..).2 hj
    · rwa [Function.update_of_ne hsn] at hj
  · intro j hj m hm
    have hji : j ≠ i := fun e => hnot (e ▸ hj)
    obtain ⟨m', hm', hhash⟩ := home_of_bare hr.bare.symm hm
    rw [← hhash]
    have hjC := h.mem j ((hl j hji ..).2 hj) m' hm'
    by_cases hmn : Chains.home c.count m'.hash = Chains.home c.count n.hash
    · rw [hmn, hC] at hjC
      rw [hmn, Function.update_self]
      exact (hl j hji ..).1 hjC
    · rwa [Function.update_of_ne hmn]

theorem Hold.congr {C' : Nat → List SlotId} (h : c.Hold nodes C l)
    (hC : ∀ s < c.count, C' s = C s) : c.Hold nodes C' l where
  head s hs := by rw [hC s hs]; exact h.head s hs
  nodup s hs := by rw [hC s hs]; exact h.nodup s hs
  threads s hs := by rw [hC s hs]; exact h.threads s hs
  home s hs := by rw [hC s hs]; exact h.home s hs
  sub s hs := by rw [hC s hs]; exact h.sub s hs
  mem j hj m hm := by rw [hC _ (home_lt c m.hash)]; exact h.mem j hj m hm

/-- The chains of a single node. -/
theorem Hold.eq_of_singleton (h : c.Hold nodes C [i]) (hi : nodes.get? i = some n) {s : Nat}
    (hs : s < c.count) : C s = if s = Chains.home c.count n.hash then [i] else [] := by
  have hsub : ∀ j ∈ C s, j = i := fun j hj => List.mem_singleton.1 (h.sub s hs j hj)
  split
  · rename_i hhome
    have hmem : i ∈ C s := hhome ▸ h.mem i (List.mem_singleton_self i) n hi
    refine List.perm_singleton.1 ((List.perm_ext_iff_of_nodup (h.nodup s hs)
      (List.nodup_singleton i)).2 fun j => ?_)
    rw [List.mem_singleton]
    exact ⟨hsub j, fun hj => hj ▸ hmem⟩
  · rename_i hhome
    rw [List.eq_nil_iff_forall_not_mem]
    intro j hj
    obtain rfl := hsub j hj
    exact hhome (h.eq_home hi hs hj)

end Chains

/-! ## Both strands -/

namespace Cache

variable {κ ν : Type}

/-- The order runs through the slots of `l`, and chain `s` through those of `C s`. -/
structure Strung (c : Cache κ ν) (l : List SlotId) (C : Nat → List SlotId) : Prop where
  order : c.order.Lists c.nodes l
  chains : c.chains.Hold c.nodes C l

/-- The order runs through the slots of `l`, and the chains hold them. -/
structure Wired (c : Cache κ ν) (l : List SlotId) : Prop where
  order : c.order.Lists c.nodes l
  chains : ∃ C, c.chains.Hold c.nodes C l

/-- `c'` is `c` but for links, the ends of the order and the heads of the chains. -/
structure Rewired (c c' : Cache κ ν) : Prop where
  load : c'.nodes.map Node.load = c.nodes.map Node.load
  count : c'.chains.count = c.chains.count
  rest : c' = { c with nodes := c'.nodes, chains := c'.chains, order := c'.order }

variable {c c' : Cache κ ν} {l a b : List SlotId} {C : Nat → List SlotId} {i : SlotId}
  {n : Node κ ν}

theorem Strung.wired (st : c.Strung l C) : c.Wired l := ⟨st.order, C, st.chains⟩

theorem Wired.exists_strung (w : c.Wired l) : ∃ C, c.Strung l C := by
  obtain ⟨C, hC⟩ := w.chains
  exact ⟨C, w.order, hC⟩

theorem Wired.nodup (w : c.Wired l) : l.Nodup := w.order.nodup

theorem Wired.isSome_get? (w : c.Wired l) (hi : i ∈ l) : (c.nodes.get? i).isSome :=
  w.order.threads.isSome_get? hi

theorem Strung.of_nodes {q : Strand.Nodes κ ν} (st : c.Strung l C)
    (hq : ∀ i ∈ l, (q.get? i).map Node.wiring = (c.nodes.get? i).map Node.wiring) :
    { c with nodes := q }.Strung l C := by
  refine ⟨st.order.of_link?_eq fun i hi => ?_, st.chains.of_nodes fun i hi => ?_⟩
  · have hlink := congrArg (Option.map Prod.fst) (hq i hi)
    simp only [Option.map_map] at hlink
    exact hlink
  · have hchained := congrArg (Option.map Prod.snd) (hq i hi)
    simp only [Option.map_map] at hchained
    exact hchained

theorem Wired.of_nodes {q : Strand.Nodes κ ν} (w : c.Wired l)
    (hq : ∀ i ∈ l, (q.get? i).map Node.wiring = (c.nodes.get? i).map Node.wiring) :
    { c with nodes := q }.Wired l := by
  obtain ⟨C, st⟩ := w.exists_strung
  exact (st.of_nodes hq).wired

/-- A change of one node that keeps its links and its hash. -/
theorem Wired.modify {q : Strand.Nodes κ ν} {f : Node κ ν → Node κ ν} (w : c.Wired l)
    (hq : c.nodes.modify i f = .ok q) (hf : ∀ n, (f n).wiring = n.wiring) :
    { c with nodes := q }.Wired l := by
  refine w.of_nodes fun j _ => ?_
  rw [Pool.get?_modify hq]
  split
  · rw [Option.map_map]
    exact congrArg (Option.map · _) (funext hf)
  · rfl

theorem load_eq_of_bare {p q : Strand.Nodes κ ν} {s : Strand}
    (h : q.map (Node.bare s) = p.map (Node.bare s)) : q.map Node.load = p.map Node.load := by
  rw [← Node.load_bare s]
  exact Pool.map_eq_map_comp h _

/-- Splicing the order leaves the chains as they are. -/
theorem hold_of_bare {p q : Strand.Nodes κ ν} {ch : Chains} {C : Nat → List SlotId}
    (h : q.map (Node.bare .recency) = p.map (Node.bare .recency)) (hC : ch.Hold p C l) :
    ch.Hold q C l := by
  refine hC.of_nodes fun i _ => ?_
  rw [← Node.chained_bare]
  exact Pool.map_get?_eq (Pool.map_eq_map_comp h _) i

theorem Strung.exists_link (st : c.Strung l C) (hi : c.nodes.get? i = some n) (hil : i ∉ l) :
    ∃ c', c.link i = .ok c' ∧
      c'.Strung (i :: l) (Chains.consAt C (Chains.home c.chains.count n.hash) i) ∧
      c.Rewired c' := by
  obtain ⟨ch, p, hp, hcount, hC, hbare⟩ := st.chains.exists_prepend hi hil
  have horder : c.order.Lists p l :=
    st.order.of_link?_eq fun j _ => Strand.link?_eq_of_bare (by decide) hbare j
  have hip : (p.get? i).isSome := by rw [Pool.isSome_get?_eq hbare, hi, Option.isSome_some]
  obtain ⟨r, q, hq, hr, hrel⟩ := Recency.exists_prepend horder hip hil
  refine ⟨{ c with nodes := q, chains := ch, order := r }, ?_, ⟨hr, ?_⟩, ?_, hcount, rfl⟩
  · simp only [link, hp, hq, Fault.ok_bind, Fault.pure_eq]
  · exact hold_of_bare hrel.bare hC
  · exact (load_eq_of_bare hrel.bare).trans (load_eq_of_bare hbare)

theorem Strung.exists_unlink (st : c.Strung (a ++ i :: b) C) (hi : c.nodes.get? i = some n) :
    ∃ c', c.unlink i = .ok c' ∧
      c'.Strung (a ++ b) (Chains.eraseAt C (Chains.home c.chains.count n.hash) i) ∧
      c.Rewired c' := by
  obtain ⟨ch, p, hp, hcount, hC, hbare⟩ := st.chains.exists_remove st.order.nodup hi
  have horder : c.order.Lists p (a ++ i :: b) :=
    st.order.of_link?_eq fun j _ => Strand.link?_eq_of_bare (by decide) hbare j
  obtain ⟨r, q, hq, hr, hrel⟩ := Recency.exists_remove horder
  refine ⟨{ c with nodes := q, chains := ch, order := r }, ?_, ⟨hr, ?_⟩, ?_, hcount, rfl⟩
  · simp only [unlink, hp, hq, Fault.ok_bind, Fault.pure_eq]
  · exact hold_of_bare hrel.bare hC
  · exact (load_eq_of_bare hrel.bare).trans (load_eq_of_bare hbare)

theorem exists_link (w : c.Wired l) (hi : (c.nodes.get? i).isSome) (hil : i ∉ l) :
    ∃ c', c.link i = .ok c' ∧ c'.Wired (i :: l) ∧ c.Rewired c' := by
  obtain ⟨n, hn⟩ := Option.isSome_iff_exists.1 hi
  obtain ⟨C, st⟩ := w.exists_strung
  obtain ⟨c', hc', st', hrw⟩ := st.exists_link hn hil
  exact ⟨c', hc', st'.wired, hrw⟩

theorem exists_unlink (w : c.Wired (a ++ i :: b)) :
    ∃ c', c.unlink i = .ok c' ∧ c'.Wired (a ++ b) ∧ c.Rewired c' := by
  obtain ⟨n, hn⟩ := Option.isSome_iff_exists.1 (w.isSome_get? (i := i) (by simp))
  obtain ⟨C, st⟩ := w.exists_strung
  obtain ⟨c', hc', st', hrw⟩ := st.exists_unlink hn
  exact ⟨c', hc', st'.wired, hrw⟩

theorem exists_promote (w : c.Wired (a ++ i :: b)) :
    ∃ r q, c.order.promote c.nodes i = .ok (r, q) ∧
      { c with nodes := q, order := r }.Wired (i :: (a ++ b)) ∧
      q.map Node.load = c.nodes.map Node.load := by
  obtain ⟨C, hC⟩ := w.chains
  obtain ⟨r, q, hq, hr, hrel⟩ := Recency.exists_promote w.order
  refine ⟨r, q, hq, ⟨hr, C, ?_⟩, load_eq_of_bare hrel.bare⟩
  have hC' := hold_of_bare hrel.bare hC
  have hmem : ∀ j, j ∈ i :: (a ++ b) ↔ j ∈ a ++ i :: b := fun j => List.perm_middle.symm.mem_iff
  exact ⟨hC'.toLists, fun s hs j hj => (hmem j).2 (hC'.sub s hs j hj),
    fun j hj => hC'.mem j ((hmem j).1 hj)⟩

/-! ## Lists leave no choice -/

section Unique

variable (st : c.Strung l C) (st' : c'.Strung l C)
include st st'

theorem Strung.order_eq : c'.order = c.order := by
  ext1
  · rw [st'.order.head, st.order.head]
  · rw [st'.order.tail, st.order.tail]
  · rw [st'.order.size, st.order.size]

theorem Strung.chains_eq (hcount : c'.chains.count = c.chains.count) : c'.chains = c.chains := by
  refine Chains.eq_of_head? hcount fun s hs => ?_
  rw [st.chains.head s hs, st'.chains.head s (hcount ▸ hs)]

/-- Nodes with the same load in the same slot have the same links. -/
theorem Strung.get?_eq (hcount : c'.chains.count = c.chains.count) (hi : i ∈ l)
    (hload : (c'.nodes.get? i).map Node.load = (c.nodes.get? i).map Node.load) :
    c'.nodes.get? i = c.nodes.get? i := by
  obtain ⟨n, hn⟩ := Option.isSome_iff_exists.1 (st.wired.isSome_get? hi)
  obtain ⟨n', hn'⟩ := Option.isSome_iff_exists.1 (st'.wired.isSome_get? hi)
  rw [hn, hn', Option.map_some, Option.map_some, Option.some.injEq] at hload
  obtain ⟨hrecord, hhash⟩ := Prod.mk.inj hload
  have hlink : ∀ {s : Strand} {l : List SlotId}, i ∈ l → s.Threads c.nodes l →
      s.Threads c'.nodes l → n'.link s = n.link s := by
    intro s l hi ht ht'
    have hlinks := (ht' i hi).trans (ht i hi).symm
    rwa [Strand.link?, Strand.link?, hn, hn', Option.map_some, Option.map_some,
      Option.some.injEq] at hlinks
  have hs := Chains.home_lt c.chains n.hash
  rw [hn, hn', Option.some.injEq]
  ext1
  · exact congrArg Record.entry hrecord
  · exact congrArg Record.stamp hrecord
  · exact hhash
  · exact hlink hi st.order.threads st'.order.threads
  · exact hlink (st.chains.mem i hi n hn) (st.chains.threads _ hs)
      (st'.chains.threads _ (hcount ▸ hs))

end Unique

end Cache
end RecencyCache
