import Mathlib.Logic.Function.Basic
import RecencyCache.Chains
import RecencyCache.Proofs.Pool.Bookkeeping
import RecencyCache.Proofs.Strand

/-!
# The hash chains as a family of lists

`Chains.Lists c nodes C` says that chain `s` runs through the slots of `C s`, and that a node lies
on no chain but the one that its stored hash selects; so the chains are disjoint.

* `exists_prepend`, `exists_remove`: putting a node on its chain conses its slot, and taking it off
  removes the slot wherever it stands. No other chain changes, and nothing but chain links.
* `exists_search`, `find_eq`: a lookup walks the selected chain up to the first node that has the
  hash and an accepted entry, and answers this node.
* `chain_eq`, `lengths_eq`: following a chain visits its list.
* `lists_prepend_remove_find`: what the operations do to a family of lists. The count of nodes in
  the pool plays no part in it, but that a search may take so many steps (`Finds`).
-/
namespace RecencyCache.Chains

variable {κ ν : Type}

/-- The chain of a hash, of `count` chains. -/
abbrev home (count : Nat) (hash : UInt64) : Nat := hash.toNat % count

/-- Chain `s` runs through the slots of `C s`, whose nodes belong there. -/
structure Lists (c : Chains) (nodes : Strand.Nodes κ ν) (C : Nat → List SlotId) : Prop where
  head : ∀ s < c.count, c.head? s = (C s).head?
  nodup : ∀ s < c.count, (C s).Nodup
  threads : ∀ s < c.count, Strand.chain.Threads nodes (C s)
  home : ∀ s < c.count, ∀ i ∈ C s, ∃ n, nodes.get? i = some n ∧ home c.count n.hash = s

variable {c : Chains} {p q nodes : Strand.Nodes κ ν} {C : Nat → List SlotId}
  {a b : List SlotId} {i : SlotId} {n : Node κ ν}

theorem home_lt (c : Chains) (hash : UInt64) : home c.count hash < c.count :=
  Nat.mod_lt _ c.heads_pos

theorem count_empty (n : Nat) : (empty n).count = max n 1 := by
  simp [empty, count]

theorem count_clear (c : Chains) : c.clear.count = c.count := by
  have hpos : 0 < c.count := c.heads_pos
  rw [clear, count_empty]
  omega

theorem lists_empty (n : Nat) (nodes : Strand.Nodes κ ν) : (empty n).Lists nodes fun _ => [] := by
  refine ⟨?_, by simp, fun _ _ i hi => by simp at hi, by simp⟩
  intro s hs
  rw [count_empty] at hs
  simp [head?, empty, hs]

theorem head?_setHead (c : Chains) (s : Fin c.heads.size) (h : Option SlotId) (t : Nat) :
    (c.setHead s h).head? t = if t = s then h else c.head? t := by
  simp only [head?, setHead, Array.getElem?_set]
  by_cases hst : s.val = t
  · rw [if_pos hst, if_pos hst.symm]
    rfl
  · rw [if_neg hst, if_neg (Ne.symm hst)]

/-- Chains with the same first nodes are the same. -/
theorem eq_of_head? {c' : Chains} (hcount : c'.count = c.count)
    (h : ∀ s < c.count, c'.head? s = c.head? s) : c' = c := by
  obtain ⟨heads, hpos⟩ := c
  obtain ⟨heads', hpos'⟩ := c'
  have heq : heads' = heads := by
    refine Array.ext hcount fun s hs' hs => ?_
    simpa [head?, hs, hs'] using h s hs
  subst heq
  rfl

theorem count_setHead (c : Chains) (s : Fin c.heads.size) (h : Option SlotId) :
    (c.setHead s h).count = c.count := by
  simp [setHead, count]

theorem heads_select (c : Chains) (hash : UInt64) (hs : (c.select hash).val < c.heads.size) :
    getElem c.heads (c.select hash) hs = c.head? (home c.count hash) := by
  have hget : c.heads[home c.count hash]? = some (getElem c.heads (c.select hash) hs) :=
    Array.getElem?_eq_getElem hs
  rw [head?, hget]
  rfl

/-! ## Putting nodes on their chains and taking them off -/

/-- A node on a chain is on no other chain. -/
theorem Lists.eq_home (h : c.Lists nodes C) (hi : nodes.get? i = some n) {s : Nat}
    (hs : s < c.count) (his : i ∈ C s) : s = Chains.home c.count n.hash := by
  obtain ⟨m, hm, hs'⟩ := h.home s hs i his
  rw [hi] at hm
  cases hm
  exact hs'.symm

/-- Chain links of other chains are the same before and after a chain was spliced. -/
theorem link?_eq_of_relinked {s t : Nat} {l : List SlotId} (h : c.Lists nodes C)
    (hr : Strand.chain.Relinked nodes q l) (ht : t < c.count) (hts : t ≠ s)
    (hl : ∀ j ∈ l, ∃ n, nodes.get? j = some n ∧ Chains.home c.count n.hash = s) :
    Strand.chain.Threads q (C t) := by
  intro j hj
  have hjl : j ∉ l := by
    intro hjl
    obtain ⟨n, hn, hs⟩ := hl j hjl
    exact hts ((h.eq_home hn ht hj).trans hs)
  rw [Strand.link?, hr.other j hjl]
  exact h.threads t ht j hj

theorem home_of_bare {s : Strand} (h : q.map (Node.bare s) = p.map (Node.bare s))
    (hi : p.get? i = some n) : ∃ m, q.get? i = some m ∧ m.hash = n.hash := by
  have hget := Pool.map_get?_eq h i
  rw [hi, Option.map_some, Option.map_eq_some_iff] at hget
  obtain ⟨m, hm, hbare⟩ := hget
  refine ⟨m, hm, ?_⟩
  simpa [Node.bare] using congrArg Node.hash hbare

/-- A chain that was spliced on its own, among others that were left alone. -/
theorem Lists.update {c' : Chains} {s : Nat} {l l' : List SlotId} (h : c.Lists nodes C)
    (hr : Strand.chain.Relinked nodes q l) (hcount : c'.count = c.count)
    (hl : ∀ j ∈ l, ∃ n, nodes.get? j = some n ∧ Chains.home c.count n.hash = s)
    (hl' : ∀ j ∈ l', j ∈ l) (hn : l'.Nodup) (ht : Strand.chain.Threads q l')
    (hhead : ∀ t < c.count, c'.head? t = if t = s then l'.head? else c.head? t) :
    c'.Lists q (Function.update C s l') := by
  refine ⟨?_, ?_, ?_, ?_⟩ <;> rw [hcount] <;> intro t htc <;> by_cases hts : t = s
  · subst hts; simp [hhead t htc]
  · simp [hhead t htc, hts, h.head t htc]
  · subst hts; simpa using hn
  · simpa [hts] using h.nodup t htc
  · subst hts; simpa using ht
  · simpa [hts] using link?_eq_of_relinked h hr htc hts hl
  · subst hts
    intro j hj
    obtain ⟨n, hn, hs⟩ := hl j (hl' j (by simpa using hj))
    obtain ⟨m, hm, hhash⟩ := home_of_bare hr.bare hn
    exact ⟨m, hm, by rw [hhash, hs]⟩
  · intro j hj
    obtain ⟨n, hn, hs⟩ := h.home t htc j (by simpa [hts] using hj)
    obtain ⟨m, hm, hhash⟩ := home_of_bare hr.bare hn
    exact ⟨m, hm, by rw [hhash, hs]⟩

theorem exists_prepend (h : c.Lists nodes C) (hi : nodes.get? i = some n)
    (hic : i ∉ C (Chains.home c.count n.hash)) :
    ∃ c' q, c.prepend nodes i = .ok (c', q) ∧ c'.count = c.count ∧
      c'.Lists q (Function.update C (Chains.home c.count n.hash)
        (i :: C (Chains.home c.count n.hash))) ∧
      Strand.chain.Relinked nodes q (i :: C (Chains.home c.count n.hash)) := by
  have hs := home_lt c n.hash
  obtain ⟨q, hq, ht, hr⟩ := Strand.exists_attach (h.threads _ hs) (by simp [hi]) hic
  refine ⟨c.setHead (c.select n.hash) (some i), q, ?_, count_setHead .., ?_, hr⟩
  · simp only [prepend, Pool.get, hi, Fault.ok_bind, heads_select, h.head _ hs, hq, Fault.pure_eq]
  · refine h.update hr (count_setHead ..) ?_ (fun _ hj => hj)
      (List.nodup_cons.2 ⟨hic, h.nodup _ hs⟩) ht ?_
    · intro j hj
      rcases List.mem_cons.1 hj with rfl | hj
      · exact ⟨n, hi, rfl⟩
      · exact h.home _ hs j hj
    · intro t _
      rw [head?_setHead]
      rfl

theorem exists_remove (h : c.Lists nodes C) (hi : nodes.get? i = some n)
    (hC : C (Chains.home c.count n.hash) = a ++ i :: b) :
    ∃ c' q, c.remove nodes i = .ok (c', q) ∧ c'.count = c.count ∧
      c'.Lists q (Function.update C (Chains.home c.count n.hash) (a ++ b)) ∧
      Strand.chain.Relinked nodes q (a ++ i :: b) := by
  have hs := home_lt c n.hash
  have hnodup := hC ▸ h.nodup _ hs
  obtain ⟨q, hq, ht, hr⟩ := Strand.exists_detach (hC ▸ h.threads _ hs) hnodup
  have hl : ∀ j ∈ a ++ i :: b, ∃ m, nodes.get? j = some m ∧
      Chains.home c.count m.hash = Chains.home c.count n.hash :=
    fun j hj => h.home _ hs j (hC ▸ hj)
  have hsub : ∀ j ∈ a ++ b, j ∈ a ++ i :: b := by
    intro j hj
    simp only [List.mem_append, List.mem_cons] at hj ⊢
    exact hj.imp_right Or.inr
  have hab := (List.nodup_cons.1 (List.nodup_middle.1 hnodup)).2
  cases a with
  | nil =>
    refine ⟨c.setHead (c.select n.hash) b.head?, q, ?_, count_setHead .., ?_, hr⟩
    · simp [remove, Pool.get, hi, hq]
    · exact h.update hr (count_setHead ..) hl hsub hab ht fun t _ => head?_setHead ..
  | cons k a =>
    refine ⟨c, q, ?_, rfl, ?_, hr⟩
    · simp [remove, Pool.get, hi, hq, List.getLast?_cons]
    · refine h.update hr rfl hl hsub hab ht fun t htc => ?_
      by_cases hts : t = Chains.home c.count n.hash
      · rw [if_pos hts, h.head t htc, hts, hC]
        rfl
      · rw [if_neg hts]

/-! ## Following a chain -/

/-- Whether the node in slot `i` has the hash and an accepted entry. -/
def Matches (nodes : Strand.Nodes κ ν) (hash : UInt64) (accepts : Entry κ ν → Bool)
    (i : SlotId) : Bool :=
  (nodes.get? i).any fun n => n.hash == hash && accepts n.entry

/-- The slot that a search looks at after slot `i`. After a match there is none. -/
def searchNext (nodes : Strand.Nodes κ ν) (hash : UInt64) (accepts : Entry κ ν → Bool)
    (i : SlotId) : Except Fault (Option SlotId) := do
  let node ← nodes.get i
  pure (if node.hash == hash && accepts node.entry then none else node.chain.next)

/-- A search visits a chain up to the first match, or all of it. -/
theorem exists_walks_searchNext (hash : UInt64) (accepts : Entry κ ν → Bool)
    (ht : Strand.chain.Threads nodes (a ++ b)) (hn : (a ++ b).Nodup) :
    ∃ l, l <+: b ∧ Walks (searchNext nodes hash accepts) b.head? l ∧
      l.find? (Matches nodes hash accepts) = b.find? (Matches nodes hash accepts) := by
  induction b generalizing a with
  | nil => exact ⟨[], List.prefix_rfl, .stop, rfl⟩
  | cons i b ih =>
    obtain ⟨n, hget, hlink⟩ := Strand.link_of_threads ht hn
    have hafter : n.chain.next = b.head? := congrArg Link.next hlink
    have hmatch : Matches nodes hash accepts i = (n.hash == hash && accepts n.entry) := by
      rw [Matches, hget, Option.any_some]
    have hnext : searchNext nodes hash accepts i =
        .ok (if Matches nodes hash accepts i then none else b.head?) := by
      rw [searchNext, Pool.get_eq_ok_iff.2 hget, hmatch, ← hafter]
      rfl
    cases hm : Matches nodes hash accepts i with
    | true =>
      rw [hm] at hnext
      exact ⟨[i], ⟨b, rfl⟩, .step hnext .stop, by simp [hm]⟩
    | false =>
      rw [hm] at hnext
      obtain ⟨l, hl, hw, hfind⟩ := ih (a := a ++ [i]) (by simpa using ht) (by simpa using hn)
      exact ⟨i :: l, List.cons_prefix_cons.2 ⟨rfl, hl⟩, .step hnext hw, by simp [hm, hfind]⟩

/-- A search that is allowed as many steps as the walk takes finds what the walk finds. -/
theorem findFrom_of_walks {hash : UInt64} {accepts : Entry κ ν → Bool} {start : Option SlotId}
    (hw : Walks (searchNext nodes hash accepts) start a) {m : Nat} (hm : a.length ≤ m) :
    findFrom nodes hash accepts m start = .ok (a.find? (Matches nodes hash accepts)) := by
  induction hw generalizing m with
  | stop => cases m <;> rfl
  | @step i o l hnext rest ih =>
    obtain ⟨m, rfl⟩ := Nat.exists_eq_add_of_le' (Nat.lt_of_lt_of_le (Nat.succ_pos _) hm)
    obtain ⟨n, hget, hlast⟩ := Fault.exists_of_bind hnext
    have hmatch : Matches nodes hash accepts i = (n.hash == hash && accepts n.entry) := by
      rw [Matches, Pool.get_eq_ok_iff.1 hget, Option.any_some]
    cases hlast
    rw [findFrom, hget, Fault.ok_bind, ← hmatch, List.find?_cons]
    cases hmn : Matches nodes hash accepts i with
    | true => rfl
    | false =>
      rw [← hmatch, hmn] at ih
      exact ih (Nat.le_of_succ_le_succ hm)

/-- The walk of a search for a hash on the chain that the hash selects. -/
theorem Lists.exists_search (h : c.Lists nodes C) (hash : UInt64) (accepts : Entry κ ν → Bool) :
    ∃ l, l <+: C (Chains.home c.count hash) ∧
      Walks (searchNext nodes hash accepts) (c.head? (Chains.home c.count hash)) l ∧
      l.find? (Matches nodes hash accepts) =
        (C (Chains.home c.count hash)).find? (Matches nodes hash accepts) := by
  have hs := home_lt c hash
  rw [h.head _ hs]
  exact exists_walks_searchNext (a := []) hash accepts (h.threads _ hs) (h.nodup _ hs)

theorem find_eq (h : c.Lists nodes C) (hash : UInt64) (accepts : Entry κ ν → Bool)
    (hl : (C (Chains.home c.count hash)).length ≤ nodes.live) :
    c.find nodes hash accepts =
      .ok ((C (Chains.home c.count hash)).find? (Matches nodes hash accepts)) := by
  obtain ⟨l, hsub, hw, hfind⟩ := h.exists_search hash accepts
  rw [find, heads_select, findFrom_of_walks hw (Nat.le_trans hsub.length_le hl), hfind]

theorem chain_eq (h : c.Lists nodes C) {s : Nat} (hs : s < c.count)
    (hl : (C s).length ≤ nodes.live) : c.chain nodes s = .ok (C s) := by
  rw [chain, h.head s hs]
  exact Strand.walk_eq (h.threads s hs) (h.nodup s hs) hl

theorem lengths_eq (h : c.Lists nodes C) (hl : ∀ s < c.count, (C s).length ≤ nodes.live) :
    c.lengths nodes = .ok ((List.range c.count).map fun s => (C s).length) := by
  refine mapM_pure fun s hs => ?_
  have hs' := List.mem_range.1 hs
  rw [chain_eq h hs' (hl s hs')]
  rfl

/-! ## A family of lists -/

/-- The search for a node with the hash and an accepted entry ends with `o`. -/
structure Finds (c : Chains) (nodes : Strand.Nodes κ ν) (hash : UInt64)
    (accepts : Entry κ ν → Bool) (o : Option SlotId) : Prop where
  /-- The search that is allowed so many steps, or any more. -/
  ends : ∃ m, ∀ m' ≥ m, findFrom nodes hash accepts m' (c.head? (home c.count hash)) = .ok o
  /-- A pool that counts its nodes allows enough of them. -/
  find : nodes.live = nodes.occupied → c.find nodes hash accepts = .ok o

namespace Lists

variable (h : c.Lists nodes C)
include h

theorem walks {s : Nat} (hs : s < c.count) :
    Walks (Strand.chain.next nodes) (c.head? s) (C s) := by
  rw [h.head s hs]
  exact Strand.walks_next (a := []) (h.threads s hs) (h.nodup s hs)

theorem length_le_occupied {s : Nat} (hs : s < c.count) : (C s).length ≤ nodes.occupied :=
  Pool.length_le_occupied (h.nodup s hs) fun _ => (h.threads s hs).isSome_get?

theorem finds (hash : UInt64) (accepts : Entry κ ν → Bool) :
    c.Finds nodes hash accepts
      ((C (Chains.home c.count hash)).find? (Matches nodes hash accepts)) where
  ends := by
    obtain ⟨l, -, hw, hfind⟩ := h.exists_search hash accepts
    exact ⟨l.length, fun m hm => by rw [findFrom_of_walks hw hm, hfind]⟩
  find hl := find_eq h hash accepts (hl ▸ h.length_le_occupied (home_lt c hash))

/-- A match on any chain is one on the chain of the hash. -/
theorem find?_eq_none_iff (hash : UInt64) (accepts : Entry κ ν → Bool) :
    (C (Chains.home c.count hash)).find? (Matches nodes hash accepts) = none ↔
      ∀ s < c.count, ∀ i ∈ C s, Matches nodes hash accepts i = false := by
  simp only [List.find?_eq_none, Bool.not_eq_true]
  constructor
  · intro hnone s hs i hi
    obtain ⟨n, hn, hhome⟩ := h.home s hs i hi
    by_cases hhash : n.hash = hash
    · subst hhash
      exact hnone i (hhome ▸ hi)
    · rw [Matches, hn, Option.any_some, beq_false_of_ne hhash, Bool.false_and]
  · intro hall
    exact hall _ (home_lt c hash)

end Lists

/-- **Chains are a family of lists.** Whatever lists the chains spell, they are walked so. A node
that is on none of them is put in front of that of its hash, and a node on one of them is taken out
of this one, wherever it stands; no other list changes, and of the nodes only chain links of those
on this list. A search finds the first match on the chain of its hash, and there is no other match
if it finds none. -/
theorem lists_prepend_remove_find (h : c.Lists nodes C) :
    (∀ s < c.count, Walks (Strand.chain.next nodes) (c.head? s) (C s)) ∧
    (∀ i n, nodes.get? i = some n → (∀ s < c.count, i ∉ C s) →
      ∃ c' q, c.prepend nodes i = .ok (c', q) ∧ c'.count = c.count ∧
        c'.Lists q (Function.update C (home c.count n.hash) (i :: C (home c.count n.hash))) ∧
        Strand.chain.Relinked nodes q (i :: C (home c.count n.hash))) ∧
    (∀ s < c.count, ∀ i ∈ C s, ∃ c' q, c.remove nodes i = .ok (c', q) ∧ c'.count = c.count ∧
      c'.Lists q (Function.update C s ((C s).erase i)) ∧ Strand.chain.Relinked nodes q (C s)) ∧
    ∀ hash accepts,
      c.Finds nodes hash accepts ((C (home c.count hash)).find? (Matches nodes hash accepts)) ∧
      ((C (home c.count hash)).find? (Matches nodes hash accepts) = none ↔
        ∀ s < c.count, ∀ i ∈ C s, Matches nodes hash accepts i = false) := by
  refine ⟨fun s => h.walks, fun i n hi hout => ?_, fun s hs i hi => ?_, fun hash accepts => ?_⟩
  · exact exists_prepend h hi (hout _ (home_lt c n.hash))
  · obtain ⟨n, hn, rfl⟩ := h.home s hs i hi
    obtain ⟨a, b, -, hC, herase⟩ := List.exists_erase_eq hi
    rw [herase, hC]
    exact exists_remove h hn hC
  · exact ⟨h.finds hash accepts, h.find?_eq_none_iff hash accepts⟩

/-- Two chains; on the first of them lie two nodes with the same hash. A node with another hash
comes in front of them, or the last one is taken out or looked up. -/
theorem lists_prepend_remove_find_of_collision :
    let node (key : Nat) (hash : UInt64) (chain : Link) : Slot (Node Nat Unit) :=
      ⟨7, some { entry := ⟨key, ()⟩, stamp := {}, hash, chain }⟩
    let nodes : Strand.Nodes Nat Unit :=
      { slots := #[node 10 4 ⟨some 2, none⟩, node 11 7 {}, node 12 4 ⟨none, some 0⟩, node 13 6 {}]
        live := 4 }
    let c : Chains := ⟨#[some 2, some 1], by decide⟩
    let C : Nat → List SlotId := fun s => if s = 0 then [2, 0] else [1]
    c.Lists nodes C ∧
      (∃ c' q, c.prepend nodes 3 = .ok (c', q) ∧ c'.Lists q (Function.update C 0 [3, 2, 0])) ∧
      (∃ c' q, c.remove nodes 0 = .ok (c', q) ∧ c'.Lists q (Function.update C 0 [2])) ∧
      c.find nodes 4 (·.key == 10) = .ok (some 0) ∧ c.find nodes 6 (·.key == 13) = .ok none := by
  intro node nodes c C
  have hhome : ∀ s < 2, ∀ i ∈ C s, (nodes.get? i).map (fun n => home 2 n.hash) = some s := by
    decide
  have h : c.Lists nodes C :=
    ⟨by decide, by decide, by unfold Strand.Threads; decide,
      fun s hs i hi => Option.map_eq_some_iff.1 (hhome s hs i hi)⟩
  obtain ⟨-, hprepend, hremove, hfind⟩ := lists_prepend_remove_find h
  obtain ⟨c₁, q₁, h₁, -, hlists₁, -⟩ := hprepend 3 _ rfl (by decide)
  have hselect : home 2 6 = 0 := by decide
  have hcons : Function.update C (home 2 6) (3 :: C (home 2 6)) =
      Function.update C 0 [3, 2, 0] := by
    rw [hselect]
    rfl
  obtain ⟨c₂, q₂, h₂, -, hlists₂, -⟩ := hremove 0 (by decide) 0 (by decide)
  have hlive : nodes.live = nodes.occupied := by decide
  refine ⟨h, ⟨c₁, q₁, h₁, hcons ▸ hlists₁⟩, ⟨c₂, q₂, h₂, hlists₂⟩, ?_, ?_⟩
  · have hfirst : (C (home 2 4)).find? (Matches nodes 4 (·.key == 10)) = some 0 := by decide
    rw [← hfirst]
    exact (hfind 4 (·.key == 10)).1.find hlive
  · rw [← (hfind 6 (·.key == 13)).2.2 (by decide)]
    exact (hfind 6 (·.key == 13)).1.find hlive

end RecencyCache.Chains
