import RecencyCache.Cache.Audit
import RecencyCache.Proofs.Cache.Shows

/-!
# Audits find nothing

A cache that shows a shelf passes its own audit (`verdict_eq`): the order is walked to its end with
every backward link right, each chain holds nodes of its own hashes with unequal keys, and all
chains together hold as many nodes as the order.
-/
namespace RecencyCache

/-- Elements counted by one of `n` labels, all labels together. -/
theorem sum_countP_eq {α : Type} (f : α → Nat) (l : List α) (n : Nat) :
    ((List.range n).map fun i => l.countP (f · == i)).foldl (· + ·) 0 = l.countP (f · < n) := by
  induction n with
  | zero => simp
  | succ n ih =>
    rw [List.range_succ, List.map_append, List.foldl_append, ih]
    simp only [List.map_cons, List.map_nil, List.foldl_cons, List.foldl_nil]
    clear ih
    induction l with
    | nil => rfl
    | cons a l ih =>
      simp only [List.countP_cons, beq_iff_eq, decide_eq_true_eq] at ih ⊢
      split_ifs <;> omega

/-- Every record is on one chain. -/
theorem Shelf.foldl_chainLength {κ ν : Type} (s : Shelf κ ν) (h : 0 < s.chainCount) :
    ((List.range s.chainCount).map s.chainLength).foldl (· + ·) 0 = s.size := by
  have hall : s.held.countP (fun x => (s.hash x.key).toNat % s.chainCount < s.chainCount) =
      s.held.length :=
    List.countP_eq_length.2 fun x _ => decide_eq_true (Nat.mod_lt _ h)
  rw [size, ← hall, ← sum_countP_eq]
  rfl

namespace Cache.Shows

variable {κ ν : Type} [BEq κ] {c : Cache κ ν} {s : Shelf κ ν} {a b : List (Held κ ν)}

/-- An audit of the order that stands behind the records `a` reaches the last one. -/
theorem auditOrder_eq (sh : c.Shows s) (hs : s.held = a ++ b) :
    c.auditOrder b.length (a.getLast?.map Held.slot) (b.head?.map Held.slot) =
      pure (0, s.oldest?.map Held.slot) := by
  induction b generalizing a with
  | nil =>
    rw [Shelf.oldest?, hs, List.append_nil]
    rfl
  | cons h b ih =>
    obtain ⟨n, hn, -, -, -, hlink⟩ := sh.exists_node hs
    have hrest := ih (a := a ++ [h]) (by simpa using hs)
    rw [List.getLast?_concat] at hrest
    simp only [List.length_cons, List.head?_cons, Option.map_some, auditOrder,
      Pool.get_eq_ok_iff.1 hn, hlink, ne_eq, not_true_eq_false, if_false]
    exact hrest

/-- An audit of some nodes of a chain, of which no two keys and none of the keys before are
equal. -/
theorem auditNodes_eq (sh : c.Shows s) {i : Nat} (seen : List κ) {l : List (Held κ ν)}
    (hl : ∀ h ∈ l, h ∈ s.held ∧ (s.hash h.key).toNat % s.chainCount = i)
    (hseen : ∀ h ∈ l, ∀ k ∈ seen, (k == h.key) = false)
    (hkeys : l.Pairwise fun x y => (x.key == y.key) = false) :
    c.auditNodes i seen (l.map Held.slot) = pure () := by
  induction l generalizing seen with
  | nil => rfl
  | cons h l ih =>
    obtain ⟨hh, hhome⟩ := hl h (by simp)
    obtain ⟨hfirst, hrest⟩ := List.pairwise_cons.1 hkeys
    obtain ⟨a, b, hs⟩ := List.append_of_mem hh
    obtain ⟨n, hn, hentry, -, hhash, -⟩ := sh.exists_node hs
    have hselect : (c.chains.select n.hash).val = i := by
      rw [← hhome, hhash, ← sh.chainCount]
      rfl
    have hnew : seen.any (· == h.entry.key) = false := by
      rw [List.any_eq_false]
      intro k hk
      rw [hseen h (by simp) k hk]
      exact Bool.false_ne_true
    have hlater := ih (seen ++ [h.key]) (fun x hx => hl x (by simp [hx])) ?_ hrest
    · rw [List.map_cons, auditNodes, hn]
      show (if c.hash n.entry.key ≠ n.hash ∨ (c.chains.select n.hash).val ≠ i then _ else _) = _
      rw [if_neg, hentry, hnew, if_neg Bool.false_ne_true]
      · exact hlater
      · rw [hselect, hentry, hhash, sh.hash]
        simp
    · intro x hx k hk
      rcases List.mem_append.1 hk with hk | hk
      · exact hseen x (by simp [hx]) k hk
      · rw [List.mem_singleton.1 hk]
        exact hfirst x hx

/-- The records on a chain, in the order of the chain. -/
theorem exists_chained (sh : c.Shows s) {C : Nat → List SlotId}
    (hC : c.chains.Hold c.nodes C s.slots) {i : Nat} (hi : i < c.chains.count) :
    ∃ l : List (Held κ ν), C i = l.map Held.slot ∧
      ∀ h ∈ l, h ∈ s.held ∧ (s.hash h.key).toNat % s.chainCount = i := by
  refine ⟨(C i).filterMap s.tenant?, ?_, fun h hh => ?_⟩
  · have hself : ∀ j ∈ C i, (s.tenant? j).map Held.slot = some j := by
      intro j hj
      obtain ⟨x, hx, rfl⟩ := Shelf.mem_slots.1 (hC.sub i hi j hj)
      rw [sh.inv.tenant?_slot hx, Option.map_some]
    rw [List.map_filterMap, List.filterMap_congr hself, List.filterMap_some]
  · obtain ⟨j, hj, ht⟩ := List.mem_filterMap.1 hh
    obtain rfl := Shelf.slot_of_tenant? ht
    have hmem := Shelf.mem_of_tenant? ht
    obtain ⟨n, hn, hload⟩ := sh.stores.exists_node sh.inv hmem
    have hhash : n.hash = s.hash h.key := congrArg Prod.snd hload
    have hhome := hC.eq_home hn hi hj
    rw [hhash, sh.chainCount] at hhome
    exact ⟨hmem, hhome.symm⟩

theorem auditChain_eq [EquivBEq κ] (sh : c.Shows s) {i : Nat} (hi : i < c.chains.count) :
    c.auditChain i = pure (s.chainLength i) := by
  obtain ⟨C, hC⟩ := sh.wired.chains
  obtain ⟨l, hl, hmem⟩ := sh.exists_chained hC hi
  have hfollow : Strand.chain.follow c.nodes (c.size + 1) (c.chains.head? i) = .ok (C i) := by
    have hle := sh.length_le_live hC hi
    rw [sh.stores.live, ← sh.size_eq] at hle
    rw [hC.head i hi, Strand.follow_eq _ (hC.threads i hi) (hC.nodup i hi),
      List.take_of_length_le (by omega)]
  have hkeys : l.Pairwise fun x y => (x.key == y.key) = false := by
    have hn := hC.nodup i hi
    rw [hl] at hn
    refine (List.pairwise_map.1 hn).imp_of_mem fun {x y} hx hy hxy => ?_
    rw [← Bool.not_eq_true]
    intro hk
    exact hxy (congrArg Held.slot (sh.inv.eq_of_key (hmem y hy).1 (hmem x hx).1 hk))
  have hnodes := sh.auditNodes_eq [] hmem (by simp) hkeys
  rw [← hl] at hnodes
  rw [auditChain, hfollow, ← sh.length_chain hC hi]
  show (c.auditNodes i [] (C i) >>= fun _ => pure (C i).length) = _
  rw [hnodes]
  rfl

theorem audit_eq [EquivBEq κ] (sh : c.Shows s) : c.audit = pure () := by
  have horder := sh.auditOrder_eq (a := []) (b := s.held) rfl
  have hlengths : (List.range c.chainCount).mapM c.auditChain =
      (pure ((List.range c.chainCount).map s.chainLength) : Audit (List Nat)) := by
    refine mapM_pure fun i hi => ?_
    exact sh.auditChain_eq (List.mem_range.1 hi)
  have hsum : ((List.range c.chainCount).map s.chainLength).foldl (· + ·) 0 = c.size := by
    rw [sh.size_eq, ← s.foldl_chainLength (sh.chainCount ▸ c.chains.heads_pos), ← sh.chainCount]
    rfl
  have hlive : c.nodes.live = c.size := by rw [sh.stores.live, sh.size_eq]
  rw [List.getLast?_nil, Option.map_none, ← sh.head_eq, ← sh.tail_eq, ← Shelf.size,
    ← sh.size_eq] at horder
  simp only [audit, hlive, horder, hlengths, hsum, ne_eq, not_true_eq_false, if_false, or_self,
    pure_bind]

theorem verdict_eq [EquivBEq κ] (sh : c.Shows s) : c.verdict = .ok (.ok ()) := by
  rw [verdict, sh.audit_eq]
  rfl

end Cache.Shows
end RecencyCache
