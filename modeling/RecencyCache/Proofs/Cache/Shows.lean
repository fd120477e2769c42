import Mathlib.Data.List.Perm.Subperm
import RecencyCache.Cache.Cursor
import RecencyCache.Cache.Lookup
import RecencyCache.Proofs.Cache.Stores

/-!
# A cache shows a shelf

`Cache.Shows c s` is the representation invariant: the pool of `c` stores the records of the shelf
`s`, both strands run through their slots, and all that is not a link is equal. The lemmas read the
cache: every lookup, cursor and count goes through, and answers what the shelf answers. All that a
shelf leaves open is the order of the nodes on a chain (`eq_of_strung`).
-/
namespace RecencyCache

/-- On the nodes of a cache that shows `s`, the cursor spans the records `l` between `newer` and
`older`. -/
structure Cursor.Spans {κ ν : Type} (w : Cursor κ ν) (nodes : Strand.Nodes κ ν) (s : Shelf κ ν)
    (newer l older : List (Held κ ν)) : Prop where
  nodes : w.nodes = nodes
  held : s.held = newer ++ l ++ older
  front : w.front = (l ++ older).head?.map Held.slot
  back : w.back = (newer ++ l).getLast?.map Held.slot
  remaining : w.remaining = l.length

namespace Cache

variable {κ ν : Type} [BEq κ]

/-- What a cache and a shelf have in common. -/
structure Alike (c : Cache κ ν) (s : Shelf κ ν) : Prop where
  agrees : Agrees s.hash
  chainCount : c.chains.count = s.chainCount
  capacity : c.capacity = s.capacity
  policy : c.policy = s.policy
  clock : c.clock = s.clock
  hash : c.hash = s.hash
  tally : c.tally = s.tally

/-- The cache represents the shelf. -/
structure Shows (c : Cache κ ν) (s : Shelf κ ν) : Prop extends Alike c s where
  inv : s.Inv
  stores : Stores c.nodes s
  wired : c.Wired s.slots

namespace Shows

variable {c : Cache κ ν} {s : Shelf κ ν} {h : Held κ ν} {a b : List (Held κ ν)} {k : κ}

/-! ## Nodes -/

theorem head_eq (sh : c.Shows s) : c.order.head = s.held.head?.map Held.slot := by
  rw [sh.wired.order.head, Shelf.slots, List.head?_map]

theorem tail_eq (sh : c.Shows s) : c.order.tail = s.oldest?.map Held.slot := by
  rw [sh.wired.order.tail, Shelf.slots, List.getLast?_map, Shelf.oldest?]

theorem size_eq (sh : c.Shows s) : c.size = s.size := by
  rw [size, sh.wired.order.size, Shelf.slots, List.length_map, Shelf.size]

/-- The node of a record, with its neighbours in the order. -/
theorem exists_node (sh : c.Shows s) (hs : s.held = a ++ h :: b) :
    ∃ n, c.nodes.get h.slot = .ok n ∧ n.entry = h.entry ∧ n.stamp = h.record.stamp ∧
      n.hash = s.hash h.key ∧
      n.recency = ⟨a.getLast?.map Held.slot, b.head?.map Held.slot⟩ := by
  have hh : h ∈ s.held := by
    rw [hs]
    exact List.mem_append_right a List.mem_cons_self
  have ht := sh.wired.order.threads
  have hn := sh.inv.slots
  rw [Shelf.slots_append hs] at ht hn
  obtain ⟨n, hget, hlink⟩ := Strand.link_of_threads ht hn
  obtain ⟨m, hm, hload⟩ := sh.stores.exists_node sh.inv hh
  rw [hget, Option.some.injEq] at hm
  subst hm
  refine ⟨n, Pool.get_eq_ok_iff.2 hget, congrArg (·.1.entry) hload, congrArg (·.1.stamp) hload,
    congrArg (·.2) hload, ?_⟩
  rw [← List.getLast?_map, ← List.head?_map]
  exact hlink

theorem generation?_eq (sh : c.Shows s) (i : SlotId) :
    c.nodes.generation? i = if i < s.slotCount then some (s.generation i) else none := by
  split
  · rename_i hi
    exact sh.stores.generation i hi
  · rename_i hi
    rw [← sh.stores.slotCount] at hi
    rw [Pool.generation?, Array.getElem?_eq_none (Nat.le_of_not_lt hi), Option.map_none]

theorem entryIn_eq (sh : c.Shows s) (hh : h ∈ s.held) : c.entryIn h.slot = .ok h.entry := by
  obtain ⟨a, b, hs⟩ := List.append_of_mem hh
  obtain ⟨n, hn, hentry, -⟩ := sh.exists_node hs
  rw [entryIn, hn, Fault.map_ok, hentry]

theorem position_eq (sh : c.Shows s) (hh : h ∈ s.held) :
    c.nodes.position h.slot = .ok (s.positionOf h) := sh.stores.position_eq sh.inv hh

theorem resolve_eq (sh : c.Shows s) (pos : Position) :
    c.nodes.resolve pos = (s.at? pos).map Held.slot := sh.stores.resolve_eq sh.inv pos

/-! ## At the ends and by position -/

theorem newest?_eq (sh : c.Shows s) : c.newest? = .ok (s.held.head?.map Held.entry) := by
  rw [newest?, sh.head_eq]
  exact Fault.mapM_map_ok fun h hh => sh.entryIn_eq (List.mem_of_head? hh)

theorem oldest?_eq (sh : c.Shows s) : c.oldest? = .ok (s.oldest?.map Held.entry) := by
  rw [oldest?, sh.tail_eq]
  exact Fault.mapM_map_ok fun h hh => sh.entryIn_eq (Shelf.mem_of_oldest? hh)

theorem newestPosition?_eq (sh : c.Shows s) :
    c.newestPosition? = .ok (s.held.head?.map s.positionOf) := by
  rw [newestPosition?, sh.head_eq]
  exact Fault.mapM_map_ok fun h hh => sh.position_eq (List.mem_of_head? hh)

theorem oldestPosition?_eq (sh : c.Shows s) :
    c.oldestPosition? = .ok (s.oldest?.map s.positionOf) := by
  rw [oldestPosition?, sh.tail_eq]
  exact Fault.mapM_map_ok fun h hh => sh.position_eq (Shelf.mem_of_oldest? hh)

theorem entryAt?_eq (sh : c.Shows s) (pos : Position) :
    c.entryAt? pos = .ok ((s.at? pos).map Held.entry) := by
  rw [entryAt?, sh.resolve_eq]
  exact Fault.mapM_map_ok fun h hh => sh.entryIn_eq (sh.inv.at?_eq_some_iff.1 hh).1

/-- The forward link of a record leads to the record that follows it. -/
theorem exists_next (sh : c.Shows s) (hh : h ∈ s.held) :
    ∃ n, c.nodes.get h.slot = .ok n ∧ n.recency.next = (s.after? h).map Held.slot := by
  obtain ⟨a, b, hs⟩ := List.append_of_mem hh
  obtain ⟨n, hn, -, -, -, hlink⟩ := sh.exists_node hs
  exact ⟨n, hn, by rw [hlink, sh.inv.after?_eq hs]⟩

theorem positionAfter?_eq (sh : c.Shows s) (pos : Position) :
    c.positionAfter? pos = .ok (((s.at? pos).bind s.after?).map s.positionOf) := by
  rw [positionAfter?, sh.resolve_eq]
  cases hat : s.at? pos with
  | none => rfl
  | some h =>
    obtain ⟨hh, -⟩ := sh.inv.at?_eq_some_iff.1 hat
    obtain ⟨n, hn, hnext⟩ := sh.exists_next hh
    simp only [Option.map_some, hn, Fault.ok_bind, hnext, Option.bind_some]
    exact Fault.mapM_map_ok fun x hx => sh.position_eq (sh.inv.mem_of_after? hh hx)

theorem oldestStamp?_eq (sh : c.Shows s) :
    c.oldestStamp? = .ok (s.oldest?.map (·.record.stamp)) := by
  rw [oldestStamp?, sh.tail_eq]
  refine Fault.mapM_map_ok fun h hh => ?_
  obtain ⟨a, b, hs⟩ := List.append_of_mem (Shelf.mem_of_oldest? hh)
  obtain ⟨n, hn, -, hstamp, -⟩ := sh.exists_node hs
  rw [hn, Fault.map_ok, hstamp]

theorem wouldEvict_eq (sh : c.Shows s) (size : Nat) :
    c.wouldEvict size = .ok (s.overfull size) := by
  simp [wouldEvict, sh.oldestStamp?_eq, Shelf.overfull, sh.policy, sh.clock, sh.capacity]

/-! ## All entries -/

theorem spans_cursor (sh : c.Shows s) : c.cursor.Spans c.nodes s [] s.held [] where
  nodes := rfl
  held := (List.append_nil _).symm
  front := by rw [List.append_nil]; exact sh.head_eq
  back := sh.tail_eq
  remaining := sh.size_eq

section Cursor

variable {w : Cursor κ ν} {newer l older : List (Held κ ν)}

/-- A step from the recent end. -/
theorem exists_popFront? (sh : c.Shows s) (sp : w.Spans c.nodes s newer (h :: l) older) : ∃ w',
    w.popFront? = .ok (some h.entry, w') ∧ w'.Spans c.nodes s (newer ++ [h]) l older := by
  have hs := sp.held
  rw [List.append_assoc, List.cons_append] at hs
  obtain ⟨n, hn, hentry, -, -, hlink⟩ := sh.exists_node hs
  have hr : w.remaining = l.length + 1 := sp.remaining
  have hf : w.front = some h.slot := sp.front
  refine ⟨{ w with front := n.recency.next, remaining := l.length }, ?_, sp.nodes, ?_, ?_, ?_, rfl⟩
  · simp only [Cursor.popFront?, hr, hf, sp.nodes, hn, hentry, Fault.ok_bind, Fault.pure_eq]
  · simpa using hs
  · show n.recency.next = _
    rw [hlink]
  · rw [List.append_assoc]
    exact sp.back

/-- A step from the old end. -/
theorem exists_popBack? (sh : c.Shows s) (sp : w.Spans c.nodes s newer (l ++ [h]) older) : ∃ w',
    w.popBack? = .ok (some h.entry, w') ∧ w'.Spans c.nodes s newer l (h :: older) := by
  have hs : s.held = (newer ++ l) ++ h :: older := by simpa using sp.held
  obtain ⟨n, hn, hentry, -, -, hlink⟩ := sh.exists_node hs
  have hr : w.remaining = l.length + 1 := by simpa using sp.remaining
  have hb : w.back = some h.slot := by simpa [← List.append_assoc] using sp.back
  refine ⟨{ w with back := n.recency.prev, remaining := l.length }, ?_, sp.nodes, hs, ?_, ?_, rfl⟩
  · simp only [Cursor.popBack?, hr, hb, sp.nodes, hn, hentry, Fault.ok_bind, Fault.pure_eq]
  · have hf := sp.front
    rwa [List.append_assoc] at hf
  · show n.recency.prev = _
    rw [hlink]

theorem collect_popFront? (sh : c.Shows s) (sp : w.Spans c.nodes s newer l older) :
    Cursor.collect Cursor.popFront? l.length w = .ok (l.map Held.entry) := by
  induction l generalizing w newer with
  | nil => rfl
  | cons h l ih =>
    obtain ⟨w', hw', sp'⟩ := sh.exists_popFront? sp
    simp only [List.length_cons, Cursor.collect, hw', ih sp', Fault.ok_bind, Fault.pure_eq,
      List.map_cons]

theorem collect_popBack? (sh : c.Shows s) (sp : w.Spans c.nodes s newer l.reverse older) :
    Cursor.collect Cursor.popBack? l.length w = .ok (l.map Held.entry) := by
  induction l generalizing w older with
  | nil => rfl
  | cons h l ih =>
    rw [List.reverse_cons] at sp
    obtain ⟨w', hw', sp'⟩ := sh.exists_popBack? sp
    simp only [List.length_cons, Cursor.collect, hw', ih sp', Fault.ok_bind, Fault.pure_eq,
      List.map_cons]

end Cursor

theorem toList_eq (sh : c.Shows s) : c.toList = .ok s.entries := by
  have hall := sh.collect_popFront? sh.spans_cursor
  rwa [← sh.spans_cursor.remaining] at hall

theorem toListRev_eq (sh : c.Shows s) : c.toListRev = .ok s.entries.reverse := by
  have sp := sh.spans_cursor
  rw [← List.reverse_reverse s.held] at sp
  have hall := sh.collect_popBack? sp
  rw [List.length_reverse, List.map_reverse] at hall
  rwa [← sh.spans_cursor.remaining] at hall

/-! ## Counts -/

theorem summary_eq (sh : c.Shows s) : c.summary = s.summary := by
  rw [summary, Shelf.summary, sh.tally, sh.size_eq]

/-- No chain is longer than the pool has items. -/
theorem length_le_live (sh : c.Shows s) {C : Nat → List SlotId}
    (hC : c.chains.Hold c.nodes C s.slots) {i : Nat} (hi : i < c.chains.count) :
    (C i).length ≤ c.nodes.live := by
  rw [sh.stores.live, Shelf.size, ← List.length_map (f := Held.slot)]
  exact ((hC.nodup i hi).subperm (hC.sub i hi)).length_le

theorem length_chain (sh : c.Shows s) {C : Nat → List SlotId}
    (hC : c.chains.Hold c.nodes C s.slots) {i : Nat} (hi : i < c.chains.count) :
    (C i).length = s.chainLength i := by
  have hperm : (C i).Perm ((s.held.filter fun h =>
      (s.hash h.key).toNat % s.chainCount == i).map Held.slot) := by
    refine (List.perm_ext_iff_of_nodup (hC.nodup i hi) ?_).2 fun j => ?_
    · exact sh.inv.slots.sublist (List.filter_sublist.map Held.slot)
    · simp only [List.mem_map, List.mem_filter, beq_iff_eq]
      constructor
      · intro hj
        obtain ⟨x, hx, rfl⟩ := Shelf.mem_slots.1 (hC.sub i hi j hj)
        obtain ⟨n, hn, hload⟩ := sh.stores.exists_node sh.inv hx
        have hhash : n.hash = s.hash x.key := congrArg Prod.snd hload
        have hhome := hC.eq_home hn hi hj
        rw [hhash, sh.chainCount] at hhome
        exact ⟨x, ⟨hx, hhome.symm⟩, rfl⟩
      · rintro ⟨x, ⟨hx, hhome⟩, rfl⟩
        obtain ⟨n, hn, hload⟩ := sh.stores.exists_node sh.inv hx
        have hhash : n.hash = s.hash x.key := congrArg Prod.snd hload
        have hmem := hC.mem _ (Shelf.mem_slots.2 ⟨x, hx, rfl⟩) n hn
        rwa [hhash, sh.chainCount, Chains.home, hhome] at hmem
  rw [hperm.length_eq, List.length_map, Shelf.chainLength, List.countP_eq_length_filter]

theorem lengths_eq (sh : c.Shows s) :
    c.chains.lengths c.nodes = .ok ((List.range s.chainCount).map s.chainLength) := by
  obtain ⟨C, hC⟩ := sh.wired.chains
  rw [Chains.lengths_eq hC.toLists fun i hi => sh.length_le_live hC hi, ← sh.chainCount]
  congr 1
  exact List.map_congr_left fun i hi => sh.length_chain hC (List.mem_range.1 hi)

theorem longestChain_eq (sh : c.Shows s) : c.longestChain = .ok s.longestChain := by
  rw [longestChain, Chains.longest, sh.lengths_eq]
  rfl

/-! ## What a shelf leaves open -/

/-- Two caches that show the same shelf, and whose chains run through the same slots, are equal. -/
theorem eq_of_strung {C : Nat → List SlotId} (sh : c.Shows s) (sh' : c'.Shows s)
    (st : c.Strung s.slots C) (st' : c'.Strung s.slots C) : c' = c := by
  have hcount : c'.chains.count = c.chains.count := sh'.chainCount.trans sh.chainCount.symm
  have hmap : c'.nodes.map id = c.nodes.map id := by
    refine Pool.map_eq_map (fun i => ?_) (fun i => ?_) ?_ ?_ ?_
    · rw [sh.generation?_eq, sh'.generation?_eq]
    · by_cases hi : i ∈ s.slots
      · rw [st.get?_eq st' hcount hi ((sh'.stores.load i).trans (sh.stores.load i).symm)]
      · rw [sh.stores.get?_eq_none hi, sh'.stores.get?_eq_none hi]
    · exact sh'.stores.free.trans sh.stores.free.symm
    · exact sh'.stores.live.trans sh.stores.live.symm
    · exact sh'.stores.limit.trans sh.stores.limit.symm
  have hnodes : c'.nodes = c.nodes := by rwa [Pool.map_id, Pool.map_id] at hmap
  have hchains := st.chains_eq st' hcount
  have horder := st.order_eq st'
  have hcapacity := sh'.capacity.trans sh.capacity.symm
  have hpolicy := sh'.policy.trans sh.policy.symm
  have hclock := sh'.clock.trans sh.clock.symm
  have hhash := sh'.hash.trans sh.hash.symm
  have htally := sh'.tally.trans sh.tally.symm
  cases c
  cases c'
  simp only [mk.injEq]
  exact ⟨hnodes, hchains, horder, hcapacity, hpolicy, hclock, hhash, htally⟩

/-- Two caches that show the same single record are equal. -/
theorem eq_of_slots_singleton {i : SlotId} (sh : c.Shows s) (sh' : c'.Shows s)
    (hi : s.slots = [i]) : c' = c := by
  obtain ⟨C, st⟩ := sh.wired.exists_strung
  obtain ⟨C', st'⟩ := sh'.wired.exists_strung
  have hmem : i ∈ s.slots := by rw [hi]; exact List.mem_singleton_self i
  obtain ⟨n, hn⟩ := Option.isSome_iff_exists.1 (sh.wired.isSome_get? hmem)
  obtain ⟨n', hn'⟩ := Option.isSome_iff_exists.1 (sh'.wired.isSome_get? hmem)
  have hhash : n'.hash = n.hash := by
    have hload := (sh'.stores.load i).trans (sh.stores.load i).symm
    rw [hn, hn', Option.map_some, Option.map_some, Option.some.injEq] at hload
    exact congrArg Prod.snd hload
  have hcount : c'.chains.count = c.chains.count := sh'.chainCount.trans sh.chainCount.symm
  have hold : c.chains.Hold c.nodes C [i] := hi ▸ st.chains
  have hold' : c'.chains.Hold c'.nodes C' [i] := hi ▸ st'.chains
  have hchains : ∀ j < c'.chains.count, C j = C' j := by
    intro j hj
    rw [hold'.eq_of_singleton hn' hj, hhash, hcount, hold.eq_of_singleton hn (hcount ▸ hj)]
  exact sh.eq_of_strung sh' st ⟨st'.order, st'.chains.congr hchains⟩

/-! ## By key -/

theorem matches_iff (sh : c.Shows s) (hh : h ∈ s.held) :
    Chains.Matches c.nodes (c.hash k) (·.key == k) h.slot = true ↔ (h.key == k) = true := by
  obtain ⟨n, hn, hload⟩ := sh.stores.exists_node sh.inv hh
  obtain ⟨hrecord, hhash⟩ := Prod.mk.inj hload
  have hentry : n.entry = h.entry := congrArg Record.entry hrecord
  simp only [Chains.Matches, hn, Option.any_some, hentry, hhash, sh.hash, Bool.and_eq_true,
    beq_iff_eq]
  exact ⟨And.right, fun hk => ⟨sh.agrees _ _ hk, hk⟩⟩

variable [EquivBEq κ]

theorem slot?_eq (sh : c.Shows s) (k : κ) :
    c.slot? k = .ok ((s.find? k).map Held.slot) := by
  obtain ⟨C, hC⟩ := sh.wired.chains
  have hhome := Chains.home_lt c.chains (c.hash k)
  rw [slot?, Chains.find_eq hC.toLists _ _ (sh.length_le_live hC hhome), Except.ok.injEq]
  -- a match on the chain is a record with that key
  have hsound : ∀ i ∈ C (Chains.home c.chains.count (c.hash k)),
      Chains.Matches c.nodes (c.hash k) (·.key == k) i = true →
        ∃ x ∈ s.held, x.slot = i ∧ (x.key == k) = true := by
    intro i hi hm
    obtain ⟨x, hx, rfl⟩ := Shelf.mem_slots.1 (hC.sub _ hhome i hi)
    exact ⟨x, hx, rfl, (sh.matches_iff hx).1 hm⟩
  cases hk : s.find? k with
  | none =>
    rw [Option.map_none, List.find?_eq_none]
    intro i hi hm
    obtain ⟨x, hx, -, hxk⟩ := hsound i hi hm
    rw [Shelf.find?_eq_none_iff.1 hk x hx] at hxk
    cases hxk
  | some h =>
    obtain ⟨hh, hhk⟩ := sh.inv.find?_eq_some_iff.1 hk
    obtain ⟨n, hn, hload⟩ := sh.stores.exists_node sh.inv hh
    have hmem := hC.mem _ (Shelf.mem_slots.2 ⟨h, hh, rfl⟩) n hn
    have hhash : n.hash = c.hash k := by
      rw [sh.hash, ← sh.agrees _ _ hhk]
      exact congrArg Prod.snd hload
    rw [hhash] at hmem
    cases hf : (C (Chains.home c.chains.count (c.hash k))).find?
        (Chains.Matches c.nodes (c.hash k) (·.key == k)) with
    | none => exact absurd ((sh.matches_iff hh).2 hhk) (List.find?_eq_none.1 hf _ hmem)
    | some i =>
      obtain ⟨x, hx, rfl, hxk⟩ := hsound i (List.mem_of_find?_eq_some hf) (List.find?_some hf)
      have hxh : s.find? k = some x := sh.inv.find?_eq_some_iff.2 ⟨hx, hxk⟩
      rw [hk, Option.some.injEq] at hxh
      rw [hxh, Option.map_some]

theorem find?_eq (sh : c.Shows s) (k : κ) : c.find? k = .ok ((s.find? k).map Held.entry) := by
  rw [find?, sh.slot?_eq, Fault.ok_bind]
  exact Fault.mapM_map_ok fun h hk => sh.entryIn_eq (Shelf.mem_of_find? hk)

theorem contains_eq (sh : c.Shows s) (k : κ) : c.contains k = .ok (s.find? k).isSome := by
  rw [contains, sh.slot?_eq, Fault.map_ok, Option.isSome_map]

theorem position?_eq (sh : c.Shows s) (k : κ) :
    c.position? k = .ok ((s.find? k).map s.positionOf) := by
  rw [position?, sh.slot?_eq, Fault.ok_bind]
  exact Fault.mapM_map_ok fun h hk => sh.position_eq (Shelf.mem_of_find? hk)

theorem get?_eq (sh : c.Shows s) (k : κ) : c.get? k = .ok ((s.find? k).map (·.entry.value)) := by
  rw [get?, sh.find?_eq, Fault.map_ok, Option.map_map]
  rfl

theorem get_eq (sh : c.Shows s) (k : κ) :
    c.get k = .ok ((s.find? k).elim (.error .absentKey) (.ok ·.entry.value)) := by
  rw [get, sh.get?_eq, Fault.map_ok]
  cases s.find? k <;> rfl

theorem deadline?_eq (sh : c.Shows s) (k : κ) :
    c.deadline? k = .ok ((s.find? k).bind fun h => s.policy.deadline? h.record.stamp) := by
  rw [deadline?, sh.slot?_eq, Fault.ok_bind]
  cases hk : s.find? k with
  | none => rfl
  | some h =>
    obtain ⟨a, b, hs⟩ := List.append_of_mem (Shelf.mem_of_find? hk)
    obtain ⟨n, hn, -, hstamp, -⟩ := sh.exists_node hs
    simp [hn, hstamp, sh.policy]

theorem isExpired_eq (sh : c.Shows s) (k : κ) : c.isExpired k =
    .ok ((s.find? k).any fun h => s.policy.isExpired h.record.stamp s.clock.now) := by
  rw [isExpired, sh.slot?_eq, Fault.ok_bind]
  cases hk : s.find? k with
  | none => rfl
  | some h =>
    obtain ⟨a, b, hs⟩ := List.append_of_mem (Shelf.mem_of_find? hk)
    obtain ⟨n, hn, -, hstamp, -⟩ := sh.exists_node hs
    simp [hn, hstamp, sh.policy, sh.clock]

end Shows

end Cache
end RecencyCache
