import RecencyCache.Proofs.Cache.Coherence
import RecencyCache.Proofs.Cache.Cursor
import RecencyCache.Proofs.Cache.Refusals

/-!
# No operation is a fault

In every state of every run all operations go through, whatever positions they are given, and so
does every cursor (`Sound`). The slots that operations start from and step to are occupied: the ends
of the order, the first nodes of the chains, every neighbour on either strand, and the slot of a
key. Free slots are vacant. So the answers that guard against the opposite are never given: a pop is
refused for want of entries only, and a key that was just made sure of is never absent. All of this
is `run_sound`.
-/
namespace RecencyCache.Cache

variable {κ ν : Type} [BEq κ]

/-- Whether slot `i` holds a node. -/
def Occupied (c : Cache κ ν) (i : SlotId) : Prop := (c.nodes.get? i).isSome

/-- What no operation on a cache can break. -/
structure Sound [Inhabited ν] (c : Cache κ ν) : Prop where
  perform : ∀ op, ∃ answer c', c.perform op = .ok (answer, c')
  /-- Taking entries from both ends of a cursor over the cache, in any order. -/
  cursor : ∀ ends, ∃ found w, c.cursor.popEnds ends = .ok (found, w)
  head : ∀ i ∈ c.order.head, c.Occupied i
  tail : ∀ i ∈ c.order.tail, c.Occupied i
  first : ∀ t, ∀ i ∈ c.chains.head? t, c.Occupied i
  /-- Every hash selects a chain that there is. -/
  select : ∀ hash, (c.chains.select hash).val < c.chainCount
  /-- The neighbours of a node, on both strands. -/
  neighbour : ∀ i n, c.nodes.get? i = some n → ∀ t j,
    (n.link t).prev = some j ∨ (n.link t).next = some j → c.Occupied j
  slot : ∀ k i, c.slot? k = .ok (some i) → c.Occupied i
  /-- An answered position is that of an entry. -/
  position : ∀ op pos c', c.perform op = .ok (.position (some pos), c') → c'.Occupied pos.slot
  /-- The slots that new nodes are stored in are in range and vacant. -/
  free : ∀ i ∈ c.nodes.free, i < c.nodes.slots.size ∧ ¬ c.Occupied i
  /-- Where there is a node, both counts of nodes are above zero. -/
  counted : ∀ i, c.Occupied i → 0 < c.size ∧ 0 < c.nodes.live
  discard : ∀ i n, c.nodes.get? i = some n → ∃ c', c.discard i = .ok (some n.entry, c')
  pop : (∃ r c', c.pop = .ok (.error r, c')) ↔ c.isEmpty = true
  ensure : ∀ k r c', c.ensure k = .ok (.error r, c') → r ≠ .absentKey
  ensureWrite : ∀ k v r c', c.ensureWrite k v = .ok (.error r, c') → r ≠ .absentKey

namespace Shows

variable {c : Cache κ ν} {s : Shelf κ ν} {h : Held κ ν} {n : Node κ ν} {i j : SlotId}

theorem occupied_iff (sh : c.Shows s) : c.Occupied i ↔ i ∈ s.slots := sh.stores.isSome_get?_iff

theorem occupied_slot (sh : c.Shows s) (hh : h ∈ s.held) : c.Occupied h.slot :=
  sh.occupied_iff.2 (Shelf.mem_slots.2 ⟨h, hh, rfl⟩)

theorem occupied_of_chain (sh : c.Shows s) {C : Nat → List SlotId}
    (hC : c.chains.Hold c.nodes C s.slots) {t : Nat} (hi : c.chains.head? t = some i) :
    c.Occupied i := by
  have ht : t < c.chains.count := by
    by_contra hge
    rw [Chains.head?, Array.getElem?_eq_none (Nat.le_of_not_lt hge)] at hi
    cases hi
  rw [hC.head t ht] at hi
  exact sh.occupied_iff.2 (hC.sub t ht i (List.mem_of_head? hi))

/-- A neighbour on the order is on the order, and one on a chain is on that chain. -/
theorem occupied_of_link (sh : c.Shows s) (hi : c.nodes.get? i = some n) {t : Strand}
    (hj : (n.link t).prev = some j ∨ (n.link t).next = some j) : c.Occupied j := by
  have his : i ∈ s.slots := sh.occupied_iff.1 (by rw [Occupied, hi]; rfl)
  cases t with
  | recency =>
    exact sh.occupied_iff.2 (Strand.mem_of_link sh.wired.order.threads sh.inv.slots his hi hj)
  | chain =>
    obtain ⟨C, hC⟩ := sh.wired.chains
    have hlt := Chains.home_lt c.chains n.hash
    have hmem := Strand.mem_of_link (hC.threads _ hlt) (hC.nodup _ hlt) (hC.mem i his n hi) hi hj
    exact sh.occupied_iff.2 (hC.sub _ hlt j hmem)

theorem pop_refused_iff (sh : c.Shows s) :
    (∃ r c', c.pop = .ok (.error r, c')) ↔ c.isEmpty = true := by
  rw [isEmpty, sh.size_eq, beq_iff_eq]
  obtain ⟨c', hc', -⟩ := sh.follows_pop
  rw [hc']
  constructor
  · rintro ⟨r, c₁, h⟩
    by_contra hsize
    obtain ⟨x, -, hpop⟩ := Shelf.exists_pop (Nat.pos_of_ne_zero hsize)
    rw [hpop] at h
    cases h
  · intro hsize
    rw [← Shelf.oldest?_eq_none_iff] at hsize
    exact ⟨.noEntries, c', by rw [Shelf.pop, hsize]⟩

variable [EquivBEq κ] [Inhabited ν]

/-- What refuses to make sure of a key is the limit on the nodes. -/
theorem ne_absentKey_of_refused (sh : c.Shows s) {op : Op κ ν} {k : κ} {r : Refusal}
    {c' : Cache κ ν} (hk : op.newcomer? = some k) (hop : c.perform op = .ok (.refused r, c')) :
    r ≠ .absentKey := by
  have hanswer := ((sh.follows_perform op).of_ok hop).1
  obtain ⟨n, hroom⟩ := Shelf.exists_noRoom_of_perform hk hanswer.symm
  rw [sh.perform_of_noRoom hk hroom] at hop
  cases hop
  exact Refusal.noConfusion

theorem sound (sh : c.Shows s) : c.Sound where
  perform op := by
    obtain ⟨c', hc', -⟩ := sh.follows_perform op
    exact ⟨_, c', hc'⟩
  cursor ends := by
    obtain ⟨w, -, -, -, hw, -⟩ := sh.popEnds_eq sh.spans_cursor ends
    exact ⟨_, w, hw⟩
  head i hi := by
    rw [sh.head_eq] at hi
    obtain ⟨h, hh, rfl⟩ := Option.map_eq_some_iff.1 hi
    exact sh.occupied_slot (List.mem_of_head? hh)
  tail i hi := by
    rw [sh.tail_eq] at hi
    obtain ⟨h, hh, rfl⟩ := Option.map_eq_some_iff.1 hi
    exact sh.occupied_slot (Shelf.mem_of_oldest? hh)
  first t i hi := by
    obtain ⟨C, hC⟩ := sh.wired.chains
    exact sh.occupied_of_chain hC hi
  select hash := (c.chains.select hash).isLt
  neighbour i n hi t j hj := sh.occupied_of_link hi hj
  slot k i hi := by
    rw [sh.slot?_eq, Except.ok.injEq] at hi
    obtain ⟨h, hh, rfl⟩ := Option.map_eq_some_iff.1 hi
    exact sh.occupied_slot (Shelf.mem_of_find? hh)
  position op pos c' hop := by
    obtain ⟨hanswer, sh'⟩ := (sh.follows_perform op).of_ok hop
    obtain ⟨h, hh, rfl⟩ := Shelf.exists_of_position sh.inv hanswer.symm
    exact sh'.occupied_slot hh
  free i hi := by
    rw [sh.stores.free, sh.inv.mem_free] at hi
    rw [sh.stores.slotCount, sh.occupied_iff]
    exact hi
  counted i hi := by
    have hlen := List.length_pos_of_mem (sh.occupied_iff.1 hi)
    rw [sh.stores.live, sh.size_eq, Shelf.size, ← List.length_map (f := Held.slot)]
    exact ⟨hlen, hlen⟩
  discard i n hi := by
    obtain ⟨h, hh, rfl, hentry, -⟩ := sh.exists_held hi
    obtain ⟨c', hc', -⟩ := sh.exists_discard hh
    exact ⟨c', by rw [hc', hentry]⟩
  pop := sh.pop_refused_iff
  ensure k r c' hr := by
    have hop : c.perform (.command (.ensure k)) = .ok (.refused r, c') := by
      rw [Cache.perform, apply, hr]
      rfl
    exact sh.ne_absentKey_of_refused rfl hop
  ensureWrite k v r c' hr := by
    have hop : c.perform (.command (.ensureWrite k v)) = .ok (.refused r, c') := by
      rw [Cache.perform, apply, hr]
      rfl
    exact sh.ne_absentKey_of_refused rfl hop

end Shows

variable [EquivBEq κ] [Inhabited ν] {hash : κ → UInt64} {c : Cache κ ν}

/-- **No fault.** Every run of a reachable cache goes through, and in each of its states every
operation is sound. -/
theorem run_sound (ha : Agrees hash) (hc : c.Reachable hash) (ops : List (Op κ ν)) :
    ∃ answers earlier last, c.run ops = .ok (answers, last) ∧
      c.history ops = .ok (earlier, last) ∧ ∀ x ∈ earlier ++ [last], x.Sound := by
  obtain ⟨earlier, last, hlast, hreach⟩ := hc.exists_history ha ops
  obtain ⟨answers, hrun⟩ := exists_run_of_history hlast
  refine ⟨answers, earlier, last, hrun, hlast, fun x hx => ?_⟩
  obtain ⟨s, sh⟩ := (hreach x hx).exists_shows ha
  exact sh.sound

/-- A run with positions of slots that there are not, of an entry that was evicted, and of one that
is there, and with a pop at the end that finds nothing. -/
theorem sound_of_strange_positions :
    let ops : List (Op Int64 Unit) :=
      [.query (.entryAt ⟨7, 0⟩), .command (.eraseAt ⟨0, 5⟩), .command (.push none ⟨0, ()⟩),
        .command (.push (some ⟨9, 9⟩) ⟨1, ()⟩), .query (.positionAfter ⟨0, 0⟩),
        .command (.ensure 2), .command (.eraseAt ⟨0, 2⟩), .command .pop]
    ∃ answers earlier last,
      (empty 1 3 .bySize HashScheme.identity.hash : Cache Int64 Unit).run ops =
        .ok (answers, last) ∧
      (empty 1 3 .bySize HashScheme.identity.hash : Cache Int64 Unit).history ops =
        .ok (earlier, last) ∧ ∀ x ∈ earlier ++ [last], x.Sound :=
  run_sound (agrees_of_lawful _) (.empty ..) _

end RecencyCache.Cache
