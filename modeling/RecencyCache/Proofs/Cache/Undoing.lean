import RecencyCache.Proofs.Cache.Nesting
import RecencyCache.Proofs.Cache.Recycling
import RecencyCache.Proofs.Shelf.Relabel

/-!
# Taking back a push

A push that stored its entry in a node of its own is taken back by removing the entry again, by
position or by key: `push_undone`. The cache is then as it was before in every link (`Restored`).
Only the slot that came and went has another generation, and an insertion and a removal were
counted.
-/
namespace RecencyCache

variable {κ ν : Type}

namespace Shelf

/-- The shelf `t` is `s` but for free slots, counts, and generations of slots without a record. -/
structure Keeps (s t : Shelf κ ν) : Prop where
  rest : t = { s with
    generation := t.generation, free := t.free, slotCount := t.slotCount, tally := t.tally }
  generation : ∀ i ∈ s.slots, t.generation i = s.generation i

variable {s t : Shelf κ ν} {x : Held κ ν}

namespace Keeps

variable (k : s.Keeps t)
include k

theorem held : t.held = s.held := (congrArg Shelf.held k.rest).trans rfl

theorem positionOf_eq (hx : x ∈ s.held) : t.positionOf x = s.positionOf x := by
  rw [positionOf, positionOf, k.generation _ (mem_slots.2 ⟨x, hx, rfl⟩)]

theorem map_positionOf {o : Option (Held κ ν)} (ho : ∀ x, o = some x → x ∈ s.held) :
    o.map t.positionOf = o.map s.positionOf :=
  Option.map_congr fun x hx => k.positionOf_eq (ho x hx)

theorem at?_eq (pos : Position) : t.at? pos = s.at? pos := by
  rw [at?, at?, k.held, ← List.head?_filter, ← List.head?_filter]
  exact congrArg List.head? (List.filter_congr fun x hx => by rw [k.positionOf_eq hx])

theorem load?_eq (i : SlotId) : t.load? i = s.load? i := by
  rw [k.rest]
  rfl

/-- A query answers the same, unless it asks for the counts. -/
theorem ask_eq [BEq κ] (inv : s.Inv) {q : Query κ} (hq : q ≠ .summary) : t.ask q = s.ask q := by
  have hfind : ∀ k, t.find? k = s.find? k := fun _ => by rw [find?, k.held, find?]
  have hafter : ∀ x, t.after? x = s.after? x := fun _ => by rw [after?, k.held, after?]
  have hold : t.oldest? = s.oldest? := by rw [oldest?, k.held, oldest?]
  cases q with
  | summary => exact absurd rfl hq
  | position key =>
    rw [ask, ask, hfind, k.map_positionOf fun x hx => mem_of_find? hx]
  | newestPosition =>
    rw [ask, ask, k.held, k.map_positionOf fun x hx => List.mem_of_head? hx]
  | oldestPosition =>
    rw [ask, ask, hold, k.map_positionOf fun x hx => mem_of_oldest? hx]
  | positionAfter pos =>
    rw [ask, ask, k.at?_eq, funext hafter, k.map_positionOf]
    intro x hx
    obtain ⟨y, hy, hyx⟩ := Option.bind_eq_some_iff.1 hx
    exact inv.mem_of_after? (inv.at?_eq_some_iff.1 hy).1 hyx
  | entryAt pos => rw [ask, ask, k.at?_eq]
  | _ =>
    rw [k.rest]
    rfl

end Keeps

/-- The shelf after a new record came to a slot of its own. -/
def inserted (s : Shelf κ ν) (h : Held κ ν) (free : List SlotId) (slotCount : Nat) : Shelf κ ν :=
  { s with held := h :: s.held, free, slotCount }.count .insertion

theorem exists_inserted (s : Shelf κ ν) (e : Entry κ ν) : ∃ free slotCount,
    (s.store e).count .insertion = s.inserted ⟨s.stamped e, s.upcoming 0⟩ free slotCount := by
  obtain ⟨free, slotCount, hstore, -⟩ := s.exists_store e
  exact ⟨free, slotCount, congrArg (·.count .insertion) hstore⟩

section Inserted

variable [BEq κ] {h : Held κ ν} {free : List SlotId} {slotCount : Nat}
  (inv : (s.inserted h free slotCount).Inv)
include inv

theorem find?_inserted [EquivBEq κ] : (s.inserted h free slotCount).find? h.key = some h :=
  inv.find?_eq_some_iff.2 ⟨List.mem_cons_self, BEq.rfl⟩

theorem after?_inserted : (s.inserted h free slotCount).after? h = s.held.head? :=
  inv.after?_eq (a := []) rfl

/-- A record that came and leaves again. -/
theorem keeps_drop_inserted (e : Event) :
    s.Keeps (((s.inserted h free slotCount).drop h).count e) := by
  have hwithout := inv.without_eq (a := []) (b := s.held) rfl
  refine ⟨?_, fun i hi => ?_⟩
  · rw [count, drop, hwithout]
    rfl
  · have hne : h.slot ≠ i := by
      rintro rfl
      exact (List.nodup_cons.1 inv.slots).1 hi
    exact if_neg hne

end Inserted

end Shelf

namespace Cache

/-- The cache `c'` is `c` after an insertion that was taken back. -/
structure Restored [BEq κ] (c c' : Cache κ ν) : Prop where
  /-- Entries, push times and all links. -/
  node : ∀ i, c'.nodes.get? i = c.nodes.get? i
  /-- A position leads to the same slot, or still nowhere. -/
  resolve : ∀ pos, c'.nodes.resolve pos = c.nodes.resolve pos
  records : ∃ l, c.records = .ok l ∧ c'.records = .ok l
  chain : ∀ i < c.chainCount, ∃ slots,
    c.chains.chain c.nodes i = .ok slots ∧ c'.chains.chain c'.nodes i = .ok slots
  /-- Every query but the one for the counts has the same answer. -/
  ask : ∀ q, q ≠ .summary → ∃ answer, c.ask q = .ok answer ∧ c'.ask q = .ok answer
  summary : c'.summary = (c.summary.count .insertion).count .removal
  /-- The ends of the order, the heads of the chains, the limits and the clock. -/
  rest : c' = { c with nodes := c'.nodes, tally := (c.tally.count .insertion).count .removal }

section Keyed

variable [BEq κ] {c c' d : Cache κ ν} {s t : Shelf κ ν} {e : Entry κ ν}
  {C : Nat → List SlotId}

theorem Shows.restored [EquivBEq κ] (sh : c.Shows s) (sh' : c'.Shows t) (k : s.Keeps t)
    (ht : t.tally = (s.tally.count .insertion).count .removal) (st : c.Strung s.slots C)
    (st' : c'.Strung s.slots C) : c.Restored c' := by
  have hslots : t.slots = s.slots := by rw [Shelf.slots, k.held, Shelf.slots]
  have hcount : c'.chains.count = c.chains.count := by
    rw [sh'.chainCount, k.rest, sh.chainCount]
  refine ⟨fun i => ?_, fun pos => ?_, ?_, fun i hi => ?_, fun q hq => ?_, ?_, ?_⟩
  · by_cases hi : i ∈ s.slots
    · refine st.get?_eq st' hcount hi ?_
      rw [sh'.stores.load, sh.stores.load, k.load?_eq]
    · rw [sh.stores.get?_eq_none hi, sh'.stores.get?_eq_none (hslots ▸ hi)]
  · rw [sh'.resolve_eq, sh.resolve_eq, k.at?_eq]
  · have hrecords : t.roster.records = s.roster.records := by
      rw [k.rest]
      rfl
    exact ⟨_, sh.records_eq, hrecords ▸ sh'.records_eq⟩
  · have hi' : i < c'.chains.count := hcount.symm ▸ hi
    exact ⟨C i, Chains.chain_eq st.chains.toLists hi (sh.length_le_live st.chains hi),
      Chains.chain_eq st'.chains.toLists hi' (sh'.length_le_live (hslots.symm ▸ st'.chains) hi')⟩
  · exact ⟨s.ask q, sh.ask_eq q, k.ask_eq sh.inv hq ▸ sh'.ask_eq q⟩
  · rw [sh'.summary_eq, sh.summary_eq, Shelf.summary, ht, Shelf.size, k.held]
    rfl
  · have horder := st.order_eq st'
    have hchains := st.chains_eq st' hcount
    have hcapacity : c'.capacity = c.capacity := by rw [sh'.capacity, k.rest, sh.capacity]
    have hpolicy : c'.policy = c.policy := by rw [sh'.policy, k.rest, sh.policy]
    have hclock : c'.clock = c.clock := by rw [sh'.clock, k.rest, sh.clock]
    have hhash : c'.hash = c.hash := by rw [sh'.hash, k.rest, sh.hash]
    have htally : c'.tally = (c.tally.count .insertion).count .removal := by
      rw [sh'.tally, ht, ← sh.tally]
    rw [← htally, ← hchains, ← horder, ← hcapacity, ← hpolicy, ← hclock, ← hhash]

/-- Removing a record that came last, by position or by key. -/
theorem Shows.exists_undone [EquivBEq κ] {h : Held κ ν} {free : List SlotId} {slotCount : Nat}
    (sh : c.Shows s) (st : c.Strung s.slots C) (shd : d.Shows (s.inserted h free slotCount))
    (std : d.Strung (h.slot :: s.slots)
      (Chains.consAt C (Chains.home s.chainCount (s.hash h.key)) h.slot)) :
    ∃ pos c', d.position? h.key = .ok (some pos) ∧
      d.eraseAt pos = .ok (s.held.head?.map s.positionOf, c') ∧
      d.take h.key = .ok (some h.entry, c') ∧ c.Restored c' := by
  have hfind := Shelf.find?_inserted shd.inv
  have hh := Shelf.mem_of_find? hfind
  have keeps := Shelf.keeps_drop_inserted shd.inv .removal
  obtain ⟨c', hc', sh', st'⟩ := shd.exists_discard_strung std hh
  have hundo : (c'.count .removal).Strung s.slots C := by
    have hheld : ((s.inserted h free slotCount).drop h).held = s.held := keeps.held
    have hchains :=
      Chains.eraseAt_consAt C (Chains.home s.chainCount (s.hash h.key)) h.slot
    rw [← hchains, Shelf.slots, ← hheld]
    exact { st' with }
  refine ⟨(s.inserted h free slotCount).positionOf h, c'.count .removal, ?_, ?_,
    take_of_discard hc' shd hfind, sh.restored (sh'.count .removal) keeps rfl st hundo⟩
  · rw [shd.position?_eq, hfind, Option.map_some]
  · have hat := shd.inv.at?_eq_some_iff.2 ⟨hh, rfl⟩
    have hfront : s.held.head?.map ((s.inserted h free slotCount).drop h).positionOf =
        s.held.head?.map s.positionOf :=
      keeps.map_positionOf fun x hx => List.mem_of_head? hx
    rw [eraseAt_of_discard hc' shd hat sh', Shelf.remove, Shelf.after?_inserted shd.inv, hfront]

/-- Storing an entry in a node of its own, and removing it again. -/
theorem Shows.exists_insertNew_undone [EquivBEq κ] (sh : c.Shows s) (hk : s.find? e.key = none)
    (hl : s.reachedLimit? = none) : ∃ d pos c', c.insertNew e = .ok (.ok true, d) ∧
      d.position? e.key = .ok (some pos) ∧
      d.eraseAt pos = .ok (s.held.head?.map s.positionOf, c') ∧
      d.take e.key = .ok (some e, c') ∧ c.Restored c' := by
  obtain ⟨C, st⟩ := sh.wired.exists_strung
  obtain ⟨d, i, hd, shd, hslots, std⟩ := sh.exists_insertNew st hk hl
  obtain ⟨free, n, hinserted⟩ := s.exists_inserted e
  have hnew : (s.store e).slots = s.upcoming 0 :: s.slots :=
    congrArg Shelf.slots hinserted
  rw [hinserted] at shd
  rw [hnew] at std hslots
  obtain rfl : s.upcoming 0 = i := (List.cons.inj hslots).1
  obtain ⟨pos, c', hundone⟩ := sh.exists_undone st shd std
  exact ⟨d, pos, c', hd, hundone⟩

variable [EquivBEq κ] [Inhabited ν] {hash : κ → UInt64}

/-- **Taking back a push.** A push of an absent key that displaced nothing is taken back by erasing
its position, by erasing its key, and by taking its key. Erasing answers the position of the entry
that was at the front before. -/
theorem push_undone (ha : Agrees hash) (hc : c.Reachable hash) (hk : c.contains e.key = .ok false)
    (hpush : c.push e = .ok (.ok true, d)) (hev : d.summary.evictions = c.summary.evictions) :
    ∃ front pos c', c.newestPosition? = .ok front ∧ d.position? e.key = .ok (some pos) ∧
      d.eraseAt pos = .ok (front, c') ∧ d.erase e.key = .ok (front, c') ∧
      d.take e.key = .ok (some e, c') ∧ c.Restored c' := by
  obtain ⟨s, sh⟩ := hc.exists_shows ha
  rw [sh.contains_eq, Except.ok.injEq, Option.isSome_eq_false_iff, Option.isNone_iff_eq_none] at hk
  cases hv : s.victim? with
  | some h =>
    -- the oldest entry would have been displaced, and that is counted
    have hh := Shelf.mem_of_oldest? (Shelf.oldest?_of_victim? hv)
    obtain ⟨d', hd', shd⟩ := sh.exists_replace hh (Shelf.without_key_ne hk h.slot)
    rw [sh.push_eq_replace hk hv, hd'] at hpush
    cases hpush
    rw [shd.summary_eq, sh.summary_eq] at hev
    exact absurd hev (Nat.succ_ne_self _)
  | none =>
    rw [sh.push_eq_insertNew hk hv] at hpush
    cases hl : s.reachedLimit? with
    | some limit =>
      rw [insertNew, sh.stores.store_refused hl] at hpush
      cases hpush
    | none =>
      obtain ⟨d', pos, c', hd', hpos, herase, htake, hrestored⟩ :=
        sh.exists_insertNew_undone hk hl
      rw [hd'] at hpush
      cases hpush
      refine ⟨_, pos, c', sh.newestPosition?_eq, hpos, herase, ?_, htake, hrestored⟩
      rw [erase, hpos]
      exact herase

/-- A push into a slot that was freed before, onto the chain of the entry at the front. -/
theorem push_undone_reused : ∃ answers c d,
    (empty 3 1 .bySize (HashScheme.constant 0).hash : Cache Int64 Unit).run
      [.command (.push none ⟨0, ()⟩), .command (.push none ⟨1, ()⟩),
        .command (.take 0)] = .ok (answers, c) ∧
    c.contains 2 = .ok false ∧ c.push ⟨2, ()⟩ = .ok (.ok true, d) ∧
    d.summary.evictions = c.summary.evictions ∧
    ∃ front pos c', c.newestPosition? = .ok front ∧ d.position? 2 = .ok (some pos) ∧
      d.eraseAt pos = .ok (front, c') ∧ d.erase 2 = .ok (front, c') ∧
      d.take 2 = .ok (some ⟨2, ()⟩, c') ∧ c.Restored c' := by
  have sh := shows_empty (κ := Int64) (ν := Unit) (agrees_of_lawful (HashScheme.constant 0).hash)
    3 1 .bySize .initial
  obtain ⟨c, hc, shc⟩ := sh.follows_run [.command (.push none ⟨0, ()⟩),
    .command (.push none ⟨1, ()⟩), .command (.take 0)]
  obtain ⟨d, hd, shd⟩ := shc.follows_push ⟨2, ()⟩
  have hk : c.contains 2 = .ok false := shc.contains_eq 2
  have hpush : c.push ⟨2, ()⟩ = .ok (.ok true, d) := hd
  have hev : d.summary.evictions = c.summary.evictions := by
    rw [shd.summary_eq, shc.summary_eq]
    rfl
  exact ⟨_, c, d, hc, hk, hpush, hev,
    push_undone (agrees_of_lawful _) ((Reachable.empty ..).run hc) hk hpush hev⟩

end Keyed

end Cache
end RecencyCache
