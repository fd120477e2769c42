import RecencyCache.Cache.Run
import RecencyCache.Proofs.Cache.Shows

/-!
# Commands on a cache that shows a shelf

`Follows r t` says that the result `r` of a command is no fault, answers what the shelf answers, and
leaves a cache that shows the shelf after the command. First come the changes of one node
(`exists_discard`, `exists_refresh`, `exists_replace`, `exists_insertNew`, `exists_exchange`), then
the commands made of them.
-/
namespace RecencyCache.Cache

variable {κ ν : Type} [BEq κ]

theorem Alike.of_rewired {c c' : Cache κ ν} {s : Shelf κ ν} (al : c.Alike s)
    (rw : c.Rewired c') : c'.Alike s where
  agrees := al.agrees
  chainCount := rw.count.trans al.chainCount
  capacity := (congrArg Cache.capacity rw.rest).trans al.capacity
  policy := (congrArg Cache.policy rw.rest).trans al.policy
  clock := (congrArg Cache.clock rw.rest).trans al.clock
  hash := (congrArg Cache.hash rw.rest).trans al.hash
  tally := (congrArg Cache.tally rw.rest).trans al.tally

theorem Alike.store {c : Cache κ ν} {s : Shelf κ ν} (al : c.Alike s) (e : Entry κ ν) :
    c.Alike (s.store e) := by
  unfold Shelf.store
  split <;> exact { al with }

namespace Shows

variable {c : Cache κ ν} {s : Shelf κ ν} {h : Held κ ν} {e : Entry κ ν} {k : κ}

theorem count (sh : c.Shows s) (ev : Event) : (c.count ev).Shows (s.count ev) where
  agrees := sh.agrees
  chainCount := sh.chainCount
  capacity := sh.capacity
  policy := sh.policy
  clock := sh.clock
  hash := sh.hash
  tally := congrArg (·.count ev) sh.tally
  inv := Shelf.inv_count sh.inv ev
  stores := { sh.stores with }
  wired := { sh.wired with }

/-! ## One node -/

/-- The slots around a record. -/
theorem wired_split (sh : c.Shows s) {a b : List (Held κ ν)} (hs : s.held = a ++ h :: b) :
    c.Wired (a.map Held.slot ++ h.slot :: b.map Held.slot) := Shelf.slots_append hs ▸ sh.wired

theorem slots_without (sh : c.Shows s) {a b : List (Held κ ν)} (hs : s.held = a ++ h :: b) :
    (s.without h.slot).map Held.slot = a.map Held.slot ++ b.map Held.slot := by
  rw [sh.inv.without_eq hs, List.map_append]

theorem exists_discard_strung {C : Nat → List SlotId} (sh : c.Shows s) (st : c.Strung s.slots C)
    (hh : h ∈ s.held) : ∃ c', c.discard h.slot = .ok (some h.entry, c') ∧ c'.Shows (s.drop h) ∧
      c'.Strung (s.drop h).slots
        (Chains.eraseAt C (Chains.home s.chainCount (s.hash h.key)) h.slot) := by
  obtain ⟨a, b, hs⟩ := List.append_of_mem hh
  rw [Shelf.slots_append hs] at st
  obtain ⟨m, hm, hload⟩ := sh.stores.exists_node sh.inv hh
  have hhash : m.hash = s.hash h.key := congrArg Prod.snd hload
  obtain ⟨c₁, hc₁, st₁, hrw⟩ := st.exists_unlink hm
  obtain ⟨n, q, hq, hentry, hst⟩ := (sh.stores.of_load hrw.load).exists_release sh.inv hh
  have al := sh.toAlike.of_rewired hrw
  have st' : { c₁ with nodes := q }.Strung (s.drop h).slots
      (Chains.eraseAt C (Chains.home s.chainCount (s.hash h.key)) h.slot) := by
    show Strung _ ((s.without h.slot).map Held.slot) _
    rw [sh.slots_without hs, ← hhash, ← sh.chainCount]
    refine st₁.of_nodes fun i hi => ?_
    rw [Pool.get?_release hq, if_neg]
    rintro rfl
    exact (List.nodup_middle.1 st.order.nodup).notMem hi
  refine ⟨{ c₁ with nodes := q }, ?_, ⟨{ al with }, Shelf.inv_drop sh.inv hh, hst, st'.wired⟩, st'⟩
  simp only [discard, hc₁, hq, Fault.ok_bind, Option.map_some, hentry, Fault.pure_eq]

theorem exists_discard (sh : c.Shows s) (hh : h ∈ s.held) :
    ∃ c', c.discard h.slot = .ok (some h.entry, c') ∧ c'.Shows (s.drop h) := by
  obtain ⟨C, st⟩ := sh.wired.exists_strung
  obtain ⟨c', hc', sh', -⟩ := sh.exists_discard_strung st hh
  exact ⟨c', hc', sh'⟩

theorem exists_refresh [EquivBEq κ] (sh : c.Shows s) (hk : s.find? e.key = some h) :
    ∃ c', c.refresh h.slot e = .ok c' ∧ c'.Shows (s.refresh h e) := by
  obtain ⟨hh, hhk⟩ := sh.inv.find?_eq_some_iff.1 hk
  obtain ⟨a, b, hs⟩ := List.append_of_mem hh
  obtain ⟨p, hp, hst⟩ := sh.stores.exists_modify (e := e)
    (f := fun n => { n with entry := e, stamp := c.clock.now }) sh.inv hh fun n hn => by
      rw [sh.clock]
      exact Prod.ext rfl ((congrArg Prod.snd hn).trans (sh.agrees _ _ hhk))
  have w := (sh.wired_split hs).modify hp fun _ => rfl
  obtain ⟨r, q, hq, w', hload⟩ := exists_promote w
  have sh' : { c with nodes := q, order := r }.Shows
      { s with held := ⟨s.stamped e, h.slot⟩ :: s.without h.slot } := by
    refine ⟨{ sh.toAlike with }, ?_, hst.of_load hload, ?_⟩
    · exact { Shelf.inv_refresh sh.inv hk with }
    · show Wired _ (h.slot :: (s.without h.slot).map Held.slot)
      rw [sh.slots_without hs]
      exact w'
  refine ⟨_, ?_, sh'.count .refresh⟩
  simp only [refresh, hp, hq, Fault.ok_bind, Fault.pure_eq]

theorem exists_replace [EquivBEq κ] (sh : c.Shows s) (hh : h ∈ s.held)
    (hk : ∀ x ∈ s.without h.slot, (x.key == e.key) = false) :
    ∃ c', c.replace h.slot e = .ok c' ∧ c'.Shows (s.replace h e) := by
  obtain ⟨a, b, hs⟩ := List.append_of_mem hh
  obtain ⟨c₁, hc₁, w₁, hrw₁⟩ := exists_unlink (sh.wired_split hs)
  have al₁ := sh.toAlike.of_rewired hrw₁
  have hnot := (List.nodup_middle.1 (sh.wired_split hs).nodup).notMem
  obtain ⟨p, hp, hst⟩ := (sh.stores.of_load hrw₁.load).exists_modify (e := e)
    (f := fun n => { n with entry := e, stamp := c₁.clock.now, hash := c₁.hash e.key })
    sh.inv hh fun n _ => by
      rw [al₁.clock, al₁.hash]
      rfl
  have al₂ : Alike { c₁ with nodes := p.renew h.slot } s := { al₁ with }
  have w₂ : { c₁ with nodes := p.renew h.slot }.Wired (a.map Held.slot ++ b.map Held.slot) := by
    refine w₁.of_nodes fun i hi => ?_
    rw [Pool.get?_renew, Pool.get?_modify hp, if_neg]
    rintro rfl
    exact hnot hi
  have hi : ((p.renew h.slot).get? h.slot).isSome := by
    rw [(hst.renew h.slot).isSome_get?_iff]
    exact List.mem_cons_self
  obtain ⟨c₃, hc₃, w₃, hrw₃⟩ := exists_link w₂ hi hnot
  have sh' : c₃.Shows { s with
      held := ⟨s.stamped e, h.slot⟩ :: s.without h.slot, generation := s.renewed h.slot } := by
    refine ⟨{ al₂.of_rewired hrw₃ with }, { Shelf.inv_replace sh.inv hh hk with },
      (hst.renew h.slot).of_load hrw₃.load, ?_⟩
    show Wired _ (h.slot :: (s.without h.slot).map Held.slot)
    rw [sh.slots_without hs]
    exact w₃
  refine ⟨_, ?_, (sh'.count .eviction).count .insertion⟩
  simp only [replace, hc₁, hp, hc₃, Fault.ok_bind, Fault.pure_eq]

theorem exists_insertNew [EquivBEq κ] {C : Nat → List SlotId} (sh : c.Shows s)
    (st : c.Strung s.slots C) (hk : s.find? e.key = none) (hl : s.reachedLimit? = none) :
    ∃ c' i, c.insertNew e = .ok (.ok true, c') ∧ c'.Shows ((s.store e).count .insertion) ∧
      (s.store e).slots = i :: s.slots ∧ c'.Strung (s.store e).slots
        (Chains.consAt C (Chains.home s.chainCount (s.hash e.key)) i) := by
  obtain ⟨i, q, hq, hst, hi, hslots, hnot, hget⟩ := sh.stores.exists_store (e := e)
    (n := { entry := e, stamp := c.clock.now, hash := c.hash e.key }) sh.inv hl (by
      rw [sh.clock, sh.hash]
      rfl)
  have st₁ : { c with nodes := q }.Strung s.slots C :=
    st.of_nodes fun j hj => by rw [hget j hj]
  have al : Alike { c with nodes := q } s := { sh.toAlike with }
  obtain ⟨c', hc', st', hrw⟩ := st₁.exists_link hi hnot
  rw [← hslots] at st'
  have sh' : c'.Shows (s.store e) :=
    ⟨(al.of_rewired hrw).store e, Shelf.inv_store sh.inv hk, hst.of_load hrw.load, st'.wired⟩
  refine ⟨c'.count .insertion, i, ?_, sh'.count .insertion, hslots, ?_⟩
  · simp only [insertNew, hq, hc', Fault.ok_bind, Fault.pure_eq]
  · rw [← sh.chainCount, ← sh.hash]
    exact { st' with }

theorem exists_exchange (sh : c.Shows s) (hh : h ∈ s.held) (v : ν) :
    ∃ c', c.exchange h.slot v = .ok (h.entry.value, c') ∧ c'.Shows (s.overwrite h v) := by
  obtain ⟨q, hq, hst⟩ := sh.stores.exists_overwrite sh.inv hh v
  refine ⟨{ c with nodes := q }, ?_, { sh.toAlike with }, Shelf.inv_overwrite sh.inv h v, hst, ?_⟩
  · simp only [exchange, sh.entryIn_eq hh, hq, Fault.ok_bind, Fault.pure_eq]
  · rw [Shelf.slots_overwrite]
    exact sh.wired.modify hq fun _ => rfl

end Shows

/-! ## Commands -/

/-- The result is the shelf's answer and a cache that shows the shelf. -/
def Follows {α : Type} (r : Except Fault (α × Cache κ ν)) (t : α × Shelf κ ν) : Prop :=
  ∃ c', r = .ok (t.1, c') ∧ c'.Shows t.2

theorem Follows.map {α β : Type} {r : Except Fault (α × Cache κ ν)} {t : α × Shelf κ ν}
    (hr : Follows r t) (f : α → β) : Follows (Prod.map f id <$> r) (t.map f id) := by
  obtain ⟨c', rfl, sh⟩ := hr
  exact ⟨c', rfl, sh⟩

/-- What a command that follows a shelf answered, and what it left. -/
theorem Follows.of_ok {α : Type} {r : Except Fault (α × Cache κ ν)} {t : α × Shelf κ ν} {a : α}
    {c : Cache κ ν} (hr : Follows r t) (h : r = .ok (a, c)) : a = t.1 ∧ c.Shows t.2 := by
  obtain ⟨c', hc', sh⟩ := hr
  rw [hc'] at h
  cases h
  exact ⟨rfl, sh⟩

namespace Shows

variable {c : Cache κ ν} {s : Shelf κ ν} {h : Held κ ν} {e : Entry κ ν} {k : κ}

/-- A command that does nothing. -/
theorem follows_pure {α : Type} (sh : c.Shows s) (a : α) : Follows (.ok (a, c)) (a, s) :=
  ⟨c, rfl, sh⟩

theorem follows_insertNew [EquivBEq κ] (sh : c.Shows s) (hk : s.find? e.key = none) :
    Follows (c.insertNew e) (s.insertNew e) := by
  cases hl : s.reachedLimit? with
  | some limit =>
    rw [insertNew, Shelf.insertNew, hl, sh.stores.store_refused hl]
    exact sh.follows_pure _
  | none =>
    obtain ⟨C, st⟩ := sh.wired.exists_strung
    obtain ⟨c', i, hc', sh', -⟩ := sh.exists_insertNew st hk hl
    rw [Shelf.insertNew, hl]
    exact ⟨c', hc', sh'⟩

theorem victim?_eq (sh : c.Shows s) : c.victim? = .ok (s.victim?.map Held.slot) := by
  rw [victim?, sh.size_eq, sh.wouldEvict_eq, sh.tail_eq, Shelf.victim?]
  cases s.overfull (s.size + 1) <;> rfl

theorem follows_push [EquivBEq κ] (sh : c.Shows s) (e : Entry κ ν) :
    Follows (c.push e) (s.push e) := by
  rw [push, sh.slot?_eq, Shelf.push, Fault.ok_bind]
  cases hk : s.find? e.key with
  | some h =>
    obtain ⟨c', hc', sh'⟩ := sh.exists_refresh hk
    exact ⟨c', by simp [hc'], sh'⟩
  | none =>
    simp only [Option.map_none, sh.victim?_eq, Fault.ok_bind]
    cases hv : s.victim? with
    | some h =>
      have hh := Shelf.mem_of_oldest? (Shelf.oldest?_of_victim? hv)
      obtain ⟨c', hc', sh'⟩ := sh.exists_replace hh (Shelf.without_key_ne hk h.slot)
      exact ⟨c', by simp [hc'], sh'⟩
    | none => exact sh.follows_insertNew hk

theorem follows_pop (sh : c.Shows s) : Follows c.pop s.pop := by
  rw [pop, sh.tail_eq, Shelf.pop]
  cases ho : s.oldest? with
  | none => exact sh.follows_pure _
  | some h =>
    obtain ⟨c', hc', sh'⟩ := sh.exists_discard (Shelf.mem_of_oldest? ho)
    exact ⟨c'.count .eviction, by simp [hc'], sh'.count .eviction⟩

/-- As many pops as there are records are enough, for an empty cache is never overfull. -/
theorem follows_evictWithin {n : Nat} (sh : c.Shows s) (hn : s.size = n) :
    Follows (c.evictWithin n) (Shelf.evictWithin n s) := by
  induction n generalizing c s with
  | zero =>
    rw [evictWithin, sh.size_eq, sh.wouldEvict_eq, hn, Shelf.not_overfull_zero]
    exact sh.follows_pure _
  | succ n ih =>
    rw [evictWithin, sh.size_eq, sh.wouldEvict_eq, Shelf.evictWithin, Fault.ok_bind]
    by_cases hover : s.overfull s.size = true
    · obtain ⟨c₁, hc₁, sh₁⟩ := sh.follows_pop
      obtain ⟨h, ho, hpop⟩ := Shelf.exists_pop (s := s) (by omega)
      have hsize := sh.inv.size_drop (Shelf.mem_of_oldest? ho)
      rw [hpop] at hc₁ sh₁
      obtain ⟨c₂, hc₂, sh₂⟩ := ih sh₁ (Nat.succ.inj (hsize.trans hn))
      rw [if_pos hover, if_pos hover, hpop]
      exact ⟨c₂, by simp [hc₁, hc₂], sh₂⟩
    · rw [if_neg hover, if_neg hover]
      exact sh.follows_pure _

theorem follows_evictExcess (sh : c.Shows s) : Follows c.evictExcess s.evictExcess := by
  rw [evictExcess, sh.size_eq]
  exact sh.follows_evictWithin rfl

theorem shows_limits (sh : c.Shows s) (capacity : Nat → Nat) (policy : Policy → Policy) :
    { c with capacity := capacity c.capacity, policy := policy c.policy }.Shows
      { s with capacity := capacity s.capacity, policy := policy s.policy } :=
  ⟨{ sh.toAlike with
      capacity := congrArg capacity sh.capacity
      policy := congrArg policy sh.policy },
    { sh.inv with }, { sh.stores with }, { sh.wired with }⟩

theorem follows_setCapacity (sh : c.Shows s) (n : Nat) :
    Follows (c.setCapacity n) (s.setCapacity n) :=
  (sh.shows_limits (fun _ => n) id).follows_evictExcess

theorem follows_setWindow (sh : c.Shows s) (d : Duration) :
    Follows (c.setWindow d) (s.setWindow d) :=
  (sh.shows_limits id (·.withWindow d)).follows_evictExcess

section Discard

variable {c' : Cache κ ν} (hc' : c.discard h.slot = .ok (some h.entry, c'))
include hc'

theorem eraseAt_of_discard {pos : Position} (sh : c.Shows s) (hat : s.at? pos = some h)
    (sh' : c'.Shows (s.drop h)) : c.eraseAt pos = .ok ((s.remove h).1, c'.count .removal) := by
  obtain ⟨hh, -⟩ := sh.inv.at?_eq_some_iff.1 hat
  obtain ⟨n, hn, hnext⟩ := sh.exists_next hh
  have hpos : ((s.after? h).map Held.slot).mapM c'.nodes.position =
      .ok ((s.after? h).map (s.drop h).positionOf) :=
    Fault.mapM_map_ok fun x hx => sh'.position_eq (sh.inv.mem_drop_of_after? hh hx)
  rw [eraseAt, sh.resolve_eq, hat]
  simp [hn, hnext, hc', hpos, Shelf.remove]

theorem take_of_discard [EquivBEq κ] (sh : c.Shows s) (hk : s.find? k = some h) :
    c.take k = .ok (some h.entry, c'.count .removal) := by
  rw [take, sh.slot?_eq, hk]
  simp [hc']

end Discard

theorem follows_eraseAt (sh : c.Shows s) (pos : Position) :
    Follows (c.eraseAt pos) (s.eraseAt pos) := by
  rw [Shelf.eraseAt]
  cases hat : s.at? pos with
  | none =>
    rw [eraseAt, sh.resolve_eq, hat]
    exact sh.follows_pure _
  | some h =>
    obtain ⟨hh, -⟩ := sh.inv.at?_eq_some_iff.1 hat
    obtain ⟨c', hc', sh'⟩ := sh.exists_discard hh
    exact ⟨c'.count .removal, eraseAt_of_discard hc' sh hat sh', sh'.count .removal⟩

theorem follows_erase [EquivBEq κ] (sh : c.Shows s) (k : κ) :
    Follows (c.erase k) (s.erase k) := by
  rw [erase, sh.position?_eq, Shelf.erase, Fault.ok_bind]
  cases hk : s.find? k with
  | none => exact sh.follows_pure _
  | some h =>
    have hat : s.at? (s.positionOf h) = some h :=
      sh.inv.at?_eq_some_iff.2 ⟨Shelf.mem_of_find? hk, rfl⟩
    have herase := sh.follows_eraseAt (s.positionOf h)
    rw [Shelf.eraseAt, hat] at herase
    exact herase

theorem follows_take [EquivBEq κ] (sh : c.Shows s) (k : κ) : Follows (c.take k) (s.take k) := by
  rw [Shelf.take]
  cases hk : s.find? k with
  | none =>
    rw [take, sh.slot?_eq, hk]
    exact sh.follows_pure _
  | some h =>
    obtain ⟨c', hc', sh'⟩ := sh.exists_discard (Shelf.mem_of_find? hk)
    exact ⟨c'.count .removal, take_of_discard hc' sh hk, sh'.count .removal⟩

theorem shows_clear (sh : c.Shows s) : c.clear.Shows s.clear := by
  refine ⟨{ sh.toAlike with chainCount := ?_ }, Shelf.inv_clear sh.inv, sh.stores.clear, ?_⟩
  · exact (Chains.count_clear c.chains).trans sh.chainCount
  · exact ⟨Recency.lists_nil _, _, Chains.hold_empty _ _⟩

theorem shows_limitNodes (sh : c.Shows s) (n : Nat) : (c.limitNodes n).Shows (s.limitNodes n) :=
  ⟨{ sh.toAlike with }, { sh.inv with }, { sh.stores with limit := rfl },
    sh.wired.of_nodes fun _ _ => rfl⟩

theorem shows_clock (sh : c.Shows s) (t : HandClock) :
    { c with clock := t }.Shows { s with clock := t } :=
  ⟨{ sh.toAlike with clock := rfl }, { sh.inv with }, { sh.stores with }, { sh.wired with }⟩

theorem follows_write? [EquivBEq κ] (sh : c.Shows s) (k : κ) (v : ν) :
    Follows (c.write? k v) (s.write? k v) := by
  rw [write?, sh.slot?_eq, Shelf.write?, Fault.ok_bind]
  cases hk : s.find? k with
  | none => exact sh.follows_pure _
  | some h =>
    obtain ⟨c', hc', sh'⟩ := sh.exists_exchange (Shelf.mem_of_find? hk) v
    exact ⟨c', by simp [hc'], sh'⟩

theorem follows_ensureSlot [EquivBEq κ] [Inhabited ν] (sh : c.Shows s) (k : κ) :
    Follows (c.ensureSlot k) ((s.ensure k).map (Except.map Held.slot) id) := by
  rw [ensureSlot, sh.slot?_eq, Shelf.ensure, Fault.ok_bind]
  cases hk : s.find? k with
  | some h => exact sh.follows_pure _
  | none =>
    obtain ⟨c', hc', sh'⟩ := sh.follows_push ⟨k, default⟩
    simp only [Option.map_none, hc', Fault.ok_bind]
    generalize s.push ⟨k, default⟩ = t at sh' ⊢
    obtain ⟨r, s'⟩ := t
    cases r with
    | error r => exact sh'.follows_pure _
    | ok b =>
      simp only [sh'.head_eq]
      cases s'.held.head? with
      | none => exact sh'.follows_pure _
      | some h => exact sh'.follows_pure _

theorem follows_ensure [EquivBEq κ] [Inhabited ν] (sh : c.Shows s) (k : κ) :
    Follows (c.ensure k) ((s.ensure k).map (Except.map (·.entry.value)) id) := by
  obtain ⟨c', hc', sh'⟩ := sh.follows_ensureSlot k
  have hfind := fun h => Shelf.find?_ensure (k := k) (h := h) sh.inv
  rw [ensure, hc', Fault.ok_bind]
  generalize s.ensure k = t at hfind sh' ⊢
  obtain ⟨r, s'⟩ := t
  cases r with
  | error r => exact sh'.follows_pure _
  | ok h =>
    have hh : h ∈ s'.held := Shelf.mem_of_find? (hfind h rfl)
    exact ⟨c', by simp [Except.map, sh'.entryIn_eq hh], sh'⟩

/-- The answer and the shelf after a write to a key that is there by then. -/
theorem follows_ensureWrite [EquivBEq κ] [Inhabited ν] (sh : c.Shows s) (k : κ) (v : ν) :
    Follows (Prod.map (Answer.ofExcept .value) id <$> c.ensureWrite k v)
      (s.apply (.ensureWrite k v)) := by
  obtain ⟨c', hc', sh'⟩ := sh.follows_ensureSlot k
  have hfind := fun h => Shelf.find?_ensure (k := k) (h := h) sh.inv
  rw [ensureWrite, hc', Fault.ok_bind, Shelf.apply]
  generalize s.ensure k = t at hfind sh' ⊢
  obtain ⟨r, s'⟩ := t
  cases r with
  | error r => exact sh'.follows_pure _
  | ok h =>
    have hh : h ∈ s'.held := Shelf.mem_of_find? (hfind h rfl)
    obtain ⟨c₂, hc₂, sh₂⟩ := sh'.exists_exchange hh v
    exact ⟨c₂, by simp [Except.map, hc₂, Answer.ofExcept], sh₂⟩

end Shows
end RecencyCache.Cache
