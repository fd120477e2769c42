import RecencyCache.Proofs.Cache.Wiring
import RecencyCache.Proofs.Shelf.Invariant

/-!
# The pool of a shelf

`Stores p s` says that the pool `p` holds the records of the shelf `s` in their slots, each with the
hash of its key, and numbers and frees its slots as the shelf does. There is one lemma for each way
in which a cache changes the items of its pool, and it names the shelf that the changed pool stores.
-/
namespace RecencyCache

namespace Shelf

variable {κ ν : Type}

/-- What the node of a record stores. -/
def loadOf (s : Shelf κ ν) (h : Held κ ν) : Record κ ν × UInt64 := (h.record, s.hash h.key)

/-- What slot `i` stores. -/
def load? (s : Shelf κ ν) (i : SlotId) : Option (Record κ ν × UInt64) :=
  (s.tenant? i).map s.loadOf

end Shelf

/-- The pool holds the records of the shelf. -/
structure Stores {κ ν : Type} (p : Strand.Nodes κ ν) (s : Shelf κ ν) : Prop where
  load : ∀ i, (p.get? i).map Node.load = s.load? i
  generation : ∀ i < s.slotCount, p.generation? i = some (s.generation i)
  slotCount : p.slots.size = s.slotCount
  free : p.free = s.free
  live : p.live = s.size
  limit : p.limit = s.limit

namespace Stores

variable {κ ν : Type} {p q : Strand.Nodes κ ν} {s : Shelf κ ν} {h : Held κ ν} {i : SlotId}

/-- A pool stores the records, whatever the links of its nodes. -/
theorem of_load (st : Stores p s) (hq : q.map Node.load = p.map Node.load) : Stores q s where
  load i := (Pool.map_get?_eq hq i).trans (st.load i)
  generation i hi := (Pool.generation?_eq hq i).trans (st.generation i hi)
  slotCount := (Pool.size_slots_eq hq).trans st.slotCount
  free := (Pool.free_eq hq).trans st.free
  live := (Pool.live_eq hq).trans st.live
  limit := (Pool.limit_eq hq).trans st.limit

theorem isSome_get?_iff (st : Stores p s) : (p.get? i).isSome ↔ i ∈ s.slots := by
  rw [← Option.isSome_map (f := Node.load), st.load, Shelf.load?, Option.isSome_map,
    ← not_iff_not, ← Shelf.tenant?_eq_none_iff]
  simp

theorem get?_eq_none (st : Stores p s) (hi : i ∉ s.slots) : p.get? i = none := by
  simpa using mt st.isSome_get?_iff.1 hi

/-- Overwriting what one node stores. -/
theorem of_modify {f : Node κ ν → Node κ ν} {s' : Shelf κ ν} (st : Stores p s)
    (hq : p.modify i f = .ok q)
    (hf : ∀ j, s'.load? j = if i = j then (p.get? j).map (Node.load ∘ f) else s.load? j)
    (hgen : s'.generation = s.generation) (hcount : s'.slotCount = s.slotCount)
    (hfree : s'.free = s.free) (hsize : s'.size = s.size) (hlimit : s'.limit = s.limit) :
    Stores q s' := by
  have hmap : q.map (fun _ => ()) = p.map (fun _ => ()) := Pool.map_modify hq fun _ => rfl
  refine ⟨fun j => ?_, fun j hj => ?_, ?_, ?_, ?_, ?_⟩
  · rw [Pool.get?_modify hq, hf]
    split
    · rw [Option.map_map]
    · exact st.load j
  · rw [hcount] at hj
    rw [Pool.generation?_eq hmap, hgen, st.generation j hj]
  · rw [Pool.size_slots_eq hmap, hcount, st.slotCount]
  · rw [Pool.free_eq hmap, hfree, st.free]
  · rw [Pool.live_eq hmap, hsize, st.live]
  · rw [Pool.limit_eq hmap, hlimit, st.limit]

theorem renew (st : Stores p s) (i : SlotId) :
    Stores (p.renew i) { s with generation := s.renewed i } where
  load j := by rw [Pool.get?_renew]; exact st.load j
  generation j hj := by rw [Pool.generation?_renew, st.generation j hj]; rfl
  slotCount := by rw [Pool.renew, Array.size_modify]; exact st.slotCount
  free := st.free
  live := st.live
  limit := st.limit

theorem clear (st : Stores p s) : Stores p.clear s.clear where
  load j := by rw [Pool.get?_clear]; rfl
  generation j hj := by
    rw [Pool.generation?_clear, st.generation j hj, Option.map_some, Option.some.injEq]
    by_cases hjs : j ∈ s.slots
    · simp [Shelf.clear, hjs, st.isSome_get?_iff.2 hjs]
    · simp [Shelf.clear, hjs, st.get?_eq_none hjs]
  slotCount := by rw [Pool.clear, Array.size_map]; exact st.slotCount
  free := by rw [Pool.clear, st.slotCount]; rfl
  live := rfl
  limit := st.limit

theorem reachedLimit?_eq (st : Stores p s) : p.reachedLimit? = s.reachedLimit? := by
  rw [Pool.reachedLimit?, Shelf.reachedLimit?, st.limit, st.live]

theorem store_refused {limit : Nat} (st : Stores p s) (hl : s.reachedLimit? = some limit)
    (n : Node κ ν) : p.store n = .ok (.refused limit) := by
  rw [Pool.store, st.reachedLimit?_eq, hl]

variable [BEq κ]

/-- The node of a record. -/
theorem exists_node (st : Stores p s) (inv : s.Inv) (hh : h ∈ s.held) :
    ∃ n, p.get? h.slot = some n ∧ n.load = s.loadOf h := by
  have hload := st.load h.slot
  rw [Shelf.load?, inv.tenant?_slot hh] at hload
  exact Option.map_eq_some_iff.1 hload

theorem position_eq (st : Stores p s) (inv : s.Inv) (hh : h ∈ s.held) :
    p.position h.slot = .ok (s.positionOf h) :=
  Pool.position_of_generation? (st.generation _ (inv.bound _ (Shelf.mem_slots.2 ⟨h, hh, rfl⟩)))

theorem resolve_eq (st : Stores p s) (inv : s.Inv) (pos : Position) :
    p.resolve pos = (s.at? pos).map Held.slot := by
  cases hat : s.at? pos with
  | none =>
    rw [Option.map_none, Option.eq_none_iff_forall_ne_some]
    intro i hi
    obtain ⟨rfl, hgen, hsome⟩ := Pool.resolve_eq_some_iff.1 hi
    obtain ⟨h, hh, hslot⟩ := Shelf.mem_slots.1 (st.isSome_get?_iff.1 hsome)
    rw [st.generation _ (inv.bound _ (st.isSome_get?_iff.1 hsome)), Option.some.injEq] at hgen
    have hpos : s.positionOf h = pos := by
      rw [Shelf.positionOf, hslot, hgen]
    rw [inv.at?_eq_some_iff.2 ⟨hh, hpos⟩] at hat
    cases hat
  | some h =>
    obtain ⟨hh, rfl⟩ := inv.at?_eq_some_iff.1 hat
    have hi := Shelf.mem_slots.2 ⟨h, hh, rfl⟩
    exact Pool.resolve_eq_some_iff.2
      ⟨rfl, st.generation _ (inv.bound _ hi), st.isSome_get?_iff.2 hi⟩

/-! ## Changes -/

theorem exists_release (st : Stores p s) (inv : s.Inv) (hh : h ∈ s.held) :
    ∃ n q, p.release h.slot = .ok (some n, q) ∧ n.entry = h.entry ∧ Stores q (s.drop h) := by
  obtain ⟨n, hn, hload⟩ := st.exists_node inv hh
  have hsize := inv.size_drop hh
  have hlive : 0 < p.live := by
    rw [st.live]
    omega
  obtain ⟨q, hq, hfree, hlive', hlimit, hslots, hgen⟩ := Pool.release_of_get? hn hlive
  refine ⟨n, q, hq, congrArg (·.1.entry) hload, ?_⟩
  refine ⟨fun i => ?_, fun i hi => ?_, hslots.trans st.slotCount, ?_, ?_, hlimit.trans st.limit⟩
  · rw [Pool.get?_release hq, Shelf.load?, inv.tenant?_drop hh]
    split
    · rfl
    · exact st.load i
  · rw [hgen, st.generation i hi]
    rfl
  · rw [hfree, st.free]
    rfl
  · have := st.live
    omega

/-- Giving the slot of a record to another entry. -/
theorem exists_modify {f : Node κ ν → Node κ ν} {e : Entry κ ν} (st : Stores p s) (inv : s.Inv)
    (hh : h ∈ s.held) (hf : ∀ n, n.load = s.loadOf h → (f n).load = (s.stamped e, s.hash e.key)) :
    ∃ q, p.modify h.slot f = .ok q ∧
      Stores q { s with held := ⟨s.stamped e, h.slot⟩ :: s.without h.slot } := by
  obtain ⟨n, hn, hload⟩ := st.exists_node inv hh
  obtain ⟨q, hq⟩ := Pool.exists_modify (p := p) (i := h.slot) (by rw [hn]; rfl) f
  refine ⟨q, hq, st.of_modify hq (fun j => ?_) rfl rfl rfl ?_ rfl⟩
  · rw [Shelf.load?, Shelf.tenant?, inv.find?_cons_without hh]
    split
    · subst j
      rw [hn, Option.map_some, Option.map_some, Function.comp, hf n hload]
      rfl
    · rfl
  · simpa [Shelf.slots, Shelf.size] using (Shelf.slots_cons_without inv hh (s.stamped e)).length_eq

theorem exists_overwrite (st : Stores p s) (inv : s.Inv) (hh : h ∈ s.held) (v : ν) :
    ∃ q, p.modify h.slot (fun n => { n with entry := { n.entry with value := v } }) = .ok q ∧
      Stores q (s.overwrite h v) := by
  obtain ⟨n, hn, hload⟩ := st.exists_node inv hh
  obtain ⟨q, hq⟩ := Pool.exists_modify (p := p) (i := h.slot) (by rw [hn]; rfl)
    fun n => { n with entry := { n.entry with value := v } }
  refine ⟨q, hq, st.of_modify hq (fun j => ?_) rfl rfl rfl ?_ rfl⟩
  · rw [Shelf.load?, Shelf.tenant?_overwrite, Option.map_map]
    split
    · subst j
      rw [inv.tenant?_slot hh, hn]
      have hrecord : h.record = ⟨n.entry, n.stamp⟩ := (congrArg Prod.fst hload).symm
      have hhash : n.hash = s.hash h.key := congrArg Prod.snd hload
      simp [Shelf.loadOf, Node.load, hhash, hrecord, Shelf.overwrite, Held.key]
    · rename_i hne
      rw [Shelf.load?]
      refine Option.map_congr fun x hx => ?_
      have hxj : x.slot ≠ h.slot := fun e => hne (e.symm.trans (Shelf.slot_of_tenant? hx))
      simp [hxj, Shelf.loadOf, Shelf.overwrite]
  · simp [Shelf.size, Shelf.overwrite]

theorem exists_store {n : Node κ ν} {e : Entry κ ν} (st : Stores p s) (inv : s.Inv)
    (hl : s.reachedLimit? = none) (hn : n.load = (s.stamped e, s.hash e.key)) :
    ∃ i q, p.store n = .ok (.granted i q) ∧ Stores q (s.store e) ∧ q.get? i = some n ∧
      (s.store e).slots = i :: s.slots ∧ i ∉ s.slots ∧ ∀ j ∈ s.slots, q.get? j = p.get? j := by
  cases hfree : s.free with
  | nil =>
    have hi : s.slotCount ∉ s.slots := fun hm => Nat.lt_irrefl _ (inv.bound _ hm)
    have hs : s.store e =
        { s with held := ⟨s.stamped e, s.slotCount⟩ :: s.held, slotCount := s.slotCount + 1 } := by
      rw [Shelf.store, hfree]
    have hget := Pool.get?_grow p n
    rw [st.slotCount] at hget
    refine ⟨s.slotCount, p.grow n, ?_, ?_, by simp [hget], by rw [hs]; rfl, hi, fun j hj => ?_⟩
    · simp only [Pool.store, st.reachedLimit?_eq, hl, st.free, hfree, st.slotCount]
    · rw [hs]
      refine ⟨fun j => ?_, fun j hj => ?_, ?_, st.free, congrArg (· + 1) st.live, st.limit⟩
      · rw [hget, Shelf.load?, Shelf.tenant?, Shelf.find?_slot_cons]
        by_cases hj : j = s.slotCount
        · rw [if_pos hj, if_pos hj.symm, Option.map_some, hn]
          rfl
        · rw [if_neg hj, if_neg (Ne.symm hj)]
          exact st.load j
      · rw [Pool.generation?_grow, st.slotCount]
        split
        · rename_i hj'
          rw [hj', inv.fresh _ (Nat.le_refl _)]
        · rename_i hj'
          exact st.generation j (Nat.lt_of_le_of_ne (Nat.lt_succ_iff.1 hj) hj')
      · rw [Pool.grow, Array.size_push, st.slotCount]
    · rw [hget, if_neg]
      intro e
      exact hi (e ▸ hj)
  | cons i free =>
    obtain ⟨hlt, hi⟩ := (inv.mem_free i).1 (by rw [hfree]; exact List.mem_cons_self)
    have hs : s.store e = { s with held := ⟨s.stamped e, i⟩ :: s.held, free } := by
      rw [Shelf.store, hfree]
    obtain ⟨q, hq, hfree', hlive, hlimit, hslots, hgen⟩ := Pool.fill_of_vacant
      (p := { p with free }) (st.slotCount ▸ hlt) (st.get?_eq_none hi) n
    have hget := Pool.get?_fill hq
    refine ⟨i, q, ?_, ?_, by simp [hget], by rw [hs]; rfl, hi, fun j hj => ?_⟩
    · simp only [Pool.store, st.reachedLimit?_eq, hl, st.free, hfree, hq, Fault.ok_bind,
        Fault.pure_eq]
    · rw [hs]
      refine ⟨fun j => ?_, fun j hj => ?_, ?_, hfree', ?_, hlimit.trans st.limit⟩
      · rw [hget, Shelf.load?, Shelf.tenant?, Shelf.find?_slot_cons]
        split
        · rw [Option.map_some, hn]
          rfl
        · exact st.load j
      · rw [hgen]
        exact st.generation j hj
      · exact hslots.trans st.slotCount
      · exact hlive.trans (congrArg (· + 1) st.live)
    · rw [hget, if_neg]
      · rfl
      · intro e
        exact hi (e ▸ hj)

end Stores
end RecencyCache
