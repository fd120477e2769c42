import RecencyCache.Cache.Series
import RecencyCache.Proofs.Cache.Staleness

/-!
# Pushing a series

Where there is room for one entry only, `pushVaried` makes all pushes but the first at once. It
counts the answers, and leads to the very cache, that the pushes one by one do:
`pushVaried_eq_pushEach`, and for the keys of a series `pushSeries_eq_pushEach`. On a shelf these
pushes hand one slot on and on (`Lone.pushFrom`), and a shelf with a single record leaves a cache no
choice (`Shows.eq_of_slots_singleton`).
-/
namespace RecencyCache

/-! ## Generations at once -/

namespace Pool

variable {α : Type} (p : Pool α) (i : SlotId) (n : Nat)

theorem renewTimes_zero : p.renewTimes i 0 = p := by
  have hslots : (p.slots.modify i fun s => { s with generation := s.generation + UInt32.ofNat 0 }) =
      p.slots := by
    apply Array.ext_getElem?
    intro j
    rw [Array.getElem?_modify]
    split <;> simp
  rw [renewTimes, hslots]

theorem renewTimes_succ : p.renewTimes i (n + 1) = (p.renew i).renewTimes i n := by
  have hgen : ∀ g : UInt32, g + UInt32.ofNat (n + 1) = g + 1 + UInt32.ofNat n := fun g => by
    rw [Nat.add_comm, UInt32.ofNat_add, UInt32.add_assoc]
    rfl
  simp only [renewTimes, renew, hgen, mk.injEq, and_true]
  apply Array.ext_getElem?
  intro j
  simp only [Array.getElem?_modify]
  split
  · rw [Option.map_map]
    rfl
  · rfl

end Pool

/-! ## Pushes of varied keys -/

namespace Shelf

variable {κ ν : Type} {s : Shelf κ ν} {e : Entry κ ν} {f : Nat → Entry κ ν} {i : SlotId}
  {g : UInt32}

theorem handedTo_handedTo (s : Shelf κ ν) (i : SlotId) (e e' : Entry κ ν) :
    (s.handedTo i e).handedTo i e' = (s.handedTo i e').turn i := rfl

theorem slots_iterate_turn (s : Shelf κ ν) (i : SlotId) (n : Nat) :
    ((turn · i)^[n] s).slots = s.slots := by
  induction n generalizing s with
  | zero => rfl
  | succ n ih => exact ih (s.turn i)

variable [BEq κ]

theorem inv_turn (inv : s.Inv) (hi : i ∈ s.slots) : { s with generation := s.renewed i }.Inv := by
  refine inv.of_slots (List.Perm.refl _) inv.keys rfl rfl fun j hj => ?_
  have hne : i ≠ j := Nat.ne_of_lt (Nat.lt_of_lt_of_le (inv.bound _ hi) hj)
  exact if_neg hne

/-- Pushes `n` entries, from `f j` on, and goes on counting the answers. -/
def pushFrom (f : Nat → Entry κ ν) : Nat → Nat → PushCounts → Shelf κ ν → PushCounts × Shelf κ ν
  | _, 0, t, s => (t, s)
  | j, n + 1, t, s => pushFrom f (j + 1) n (t.count (s.push (f j)).1) (s.push (f j)).2

/-- A push of any key leaves a single record in the same slot. -/
theorem Lone.exists_push (l : s.Lone e i g) (e' : Entry κ ν) :
    ∃ g', (s.push e').2.Lone e' i g' := by
  cases hk : e.key == e'.key with
  | false => exact ⟨g + 1, l.push hk⟩
  | true =>
    obtain ⟨stamp, hheld⟩ := l.held
    have hfind : s.find? e'.key = some ⟨⟨e, stamp⟩, i⟩ := by
      rw [find?, hheld]
      simp [hk]
    rw [Shelf.push, hfind]
    refine ⟨g, l.capacity, l.policy, ⟨s.clock.now, ?_⟩, l.generation⟩
    show _ :: s.without i = _
    rw [l.without_eq]
    rfl

/-- **Pushes of varied keys.** The slot is handed to the last entry, and turned over once for each
entry in between. -/
theorem Lone.pushFrom (hf : ∀ j, ((f j).key == (f (j + 1)).key) = false) (l : s.Lone e i g)
    {j : Nat} (hk : (e.key == (f j).key) = false) (n : Nat) (t : PushCounts) :
    s.pushFrom f j (n + 1) t =
      ({ t with added := t.added + (n + 1) }, (turn · i)^[n] (s.handedTo i (f (j + n)))) := by
  induction n generalizing e g j t s with
  | zero =>
    simp only [Shelf.pushFrom, l.push_eq hk]
    rfl
  | succ n ih =>
    rw [Shelf.pushFrom, l.push_eq hk, ih (l.handedTo (f j)) (hf j), handedTo_handedTo,
      Function.iterate_succ_apply, Nat.add_right_comm j 1 n]
    simp only [PushCounts.count, Nat.add_assoc, Nat.add_comm 1]

end Shelf

namespace Cache

variable {κ ν : Type}

theorem turnOver_zero (c : Cache κ ν) (i : SlotId) : c.turnOver i 0 = c := by
  rw [turnOver, Pool.renewTimes_zero]
  rfl

theorem turnOver_succ (c : Cache κ ν) (i : SlotId) (n : Nat) : c.turnOver i (n + 1) =
    (({ c with nodes := c.nodes.renew i }.count .eviction).count .insertion).turnOver i n := by
  simp only [turnOver, Pool.renewTimes_succ, count, Tally.count, Nat.add_assoc, Nat.add_comm 1]

variable [BEq κ] {c : Cache κ ν} {s : Shelf κ ν} {i : SlotId}

namespace Shows

theorem turn (sh : c.Shows s) (hi : i ∈ s.slots) :
    (({ c with nodes := c.nodes.renew i }.count .eviction).count .insertion).Shows (s.turn i) := by
  have sh' : { c with nodes := c.nodes.renew i }.Shows { s with generation := s.renewed i } :=
    ⟨{ sh.toAlike with }, Shelf.inv_turn sh.inv hi, sh.stores.renew i,
      sh.wired.of_nodes fun j _ => by rw [Pool.get?_renew]⟩
  exact (sh'.count .eviction).count .insertion

theorem turnOver (sh : c.Shows s) (hi : i ∈ s.slots) (n : Nat) :
    (c.turnOver i n).Shows ((Shelf.turn · i)^[n] s) := by
  induction n generalizing c s with
  | zero => rwa [turnOver_zero]
  | succ n ih =>
    rw [turnOver_succ]
    exact ih (sh.turn hi) hi

theorem exists_lone (sh : c.Shows s) (hi : c.soleSlot? = some i) : ∃ e g, s.Lone e i g := by
  unfold soleSlot? at hi
  split at hi
  · rename_i hc
    obtain ⟨hsize, hcapacity, hpolicy⟩ := hc
    rw [sh.size_eq, Shelf.size, List.length_eq_one_iff] at hsize
    obtain ⟨h, hheld⟩ := hsize
    rw [sh.tail_eq, Shelf.oldest?, hheld] at hi
    cases hi
    exact ⟨h.entry, s.generation h.slot, sh.capacity ▸ hcapacity, sh.policy ▸ hpolicy,
      ⟨h.record.stamp, hheld⟩, rfl⟩
  · cases hi

variable [EquivBEq κ]

theorem follows_pushFrom (sh : c.Shows s) (f : Nat → Entry κ ν) (j n : Nat) (t : PushCounts) :
    Follows (c.pushFrom f j n t) (s.pushFrom f j n t) := by
  induction n generalizing c s j t with
  | zero => exact sh.follows_pure t
  | succ n ih =>
    obtain ⟨c₁, hc₁, sh₁⟩ := sh.follows_push (f j)
    rw [pushFrom, hc₁]
    exact ih sh₁ (j + 1) _

/-- Handing the slot of a single record to another entry. -/
theorem exists_handedTo {e : Entry κ ν} {g : UInt32} (sh : c.Shows s) (l : s.Lone e i g)
    (e' : Entry κ ν) : ∃ c', c.replace i e' = .ok c' ∧ c'.Shows (s.handedTo i e') := by
  obtain ⟨stamp, hheld⟩ := l.held
  have hh : ⟨⟨e, stamp⟩, i⟩ ∈ s.held := by
    rw [hheld]
    exact List.mem_singleton_self _
  rw [← l.replace_eq hh]
  refine sh.exists_replace hh fun x hx => ?_
  rw [l.without_eq] at hx
  cases hx

theorem pushVaried_eq {f : Nat → Entry κ ν} (hf : ∀ j, ((f j).key == (f (j + 1)).key) = false)
    (sh : c.Shows s) (n : Nat) : c.pushVaried f n = c.pushEach f n := by
  unfold pushVaried
  split
  · rename_i i n hi
    obtain ⟨e, g, l⟩ := sh.exists_lone hi
    obtain ⟨c₁, hc₁, sh₁⟩ := sh.follows_push (f 0)
    obtain ⟨g₁, l₁⟩ := l.exists_push (f 0)
    obtain ⟨c₂, hc₂, sh₂⟩ := sh₁.exists_handedTo l₁ (f (n + 1))
    have sh₃ := sh₂.turnOver (List.mem_singleton_self i) n
    -- the other pushes one by one lead to the same shelf, which has a single record
    obtain ⟨c', hc', sh'⟩ := sh₁.follows_pushFrom f 1 (n + 1) (PushCounts.count {} (s.push (f 0)).1)
    rw [l₁.pushFrom hf (hf 0), Nat.add_comm 1 n] at hc' sh'
    have heq : c' = c₂.turnOver i n :=
      sh₃.eq_of_slots_singleton sh' (Shelf.slots_iterate_turn _ i n)
    subst heq
    rw [pushEach, pushFrom]
    simp only [hc₁, hc₂, Fault.ok_bind, Fault.pure_eq]
    exact hc'.symm
  · rfl

end Shows

variable [EquivBEq κ] [Inhabited ν] {hash : κ → UInt64}

/-- **Pushes of varied keys.** Where neighbouring keys differ, the answers and the cache are those
of the pushes one by one. -/
theorem pushVaried_eq_pushEach (ha : Agrees hash) (hc : c.Reachable hash) {f : Nat → Entry κ ν}
    (hf : ∀ j, ((f j).key == (f (j + 1)).key) = false) (n : Nat) :
    c.pushVaried f n = c.pushEach f n := by
  obtain ⟨s, sh⟩ := hc.exists_shows ha
  exact sh.pushVaried_eq hf n

end Cache

theorem Series.key_ne {ν : Type} {r : Series ν} (hr : r.step ≠ 0) (j : Nat) :
    (r.key j == r.key (j + 1)) = false := by
  rw [beq_eq_false_iff_ne, key, key, Int64.ofNat_add]
  intro heq
  apply hr
  grind

/-- **A series.** The answers and the cache are those of the pushes one by one. -/
theorem Cache.pushSeries_eq_pushEach {ν : Type} [Inhabited ν] {hash : Int64 → UInt64}
    {c : Cache Int64 ν} (hc : c.Reachable hash) (r : Series ν) (n : Nat) :
    c.pushSeries r n = c.pushEach r.entry n := by
  rw [pushSeries]
  split
  · rfl
  · rename_i hr
    exact pushVaried_eq_pushEach (agrees_of_lawful hash) hc (Series.key_ne hr) n

end RecencyCache
