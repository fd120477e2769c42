import RecencyCache.Pool

/-!
# What pool operations keep

A pool seen through a function (`Pool.map`) forgets a part of every item and nothing else, so
`q.map g = p.map g` says that `q` is `p` up to what `g` forgets. `map_modify` gives such an
equation for a change of one item; everything that `g` shows can be read off it.

The rest is one lemma for each operation and each thing that a pool shows beside its items: when
the operation goes through, and what happens to the generations.
-/
namespace RecencyCache

/-! ## Results -/

theorem mapM_pure {m : Type → Type} [Monad m] [LawfulMonad m] {α β : Type} {f : α → m β}
    {g : α → β} {l : List α} (h : ∀ a ∈ l, f a = pure (g a)) : l.mapM f = pure (l.map g) := by
  induction l with
  | nil => rfl
  | cons a l ih =>
    rw [List.mapM_cons, h a (by simp), ih fun b hb => h b (by simp [hb])]
    simp

namespace Fault

variable {α β : Type}

@[simp] theorem ok_bind (a : α) (f : α → Except Fault β) : (Except.ok a >>= f) = f a := rfl

@[simp] theorem map_ok (f : α → β) (a : α) : f <$> (Except.ok a : Except Fault α) = .ok (f a) := rfl

@[simp] theorem pure_eq (a : α) : (pure a : Except Fault α) = .ok a := rfl

/-- What goes through went through step by step. -/
theorem exists_of_bind {r : Except Fault α} {f : α → Except Fault β} {b : β}
    (h : r >>= f = .ok b) : ∃ a, r = .ok a ∧ f a = .ok b := by
  cases r with
  | error e => cases h
  | ok a => exact ⟨a, rfl, h⟩

theorem mapM_map_ok {γ : Type} {o : Option α} {k : α → β} {f : β → Except Fault γ} {g : α → γ}
    (h : ∀ a, o = some a → f (k a) = .ok (g a)) : (o.map k).mapM f = .ok (o.map g) := by
  cases o with
  | none => rfl
  | some a => simp [h a rfl]

end Fault

namespace Pool

variable {α β γ : Type}

/-! ## A pool seen through a function -/

/-- The pool with every item replaced by what `g` makes of it. -/
def map (g : α → β) (p : Pool α) : Pool β where
  slots := p.slots.map fun s => ⟨s.generation, s.item.map g⟩
  free := p.free
  live := p.live
  limit := p.limit

section Map

variable (g : α → β) (p : Pool α)

@[simp] theorem get?_map (i : SlotId) : (p.map g).get? i = (p.get? i).map g := by
  simp only [get?, map, Array.getElem?_map]
  cases p.slots[i]? <;> rfl

@[simp] theorem generation?_map (i : SlotId) : (p.map g).generation? i = p.generation? i := by
  simp only [generation?, map, Array.getElem?_map]
  cases p.slots[i]? <;> rfl

@[simp] theorem size_slots_map : (p.map g).slots.size = p.slots.size := Array.size_map

@[simp] theorem map_map (f : β → γ) : (p.map g).map f = p.map (f ∘ g) := by
  simp only [map, Array.map_map, mk.injEq, and_true]
  congr 1
  funext s
  simp

end Map

/-- Two pools that look the same look the same through everything that shows less. -/
theorem map_eq_map_comp {g : α → β} {p q : Pool α} (h : q.map g = p.map g) (f : β → γ) :
    q.map (f ∘ g) = p.map (f ∘ g) := by
  rw [← map_map, h, map_map]

section SameMap

variable {g : α → β} {p q : Pool α} (h : q.map g = p.map g)
include h

theorem map_get?_eq (i : SlotId) : (q.get? i).map g = (p.get? i).map g := by
  rw [← get?_map, h, get?_map]

theorem isSome_get?_eq (i : SlotId) : (q.get? i).isSome = (p.get? i).isSome := by
  simpa using congrArg Option.isSome (map_get?_eq h i)

theorem generation?_eq (i : SlotId) : q.generation? i = p.generation? i := by
  rw [← generation?_map g, h, generation?_map]

theorem size_slots_eq : q.slots.size = p.slots.size := by
  rw [← size_slots_map g, h, size_slots_map]

theorem free_eq : q.free = p.free := show (q.map g).free = _ by rw [h]; rfl

theorem live_eq : q.live = p.live := show (q.map g).live = _ by rw [h]; rfl

theorem limit_eq : q.limit = p.limit := show (q.map g).limit = _ by rw [h]; rfl

end SameMap

/-- Two pools whose slots show the same look the same. -/
theorem map_eq_map {g : α → β} {p q : Pool α} (hgen : ∀ i, q.generation? i = p.generation? i)
    (hget : ∀ i, (q.get? i).map g = (p.get? i).map g) (hfree : q.free = p.free)
    (hlive : q.live = p.live) (hlimit : q.limit = p.limit) : q.map g = p.map g := by
  simp only [map, mk.injEq, hfree, hlive, hlimit, and_true]
  apply Array.ext_getElem?
  intro i
  have hgen := hgen i
  have hget := hget i
  simp only [generation?, get?] at hgen hget
  rw [Array.getElem?_map, Array.getElem?_map]
  cases hq : q.slots[i]? <;> cases hp : p.slots[i]? <;> simp_all

theorem map_id (p : Pool α) : p.map id = p := by
  simp [map]

/-! ## Changing an item -/

theorem exists_modify {p : Pool α} {i : SlotId} (h : (p.get? i).isSome) (f : α → α) :
    ∃ q, p.modify i f = .ok q := by
  simp [modify, h]

/-- What `g` shows of the pool stays if `f` keeps what `g` shows of the item. -/
theorem map_modify {p q : Pool α} {i : SlotId} {f : α → α} (h : p.modify i f = .ok q)
    {g : α → β} (hg : ∀ a, g (f a) = g a) : q.map g = p.map g := by
  unfold modify at h
  split at h
  · cases h
    simp only [map, mk.injEq, and_true]
    apply Array.ext_getElem?
    intro j
    simp only [Array.getElem?_map, Array.getElem?_modify]
    split
    · cases p.slots[j]? with
      | none => rfl
      | some s => cases hs : s.item <;> simp [hs, hg]
    · rfl
  · cases h

/-! ## Generations -/

section Generations

variable (p : Pool α) (i j : SlotId) (a : α)

theorem generation?_grow : (p.grow a).generation? j =
    if j = p.slots.size then some 0 else p.generation? j := by
  simp only [generation?, grow, Array.getElem?_push]
  split <;> rfl

theorem generation?_renew : (p.renew i).generation? j =
    (p.generation? j).map fun g => if i = j then g + 1 else g := by
  simp only [generation?, renew, Array.getElem?_modify]
  split <;> cases p.slots[j]? <;> rfl

theorem generation?_clear : p.clear.generation? j =
    (p.generation? j).map fun g => if (p.get? j).isSome then g + 1 else g := by
  have hs : p.clear.slots[j]? = p.slots[j]?.map Slot.vacate := Array.getElem?_map
  cases hj : p.slots[j]? with
  | none => simp [generation?, hs, hj]
  | some s => cases hitem : s.item <;> simp [generation?, get?, hs, hj, Slot.vacate, hitem]

theorem position_of_generation? {p : Pool α} {i : SlotId} {g : UInt32}
    (h : p.generation? i = some g) : p.position i = .ok ⟨i, g⟩ := by
  simp [position, h]

end Generations

/-! ## Storing and releasing -/

/-- The pool with an item in the vacant slot `i`. -/
theorem fill_of_vacant {p : Pool α} {i : SlotId} (hi : i < p.slots.size) (hv : p.get? i = none)
    (a : α) : ∃ q, p.fill i a = .ok q ∧ q.free = p.free ∧ q.live = p.live + 1 ∧
      q.limit = p.limit ∧ q.slots.size = p.slots.size ∧
      ∀ j, q.generation? j = p.generation? j := by
  have hs : p.slots[i]? = some p.slots[i] := Array.getElem?_eq_getElem hi
  have hitem : p.slots[i].item = none := by simpa [get?, hs] using hv
  generalize p.slots[i] = s at hs hitem
  obtain ⟨g, item⟩ := s
  subst hitem
  refine ⟨{ p with
      slots := p.slots.modify i fun s => { s with item := some a }
      live := p.live + 1 }, by rw [fill, hs], rfl, rfl, rfl, by simp, ?_⟩
  intro j
  simp only [generation?, Array.getElem?_modify]
  split <;> cases p.slots[j]? <;> rfl

theorem release_of_get? {p : Pool α} {i : SlotId} {a : α} (h : p.get? i = some a)
    (hl : 0 < p.live) : ∃ q, p.release i = .ok (some a, q) ∧ q.free = i :: p.free ∧
      q.live + 1 = p.live ∧ q.limit = p.limit ∧ q.slots.size = p.slots.size ∧
      ∀ j, q.generation? j = (p.generation? j).map fun g => if i = j then g + 1 else g := by
  cases hlive : p.live with
  | zero => omega
  | succ n =>
    refine ⟨{ p with slots := p.slots.modify i Slot.vacate, free := i :: p.free, live := n },
      by rw [release, h, hlive], rfl, rfl, rfl, by simp, ?_⟩
    intro j
    simp only [generation?, Array.getElem?_modify]
    by_cases hij : i = j
    · subst hij
      cases hs : p.slots[i]? with
      | none => simp [get?, hs] at h
      | some s =>
        have hitem : s.item = some a := by simpa [get?, hs] using h
        simp [Slot.vacate, hitem]
    · simp only [hij, if_false]
      cases p.slots[j]? <;> rfl

/-- Releasing an item and storing another one in the slot that is then on top of the free stack is
exchanging the item in place and starting another generation of its slot. -/
theorem store_of_release {p q r : Pool α} {i : SlotId} {a : α} {o : Option α} {f : α → α}
    (hi : p.get? i = some a) (hq : p.release i = .ok (o, q)) (hr : p.modify i f = .ok r)
    (hl : q.reachedLimit? = none) : q.store (f a) = .ok (.granted i (r.renew i)) := by
  obtain ⟨s, hs, hitem⟩ := Option.bind_eq_some_iff.1 hi
  rw [modify, hi, Option.isSome_some, if_pos rfl] at hr
  cases hr
  rw [release, hi] at hq
  cases hlive : p.live with
  | zero =>
    rw [hlive] at hq
    cases hq
  | succ live =>
    rw [hlive] at hq
    cases hq
    have hvacant : (p.slots.modify i Slot.vacate)[i]? = some ⟨s.generation + 1, none⟩ := by
      rw [Array.getElem?_modify, if_pos rfl, hs, Option.map_some, Slot.vacate, hitem]
      rfl
    have hslots : (p.slots.modify i Slot.vacate).modify i (fun s => { s with item := some (f a) }) =
        (p.slots.modify i fun s => { s with item := s.item.map f }).modify i
          fun s => { s with generation := s.generation + 1 } := by
      apply Array.ext_getElem?
      intro j
      simp only [Array.getElem?_modify]
      split
      · subst j
        simp [hs, hitem, Slot.vacate]
      · rfl
    simp only [store, hl, fill, hvacant, Fault.ok_bind, Fault.pure_eq, renew, hslots]

end Pool
end RecencyCache
