import RecencyCache.Fault
/-!
# A pool of slots

The pool stores items in numbered slots. A released slot goes on a stack of free slots, and the next
item is stored in the slot on top of that stack, so the pool grows only when no slot is free. Each
slot counts, in a wrapping 32-bit generation, how often its item left or was exchanged. A position
names a slot together with a generation; it leads to the item only while both still agree.

The lemmas at the end say what `get?` finds after each operation.
-/
namespace RecencyCache

/-- The number of a slot. -/
abbrev SlotId := Nat

/-- A place for one item. -/
structure Slot (α : Type) where
  generation : UInt32 := 0
  item : Option α := none
  deriving Repr

/-- A slot without its item. Taking one out starts another generation. -/
def Slot.vacate {α : Type} (s : Slot α) : Slot α :=
  if s.item.isSome then ⟨s.generation + 1, none⟩ else s

/-- A slot, and the generation it had when the position was taken. -/
structure Position where
  slot : SlotId
  generation : UInt32
  deriving DecidableEq, Repr

/-- The written form of a position. -/
def Position.literal (pos : Position) : String :=
  s!"Position \x7b id: NodeId({pos.slot}), generation: {pos.generation.toNat} \x7d"

/-- Slots, the stack of the free ones with its top first, and the number of items stored. -/
structure Pool (α : Type) where
  slots : Array (Slot α) := #[]
  free : List SlotId := []
  live : Nat := 0
  /-- The number of items there may be, if it is limited. -/
  limit : Option Nat := none
  deriving Repr

/-- The answer to a request for a slot. -/
inductive Grant (α : Type) where
  /-- There are already `limit` items or more. -/
  | refused (limit : Nat)
  /-- The item was stored in `slot`. -/
  | granted (slot : SlotId) (pool : Pool α)

namespace Pool

variable {α : Type}

/-- The item in slot `i`, if the slot exists and holds one. -/
def get? (p : Pool α) (i : SlotId) : Option α :=
  p.slots[i]?.bind Slot.item

/-- The generation of slot `i`, if the slot exists. -/
def generation? (p : Pool α) (i : SlotId) : Option UInt32 :=
  p.slots[i]?.map Slot.generation

/-- The item in slot `i`, which has to hold one. -/
def get (p : Pool α) (i : SlotId) : Except Fault α :=
  match p.get? i with
  | some a => .ok a
  | none => .error (.vacant i)

/-- Changes the item in slot `i`, which has to hold one. -/
def modify (p : Pool α) (i : SlotId) (f : α → α) : Except Fault (Pool α) :=
  if (p.get? i).isSome then
    .ok { p with slots := p.slots.modify i fun s => { s with item := s.item.map f } }
  else
    .error (.vacant i)

/-! ## Storing and releasing -/

/-- Puts an item into the vacant slot `i`. -/
def fill (p : Pool α) (i : SlotId) (a : α) : Except Fault (Pool α) :=
  match p.slots[i]? with
  | none => .error (.outOfRange i)
  | some ⟨_, some _⟩ => .error (.occupied i)
  | some ⟨_, none⟩ =>
    .ok { p with
      slots := p.slots.modify i fun s => { s with item := some a }
      live := p.live + 1 }

/-- Appends a slot that holds `a`. -/
def grow (p : Pool α) (a : α) : Pool α :=
  { p with slots := p.slots.push { item := some a }, live := p.live + 1 }

/-- The limit, if there is one and it is reached. -/
def reachedLimit? (p : Pool α) : Option Nat :=
  p.limit.filter (· ≤ p.live)

/-- Stores an item in the slot on top of the free stack, or in a new slot if none is free. -/
def store (p : Pool α) (a : α) : Except Fault (Grant α) :=
  match p.reachedLimit? with
  | some limit => .ok (.refused limit)
  | none =>
    match p.free with
    | i :: free => do
      let p ← { p with free }.fill i a
      pure (.granted i p)
    | [] => .ok (.granted p.slots.size (p.grow a))

/-- Takes the item out of slot `i`. A slot that holds none, or does not exist, is left alone. -/
def release (p : Pool α) (i : SlotId) : Except Fault (Option α × Pool α) :=
  match p.get? i with
  | none => .ok (none, p)
  | some a =>
    match p.live with
    | 0 => .error .underflow
    | live + 1 =>
      .ok (some a, { p with slots := p.slots.modify i Slot.vacate, free := i :: p.free, live })

/-- Starts another generation of slot `i`, which from now on stands for another item. -/
def renew (p : Pool α) (i : SlotId) : Pool α :=
  { p with slots := p.slots.modify i fun s => { s with generation := s.generation + 1 } }

/-- Limits the number of items, or lifts the limit. Items already stored stay. -/
def setLimit (p : Pool α) (limit : Option Nat) : Pool α :=
  { p with limit }

/-- Drops every item. All slots are kept, and all are free, the last one on top. -/
def clear (p : Pool α) : Pool α :=
  { p with
    slots := p.slots.map Slot.vacate
    free := (List.range p.slots.size).reverse
    live := 0 }

/-! ## Positions -/

/-- The present position of slot `i`. -/
def position (p : Pool α) (i : SlotId) : Except Fault Position :=
  match p.generation? i with
  | some generation => .ok ⟨i, generation⟩
  | none => .error (.outOfRange i)

/-- The slot that a position names, unless the position is stale. -/
def resolve (p : Pool α) (pos : Position) : Option SlotId :=
  if p.generation? pos.slot = some pos.generation ∧ (p.get? pos.slot).isSome then some pos.slot
  else none

/-! ## What a slot holds -/

theorem get_eq_ok_iff {p : Pool α} {i : SlotId} {a : α} : p.get i = .ok a ↔ p.get? i = some a := by
  unfold get
  cases p.get? i <;> simp

theorem get?_modify {p q : Pool α} {i : SlotId} {f : α → α} (h : p.modify i f = .ok q)
    (j : SlotId) : q.get? j = if i = j then (p.get? j).map f else p.get? j := by
  unfold modify at h
  split at h
  · cases h
    simp only [get?, Array.getElem?_modify]
    split <;> cases p.slots[j]? <;> rfl
  · cases h

theorem get?_fill {p q : Pool α} {i : SlotId} {a : α} (h : p.fill i a = .ok q) (j : SlotId) :
    q.get? j = if i = j then some a else p.get? j := by
  unfold fill at h
  split at h
  · cases h
  · cases h
  · rename_i heq
    cases h
    simp only [get?, Array.getElem?_modify]
    split
    · subst j
      rw [heq]
      rfl
    · rfl

theorem get?_grow (p : Pool α) (a : α) (j : SlotId) :
    (p.grow a).get? j = if j = p.slots.size then some a else p.get? j := by
  simp only [get?, grow, Array.getElem?_push]
  split <;> rfl

theorem get?_release {p q : Pool α} {i : SlotId} {a : Option α} (h : p.release i = .ok (a, q))
    (j : SlotId) : q.get? j = if i = j then none else p.get? j := by
  unfold release at h
  split at h
  · rename_i hi
    cases h
    split
    · subst j
      exact hi
    · rfl
  · split at h
    · cases h
    · cases h
      simp only [get?, Array.getElem?_modify]
      split
      · cases p.slots[j]? with
        | none => rfl
        | some s => cases hs : s.item <;> simp [Slot.vacate, hs]
      · rfl

theorem get?_renew (p : Pool α) (i j : SlotId) : (p.renew i).get? j = p.get? j := by
  simp only [get?, renew, Array.getElem?_modify]
  split <;> cases p.slots[j]? <;> rfl

theorem get?_clear (p : Pool α) (j : SlotId) : p.clear.get? j = none := by
  simp only [get?, clear, Array.getElem?_map]
  cases p.slots[j]? with
  | none => rfl
  | some s => cases hs : s.item <;> simp [Slot.vacate, hs]

theorem resolve_eq_some_iff {p : Pool α} {pos : Position} {i : SlotId} :
    p.resolve pos = some i ↔
      pos.slot = i ∧ p.generation? i = some pos.generation ∧ (p.get? i).isSome := by
  unfold resolve
  constructor
  · intro h
    split at h
    · rename_i hpos
      cases h
      exact ⟨rfl, hpos⟩
    · cases h
  · rintro ⟨rfl, hpos⟩
    exact if_pos hpos

end Pool
end RecencyCache
