import Mathlib.Data.List.Nodup
import RecencyCache.Proofs.Shelf

/-!
# What every shelf keeps

`Inv` holds of an empty shelf (`inv_empty`), and each elementary change keeps it: a record leaves
(`inv_drop`), comes (`inv_store`), takes over a slot (`inv_refresh`, `inv_replace`) or gets another
value (`inv_overwrite`), or all records leave (`inv_clear`). The lemmas before that say, for a
record of a shelf, what stands before and after it; later proofs work with such a split
`a ++ h :: b` and never unfold `without` or `after?`.
-/
namespace RecencyCache

theorem successor?_append_cons {α : Type} {p : α → Bool} {a b : List α} {x : α}
    (ha : ∀ y ∈ a, p y = false) (hx : p x = true) : successor? p (a ++ x :: b) = b.head? := by
  induction a with
  | nil => simp [successor?, hx]
  | cons y a ih =>
    simp only [List.cons_append, successor?, ha y (by simp), Bool.false_eq_true, if_false]
    exact ih fun z hz => ha z (by simp [hz])

/-- `hash` gives equal hashes to equal keys. -/
def Agrees {κ : Type} [BEq κ] (hash : κ → UInt64) : Prop :=
  ∀ a b, (a == b) = true → hash a = hash b

namespace Shelf

variable {κ ν : Type} {s : Shelf κ ν} {h x : Held κ ν} {a b : List (Held κ ν)} {k : κ} {i : SlotId}

theorem mem_slots : i ∈ s.slots ↔ ∃ h ∈ s.held, h.slot = i := List.mem_map

theorem slots_append (hs : s.held = a ++ h :: b) :
    s.slots = a.map Held.slot ++ h.slot :: b.map Held.slot := by
  simp [slots, hs]

theorem oldest?_eq_some_iff : s.oldest? = some h ↔ ∃ a, s.held = a ++ [h] :=
  List.getLast?_eq_some_iff

theorem oldest?_eq_none_iff : s.oldest? = none ↔ s.size = 0 := by
  rw [oldest?, List.getLast?_eq_none_iff, size, List.length_eq_zero_iff]

theorem mem_of_oldest? (ho : s.oldest? = some h) : h ∈ s.held := List.mem_of_getLast? ho

theorem oldest?_of_victim? (hv : s.victim? = some h) : s.oldest? = some h := by
  unfold victim? at hv
  split at hv
  · exact hv
  · cases hv

/-- An empty shelf is never overfull. -/
theorem not_overfull_zero (s : Shelf κ ν) : s.overfull 0 = false := by
  rw [overfull]
  cases s.policy <;> simp [Policy.evicts]

theorem exists_pop (hs : 0 < s.size) :
    ∃ h, s.oldest? = some h ∧ s.pop = (.ok h.entry, (s.drop h).count .eviction) := by
  cases ho : s.oldest? with
  | none => exact absurd (oldest?_eq_none_iff.1 ho) (Nat.ne_of_gt hs)
  | some h => exact ⟨h, rfl, by rw [pop, ho]⟩

theorem tenant?_eq_none_iff : s.tenant? i = none ↔ i ∉ s.slots := by
  simp [tenant?, slots]

theorem mem_of_tenant? (ht : s.tenant? i = some h) : h ∈ s.held := List.mem_of_find?_eq_some ht

theorem slot_of_tenant? (ht : s.tenant? i = some h) : h.slot = i := by
  simpa using List.find?_some ht

theorem find?_slot_cons (h : Held κ ν) (l : List (Held κ ν)) (i : SlotId) :
    (h :: l).find? (·.slot == i) = if h.slot = i then some h else l.find? (·.slot == i) := by
  by_cases hi : h.slot = i <;> simp [hi]

theorem tenant?_overwrite (s : Shelf κ ν) (h : Held κ ν) (v : ν) (i : SlotId) :
    (s.overwrite h v).tenant? i = (s.tenant? i).map fun x =>
      if x.slot = h.slot then { x with record.entry.value := v } else x := by
  rw [tenant?, overwrite, List.find?_map, tenant?]
  congr 2
  funext x
  simp only [Function.comp]
  split <;> rfl

theorem slots_overwrite (s : Shelf κ ν) (h : Held κ ν) (v : ν) :
    (s.overwrite h v).slots = s.slots := by
  rw [slots, overwrite, List.map_map]
  refine List.map_congr_left fun x _ => ?_
  simp only [Function.comp]
  split <;> rfl

variable [BEq κ]

/-- No slot and no key occurs twice, and the free slots are those that no record lies in. -/
structure Inv (s : Shelf κ ν) : Prop where
  slots : s.slots.Nodup
  keys : s.held.Pairwise fun x y => (x.key == y.key) = false
  bound : ∀ i ∈ s.slots, i < s.slotCount
  free_nodup : s.free.Nodup
  mem_free : ∀ i, i ∈ s.free ↔ i < s.slotCount ∧ i ∉ s.slots
  fresh : ∀ i, s.slotCount ≤ i → s.generation i = 0

theorem inv_empty (capacity chainCount : Nat) (policy : Policy) (hash : κ → UInt64)
    (clock : HandClock) : (empty capacity chainCount policy hash clock : Shelf κ ν).Inv :=
  ⟨List.nodup_nil, List.Pairwise.nil, by simp [slots, empty], List.nodup_nil,
    by simp [empty], fun _ _ => rfl⟩

/-! ## A record among the others -/

namespace Inv

theorem nodup_split (inv : s.Inv) (hs : s.held = a ++ h :: b) :
    h.slot ∉ (a ++ b).map Held.slot ∧ ((a ++ b).map Held.slot).Nodup := by
  have hn := inv.slots
  rw [slots_append hs] at hn
  simpa using List.nodup_middle.1 hn

theorem slot_ne (inv : s.Inv) (hs : s.held = a ++ h :: b) (hx : x ∈ a ++ b) : x.slot ≠ h.slot :=
  fun e => (inv.nodup_split hs).1 (List.mem_map.2 ⟨x, hx, e⟩)

theorem eq_of_slot (inv : s.Inv) (hh : h ∈ s.held) (hx : x ∈ s.held) (he : x.slot = h.slot) :
    x = h := List.inj_on_of_nodup_map inv.slots hx hh he

theorem without_eq (inv : s.Inv) (hs : s.held = a ++ h :: b) : s.without h.slot = a ++ b := by
  rw [without, hs, List.eraseP_append_right]
  · simp
  · intro x hx
    simpa using inv.slot_ne hs (List.mem_append_left b hx)

theorem after?_eq (inv : s.Inv) (hs : s.held = a ++ h :: b) : s.after? h = b.head? := by
  rw [after?, hs]
  refine successor?_append_cons (fun x hx => ?_) (by simp)
  simpa using inv.slot_ne hs (List.mem_append_left b hx)

theorem mem_of_after? (inv : s.Inv) (hh : h ∈ s.held) (hx : s.after? h = some x) : x ∈ s.held := by
  obtain ⟨a, b, hs⟩ := List.append_of_mem hh
  rw [inv.after?_eq hs] at hx
  rw [hs]
  exact List.mem_append_right a (List.mem_cons_of_mem h (List.mem_of_head? hx))

theorem at?_eq_some_iff (inv : s.Inv) {pos : Position} :
    s.at? pos = some h ↔ h ∈ s.held ∧ s.positionOf h = pos := by
  constructor
  · intro hat
    exact ⟨List.mem_of_find?_eq_some hat, by simpa using List.find?_some hat⟩
  · rintro ⟨hh, rfl⟩
    cases hat : s.at? (s.positionOf h) with
    | none =>
      rw [at?, List.find?_eq_none] at hat
      exact absurd (decide_eq_true rfl) (hat h hh)
    | some x =>
      have hx : x ∈ s.held := List.mem_of_find?_eq_some hat
      have hpos : s.positionOf x = s.positionOf h := by simpa using List.find?_some hat
      rw [inv.eq_of_slot hh hx (congrArg Position.slot hpos)]

theorem exists_at?_iff (inv : s.Inv) {pos : Position} :
    (∃ x, s.at? pos = some x) ↔ pos.slot ∈ s.slots ∧ s.generation pos.slot = pos.generation := by
  constructor
  · rintro ⟨x, hat⟩
    obtain ⟨hx, rfl⟩ := inv.at?_eq_some_iff.1 hat
    exact ⟨mem_slots.2 ⟨x, hx, rfl⟩, rfl⟩
  · rintro ⟨hslot, hgen⟩
    obtain ⟨x, hx, hx'⟩ := mem_slots.1 hslot
    refine ⟨x, inv.at?_eq_some_iff.2 ⟨hx, ?_⟩⟩
    rw [positionOf, hx', hgen]

end Inv

/-! ## Who lies where -/

theorem Inv.tenant?_slot (inv : s.Inv) (hh : h ∈ s.held) : s.tenant? h.slot = some h := by
  cases ht : s.tenant? h.slot with
  | none => exact absurd (mem_slots.2 ⟨h, hh, rfl⟩) (tenant?_eq_none_iff.1 ht)
  | some x => rw [inv.eq_of_slot hh (mem_of_tenant? ht) (slot_of_tenant? ht)]

/-- Who lies where when a record is out. -/
theorem Inv.find?_without (inv : s.Inv) (hh : h ∈ s.held) (i : SlotId) :
    (s.without h.slot).find? (·.slot == i) = if h.slot = i then none else s.tenant? i := by
  obtain ⟨a, b, hs⟩ := List.append_of_mem hh
  rw [inv.without_eq hs]
  split
  · subst i
    refine List.find?_eq_none.2 fun x hx => ?_
    simpa using inv.slot_ne hs hx
  · rename_i hne
    rw [tenant?, hs, List.find?_append, List.find?_append, List.find?_cons_of_neg]
    simpa using hne

theorem Inv.tenant?_drop (inv : s.Inv) (hh : h ∈ s.held) (i : SlotId) :
    (s.drop h).tenant? i = if h.slot = i then none else s.tenant? i := inv.find?_without hh i

/-- Who lies where when the slot of a record was given to another. -/
theorem Inv.find?_cons_without (inv : s.Inv) (hh : h ∈ s.held) (r : Record κ ν) (i : SlotId) :
    (⟨r, h.slot⟩ :: s.without h.slot).find? (·.slot == i) =
      if h.slot = i then some ⟨r, h.slot⟩ else s.tenant? i := by
  rw [find?_slot_cons, inv.find?_without hh]
  split <;> rfl

theorem Inv.size_drop (inv : s.Inv) (hh : h ∈ s.held) : (s.drop h).size + 1 = s.size := by
  obtain ⟨a, b, hs⟩ := List.append_of_mem hh
  rw [size, drop, inv.without_eq hs, size, hs]
  simp only [List.length_append, List.length_cons]
  omega

/-- The record that follows one that leaves stays. -/
theorem Inv.mem_drop_of_after? (inv : s.Inv) (hh : h ∈ s.held) (hx : s.after? h = some x) :
    x ∈ (s.drop h).held := by
  obtain ⟨a, b, hs⟩ := List.append_of_mem hh
  rw [inv.after?_eq hs] at hx
  rw [drop, inv.without_eq hs]
  exact List.mem_append_right a (List.mem_of_head? hx)

/-! ## Who has which key -/

theorem mem_of_find? (hk : s.find? k = some h) : h ∈ s.held := List.mem_of_find?_eq_some hk

theorem key_of_find? (hk : s.find? k = some h) : (h.key == k) = true := by
  simpa using List.find?_some hk

theorem find?_eq_none_iff : s.find? k = none ↔ ∀ x ∈ s.held, (x.key == k) = false := by
  simp [find?]

theorem without_key_ne (hk : s.find? k = none) (i : SlotId) :
    ∀ x ∈ s.without i, (x.key == k) = false :=
  fun x hx => find?_eq_none_iff.1 hk x (List.mem_of_mem_eraseP hx)

section Keys

variable [EquivBEq κ]

theorem Inv.key_ne (inv : s.Inv) (hs : s.held = a ++ h :: b) (hx : x ∈ a ++ b) :
    (h.key == x.key) = false := by
  have hp := inv.keys
  rw [hs, List.pairwise_append] at hp
  obtain ⟨-, hb, hab⟩ := hp
  rcases List.mem_append.1 hx with hx | hx
  · rw [BEq.comm]
    exact hab x hx h (by simp)
  · exact (List.pairwise_cons.1 hb).1 x hx

/-- A record is found under its key, in any of the key's spellings. -/
theorem Inv.find?_eq_some_iff (inv : s.Inv) :
    s.find? k = some h ↔ h ∈ s.held ∧ (h.key == k) = true := by
  refine ⟨fun hk => ⟨mem_of_find? hk, key_of_find? hk⟩, fun ⟨hh, hk⟩ => ?_⟩
  obtain ⟨a, b, hs⟩ := List.append_of_mem hh
  rw [find?, hs, List.find?_append, List.find?_eq_none.2, Option.none_or]
  · simp [hk]
  · intro x hx
    have hne := inv.key_ne hs (List.mem_append_left b hx)
    rw [BEq.comm] at hk
    simpa [BEq.congr_left (c := x.key) hk, BEq.comm (a := x.key)] using hne

theorem Inv.eq_of_key (inv : s.Inv) (hh : h ∈ s.held) (hx : x ∈ s.held)
    (hk : (x.key == h.key) = true) : x = h := by
  have hfind : s.find? h.key = some h := inv.find?_eq_some_iff.2 ⟨hh, BEq.rfl⟩
  rw [inv.find?_eq_some_iff.2 ⟨hx, hk⟩] at hfind
  exact Option.some.inj hfind

/-- Only the record that a key finds has that key. -/
theorem Inv.key_ne_of_find? (inv : s.Inv) (hk : s.find? k = some h) (hs : s.held = a ++ h :: b)
    (hx : x ∈ a ++ b) : (x.key == k) = false := by
  rw [← BEq.congr_right (key_of_find? hk), BEq.comm]
  exact inv.key_ne hs hx

section Map

variable {α : Type} (g : Held κ ν → α) {p : α → Bool}

/-- Taking out the record in a slot is taking out the one with its key. -/
theorem Inv.map_without (inv : s.Inv) (hk : s.find? k = some h)
    (hp : ∀ x, p (g x) = (x.key == k)) :
    (s.without h.slot).map g = (s.held.map g).eraseP p := by
  obtain ⟨a, b, hs⟩ := List.append_of_mem (mem_of_find? hk)
  have hbefore : ∀ y ∈ a.map g, ¬ p y = true := by
    intro y hy
    obtain ⟨x, hx, rfl⟩ := List.mem_map.1 hy
    rw [Bool.not_eq_true, hp]
    exact inv.key_ne_of_find? hk hs (List.mem_append_left b hx)
  have hh : p (g h) = true := (hp h).trans (key_of_find? hk)
  rw [inv.without_eq hs, hs, List.map_append, List.map_append, List.map_cons,
    List.eraseP_append_right _ hbefore, List.eraseP_cons_of_pos hh]

/-- What follows the record in a slot follows the one with its key. -/
theorem Inv.map_after? (inv : s.Inv) (hk : s.find? k = some h)
    (hp : ∀ x, p (g x) = (x.key == k)) :
    (s.after? h).map g = successor? p (s.held.map g) := by
  obtain ⟨a, b, hs⟩ := List.append_of_mem (mem_of_find? hk)
  rw [inv.after?_eq hs, hs, List.map_append, List.map_cons, ← List.head?_map]
  refine (successor?_append_cons (fun y hy => ?_) ((hp h).trans (key_of_find? hk))).symm
  obtain ⟨x, hx, rfl⟩ := List.mem_map.1 hy
  rw [hp]
  exact inv.key_ne_of_find? hk hs (List.mem_append_left b hx)

end Map

end Keys

/-! ## Operations keep the invariant -/

/-- Changes that move, relabel or take out records keep what depends on slots only. -/
theorem Inv.of_slots {s' : Shelf κ ν} (inv : s.Inv) (hslots : s'.slots.Perm s.slots)
    (hkeys : s'.held.Pairwise fun x y => (x.key == y.key) = false)
    (hcount : s'.slotCount = s.slotCount) (hfree : s'.free = s.free)
    (hgen : ∀ i, s.slotCount ≤ i → s'.generation i = s.generation i) : s'.Inv where
  slots := hslots.nodup_iff.2 inv.slots
  keys := hkeys
  bound := fun i hi => hcount ▸ inv.bound i (hslots.mem_iff.1 hi)
  free_nodup := hfree ▸ inv.free_nodup
  mem_free := fun i => by rw [hfree, hcount, hslots.mem_iff]; exact inv.mem_free i
  fresh := fun i hi => by rw [hcount] at hi; rw [hgen i hi]; exact inv.fresh i hi

theorem inv_count (inv : s.Inv) (e : Event) : (s.count e).Inv := { inv with }

theorem Inv.keys_append (inv : s.Inv) (hs : s.held = a ++ h :: b) :
    (a ++ b).Pairwise fun x y => (x.key == y.key) = false := by
  refine List.Pairwise.sublist ?_ (hs ▸ inv.keys)
  exact List.Sublist.append_left (List.sublist_cons_self h b) a

theorem inv_drop (inv : s.Inv) (hh : h ∈ s.held) : (s.drop h).Inv := by
  obtain ⟨a, b, hs⟩ := List.append_of_mem hh
  obtain ⟨hnot, hnodup⟩ := inv.nodup_split hs
  have hslot : h.slot ∈ s.slots := mem_slots.2 ⟨h, hh, rfl⟩
  have hslots : (s.drop h).slots = (a ++ b).map Held.slot := by
    rw [slots, drop, inv.without_eq hs]
  have hmem : ∀ i, i ∈ s.slots ↔ i = h.slot ∨ i ∈ (a ++ b).map Held.slot := by
    intro i
    rw [slots_append hs]
    simp only [List.mem_append, List.mem_cons, List.map_append]
    exact or_left_comm
  refine ⟨hslots ▸ hnodup, ?_, ?_, ?_, ?_, ?_⟩
  · rw [drop, inv.without_eq hs]
    exact inv.keys_append hs
  · intro i hi
    exact inv.bound i ((hmem i).2 (Or.inr (hslots ▸ hi)))
  · refine List.nodup_cons.2 ⟨fun hf => ?_, inv.free_nodup⟩
    exact ((inv.mem_free _).1 hf).2 hslot
  · intro i
    rw [hslots]
    show i ∈ h.slot :: s.free ↔ i < s.slotCount ∧ _
    rw [List.mem_cons, inv.mem_free, hmem]
    by_cases hi : i = h.slot
    · subst hi
      exact ⟨fun _ => ⟨inv.bound _ hslot, hnot⟩, fun _ => Or.inl rfl⟩
    · simp [hi]
  · intro i hi
    have hne : h.slot ≠ i := Nat.ne_of_lt (Nat.lt_of_lt_of_le (inv.bound _ hslot) hi)
    simpa [drop, renewed, hne] using inv.fresh i hi

theorem slots_cons_without (inv : s.Inv) (hh : h ∈ s.held) (r : Record κ ν) :
    ((⟨r, h.slot⟩ :: s.without h.slot).map Held.slot).Perm s.slots := by
  obtain ⟨a, b, hs⟩ := List.append_of_mem hh
  rw [inv.without_eq hs, slots_append hs, List.map_cons, List.map_append]
  exact List.perm_middle.symm

theorem inv_refresh [EquivBEq κ] (inv : s.Inv) {e : Entry κ ν} (hk : s.find? e.key = some h) :
    (s.refresh h e).Inv := by
  have hh := mem_of_find? hk
  obtain ⟨a, b, hs⟩ := List.append_of_mem hh
  refine inv.of_slots (slots_cons_without inv hh _) ?_ rfl rfl fun _ _ => rfl
  show List.Pairwise _ (_ :: s.without h.slot)
  rw [inv.without_eq hs]
  refine List.pairwise_cons.2 ⟨fun x hx => ?_, inv.keys_append hs⟩
  show (e.key == x.key) = false
  rw [← BEq.congr_left (key_of_find? hk)]
  exact inv.key_ne hs hx

theorem inv_replace [EquivBEq κ] (inv : s.Inv) {e : Entry κ ν} (hh : h ∈ s.held)
    (hk : ∀ x ∈ s.without h.slot, (x.key == e.key) = false) : (s.replace h e).Inv := by
  obtain ⟨a, b, hs⟩ := List.append_of_mem hh
  refine inv.of_slots (slots_cons_without inv hh _) ?_ rfl rfl fun i hi => ?_
  · show List.Pairwise _ (_ :: s.without h.slot)
    rw [inv.without_eq hs] at hk ⊢
    refine List.pairwise_cons.2 ⟨fun x hx => ?_, inv.keys_append hs⟩
    rw [BEq.comm]
    exact hk x hx
  · have hlt := inv.bound _ (mem_slots.2 ⟨h, hh, rfl⟩)
    have hne : h.slot ≠ i := Nat.ne_of_lt (Nat.lt_of_lt_of_le hlt hi)
    simp [replace, renewed, count, hne]

theorem inv_store [EquivBEq κ] (inv : s.Inv) {e : Entry κ ν} (hk : s.find? e.key = none) :
    (s.store e).Inv := by
  have hkeys : ∀ i, (⟨s.stamped e, i⟩ :: s.held).Pairwise
      fun (x y : Held κ ν) => (x.key == y.key) = false := by
    intro i
    refine List.pairwise_cons.2 ⟨fun x hx => ?_, inv.keys⟩
    rw [BEq.comm]
    exact find?_eq_none_iff.1 hk x hx
  unfold store
  split
  · rename_i i free hfree
    have hi := (inv.mem_free i).1 (by simp [hfree])
    have hn := List.nodup_cons.1 (hfree ▸ inv.free_nodup)
    refine ⟨List.nodup_cons.2 ⟨hi.2, inv.slots⟩, hkeys i, ?_, hn.2, ?_, inv.fresh⟩
    · intro j hj
      rcases List.mem_cons.1 hj with rfl | hj
      · exact hi.1
      · exact inv.bound j hj
    · intro j
      have hj := inv.mem_free j
      rw [hfree, List.mem_cons] at hj
      show j ∈ free ↔ j < s.slotCount ∧ j ∉ i :: s.slots
      rw [List.mem_cons, not_or]
      constructor
      · intro hjf
        obtain ⟨hlt, hns⟩ := hj.1 (Or.inr hjf)
        exact ⟨hlt, fun e => hn.1 (e ▸ hjf), hns⟩
      · rintro ⟨hlt, hne, hns⟩
        exact (hj.2 ⟨hlt, hns⟩).resolve_left hne
  · rename_i hfree
    have hlt : ∀ i ∈ s.slots, i ≠ s.slotCount := fun i hi => Nat.ne_of_lt (inv.bound i hi)
    refine ⟨List.nodup_cons.2 ⟨fun hi => hlt _ hi rfl, inv.slots⟩, hkeys _, ?_, ?_, ?_, ?_⟩
    · intro j hj
      show j < s.slotCount + 1
      rcases List.mem_cons.1 hj with rfl | hj
      · exact Nat.lt_succ_self _
      · exact Nat.lt_succ_of_lt (inv.bound j hj)
    · show s.free.Nodup
      exact inv.free_nodup
    · intro j
      have hj := inv.mem_free j
      show j ∈ s.free ↔ j < s.slotCount + 1 ∧ j ∉ s.slotCount :: s.slots
      rw [hj, List.mem_cons, not_or]
      constructor
      · rintro ⟨hlt', hns⟩
        exact ⟨Nat.lt_succ_of_lt hlt', Nat.ne_of_lt hlt', hns⟩
      · rintro ⟨hle, hne, hns⟩
        exact ⟨Nat.lt_of_le_of_ne (Nat.lt_succ_iff.1 hle) hne, hns⟩
    · intro j hj
      exact inv.fresh j (Nat.le_of_succ_le hj)

theorem inv_push [EquivBEq κ] (inv : s.Inv) (e : Entry κ ν) : (s.push e).2.Inv := by
  unfold push
  cases hk : s.find? e.key with
  | some h => exact inv_refresh inv hk
  | none =>
    cases hv : s.victim? with
    | some h =>
      exact inv_replace inv (mem_of_oldest? (oldest?_of_victim? hv)) (without_key_ne hk h.slot)
    | none =>
      simp only [insertNew]
      split
      · exact inv
      · exact inv_count (inv_store inv hk) .insertion

theorem inv_clear (inv : s.Inv) : s.clear.Inv := by
  refine ⟨List.nodup_nil, List.Pairwise.nil, by simp [slots, clear], ?_, ?_, ?_⟩
  · exact List.nodup_reverse.2 List.nodup_range
  · intro i
    simp [clear, slots]
  · intro i hi
    have hne : i ∉ s.slots := fun hm => Nat.not_le_of_lt (inv.bound i hm) hi
    simpa [clear, hne] using inv.fresh i hi

theorem inv_overwrite (inv : s.Inv) (h : Held κ ν) (v : ν) : (s.overwrite h v).Inv := by
  refine inv.of_slots (by rw [slots_overwrite]) ?_ rfl rfl fun _ _ => rfl
  refine List.pairwise_map.2 (inv.keys.imp fun {x y} hxy => ?_)
  split <;> split <;> exact hxy

/-! ## What an insertion puts first -/

section Ensure

variable {e : Entry κ ν} {r : Bool}

/-- An entry that a push inserted comes first. -/
theorem head?_push (hk : s.find? e.key = none) (hp : (s.push e).1 = .ok r) :
    ∃ h, (s.push e).2.held.head? = some h ∧ h.entry = e := by
  unfold push at hp ⊢
  simp only [hk] at hp ⊢
  split at hp
  · exact ⟨_, rfl, rfl⟩
  · unfold insertNew at hp ⊢
    split at hp
    · cases hp
    · simp only [store]
      split <;> exact ⟨_, rfl, rfl⟩

variable [EquivBEq κ] [Inhabited ν]

theorem inv_ensure (inv : s.Inv) (k : κ) : (s.ensure k).2.Inv := by
  have hpush := inv_push inv (⟨k, default⟩ : Entry κ ν)
  unfold ensure
  split
  · exact inv
  · split <;> rename_i heq <;> rw [heq] at hpush <;> exact hpush

/-- The record that `ensure` answers is the one with the key. -/
theorem find?_ensure (inv : s.Inv) (he : (s.ensure k).1 = .ok h) :
    (s.ensure k).2.find? k = some h := by
  refine (inv_ensure inv k).find?_eq_some_iff.2 ?_
  unfold ensure at he ⊢
  cases hk : s.find? k with
  | some x =>
    simp only [hk, Except.ok.injEq] at he ⊢
    subst he
    exact ⟨mem_of_find? hk, key_of_find? hk⟩
  | none =>
    have hhead := fun r => head?_push (e := (⟨k, default⟩ : Entry κ ν)) (r := r) hk
    simp only [hk] at he ⊢
    generalize s.push ⟨k, default⟩ = t at he hhead ⊢
    obtain ⟨r, s'⟩ := t
    cases r with
    | error r => cases he
    | ok b =>
      obtain ⟨x, hx, hentry⟩ := hhead b rfl
      simp only at hx
      simp only [hx, Option.elim_some, Except.ok.injEq] at he
      subst he
      have hkey : x.key = k := congrArg Entry.key hentry
      exact ⟨List.mem_of_head? hx, by rw [hkey]; exact BEq.rfl⟩

end Ensure

end Shelf
end RecencyCache
