import RecencyCache.Proofs.Shelf

/-!
# A shelf with other records in its slots

A recast gives the entries other values and the records other times, under another policy and
another clock, and keeps the keys. On a shelf that is recast everything is found in the slot where
it was, and what is taken out or brought in leaves the recast of what it left before. Only which
record has to leave depends on the recast: so `push_recast` asks for the same victim, and
`evictWithin_recast` for an invariant under which the same records are too many.
-/
namespace RecencyCache

section Parts

variable {κ ν ν' : Type}

/-- Other entries for the same keys and other times, with what tells and uses the times. -/
structure Recast (κ ν ν' : Type) where
  entry : Entry κ ν → Entry κ ν'
  stamp : Instant → Instant
  policy : Policy → Policy
  clock : HandClock → HandClock
  key_entry : ∀ e, (entry e).key = e.key
  now_clock : ∀ c, (clock c).now = stamp c.now

namespace Recast

variable (f : Recast κ ν ν') (h : Held κ ν)

def record (x : Record κ ν) : Record κ ν' := ⟨f.entry x.entry, f.stamp x.stamp⟩

def held : Held κ ν' := ⟨f.record h.record, h.slot⟩

@[simp] theorem key_held : (f.held h).key = h.key := f.key_entry h.entry

theorem slot_held : (f.held h).slot = h.slot := rfl

end Recast

theorem successor?_map {α β : Type} (f : α → β) (p : β → Bool) (l : List α) :
    successor? p (l.map f) = (successor? (p ∘ f) l).map f := by
  induction l with
  | nil => rfl
  | cons a l ih =>
    simp only [List.map_cons, successor?, Function.comp_apply]
    split
    · exact List.head?_map
    · exact ih

end Parts

namespace Shelf

variable {κ ν ν' : Type}

def recast (s : Shelf κ ν) (f : Recast κ ν ν') : Shelf κ ν' :=
  { s with held := s.held.map f.held, policy := f.policy s.policy, clock := f.clock s.clock }

variable (s : Shelf κ ν) (f : Recast κ ν ν') (h : Held κ ν) (e : Entry κ ν)

/-! ## Reading -/

theorem size_recast : (s.recast f).size = s.size := List.length_map _

theorem slots_recast : (s.recast f).slots = s.slots := List.map_map

theorem entries_recast : (s.recast f).entries = s.entries.map f.entry := by
  rw [entries, entries, recast, List.map_map, List.map_map]
  rfl

theorem oldest?_recast : (s.recast f).oldest? = s.oldest?.map f.held := List.getLast?_map

theorem at?_recast (pos : Position) : (s.recast f).at? pos = (s.at? pos).map f.held :=
  List.find?_map

theorem after?_recast : (s.recast f).after? (f.held h) = (s.after? h).map f.held :=
  successor?_map f.held _ s.held

theorem reachedLimit?_recast : (s.recast f).reachedLimit? = s.reachedLimit? := by
  rw [reachedLimit?, reachedLimit?, size_recast]
  rfl

theorem summary_recast : (s.recast f).summary = s.summary := by
  rw [summary, summary, size_recast]
  rfl

theorem chainLength_recast (i : Nat) : (s.recast f).chainLength i = s.chainLength i := by
  rw [chainLength, recast, List.countP_map, chainLength]
  simp only [Function.comp_def, Recast.key_held]

theorem longestChain_recast : (s.recast f).longestChain = s.longestChain := by
  have hlength : (s.recast f).chainLength = s.chainLength := funext (s.chainLength_recast f)
  rw [longestChain, longestChain, hlength]
  rfl

/-! ## Taking out -/

theorem without_recast (i : SlotId) : (s.recast f).without i = (s.without i).map f.held :=
  List.eraseP_map

theorem drop_recast : (s.recast f).drop (f.held h) = (s.drop h).recast f := by
  rw [drop, without_recast]
  rfl

theorem pop_recast : (s.recast f).pop = s.pop.map (Except.map f.entry) (·.recast f) := by
  rw [pop, pop, oldest?_recast]
  cases s.oldest? with
  | none => rfl
  | some h =>
    simp only [Option.map_some, drop_recast]
    rfl

theorem remove_recast : (s.recast f).remove (f.held h) = (s.remove h).map id (·.recast f) := by
  rw [remove, after?_recast, drop_recast, Option.map_map]
  rfl

theorem eraseAt_recast (pos : Position) :
    (s.recast f).eraseAt pos = (s.eraseAt pos).map id (·.recast f) := by
  rw [eraseAt, eraseAt, at?_recast]
  cases s.at? pos with
  | none => rfl
  | some h => exact remove_recast s f h

theorem clear_recast : (s.recast f).clear = s.clear.recast f := by
  rw [clear, slots_recast]
  rfl

/-- Under an invariant with which the same records are too many. -/
theorem evictWithin_recast {P : Shelf κ ν → Prop}
    (hover : ∀ s, P s → (s.recast f).overfull s.size = s.overfull s.size)
    (hpop : ∀ s, P s → P s.pop.2) (hs : P s) (n : Nat) :
    evictWithin n (s.recast f) = (evictWithin n s).map id (·.recast f) := by
  induction n generalizing s with
  | zero => rfl
  | succ n ih =>
    have hrest := ih s.pop.2 (hpop s hs)
    rw [evictWithin, evictWithin, size_recast, hover s hs, pop_recast]
    split
    · generalize s.pop = r at hrest ⊢
      obtain ⟨r, s'⟩ := r
      cases r with
      | error r => rfl
      | ok e => simp only [Prod.map, Except.map, id, hrest]
    · rfl

/-! ## Bringing in -/

theorem stamped_recast : (s.recast f).stamped (f.entry e) = f.record (s.stamped e) :=
  congrArg (Record.mk (f.entry e)) (f.now_clock s.clock)

theorem refresh_recast :
    (s.recast f).refresh (f.held h) (f.entry e) = (s.refresh h e).recast f := by
  rw [refresh, without_recast, stamped_recast]
  rfl

theorem replace_recast :
    (s.recast f).replace (f.held h) (f.entry e) = (s.replace h e).recast f := by
  rw [replace, without_recast, stamped_recast]
  rfl

theorem store_recast : (s.recast f).store (f.entry e) = (s.store e).recast f := by
  have hfree : (s.recast f).free = s.free := rfl
  rw [store, store, hfree, stamped_recast]
  cases s.free <;> rfl

theorem insertNew_recast :
    (s.recast f).insertNew (f.entry e) = (s.insertNew e).map id (·.recast f) := by
  rw [insertNew, insertNew, reachedLimit?_recast, store_recast]
  cases s.reachedLimit? <;> rfl

/-! ## By key -/

variable [BEq κ] (k : κ)

theorem find?_recast : (s.recast f).find? k = (s.find? k).map f.held := by
  rw [find?, recast, List.find?_map, find?]
  simp only [Function.comp_def, Recast.key_held]

theorem erase_recast : (s.recast f).erase k = (s.erase k).map id (·.recast f) := by
  rw [erase, erase, find?_recast]
  cases s.find? k with
  | none => rfl
  | some h => exact remove_recast s f h

theorem take_recast : (s.recast f).take k = (s.take k).map (Option.map f.entry) (·.recast f) := by
  rw [take, take, find?_recast]
  cases s.find? k with
  | none => rfl
  | some h =>
    simp only [Option.map_some, drop_recast]
    rfl

variable {s f e} in
/-- A push that would make the same record leave. -/
theorem push_recast (hv : (s.recast f).victim? = s.victim?.map f.held) :
    (s.recast f).push (f.entry e) = (s.push e).map id (·.recast f) := by
  rw [push, push, f.key_entry, find?_recast, hv, insertNew_recast]
  cases s.find? e.key with
  | some h =>
    simp only [Option.map_some, refresh_recast]
    rfl
  | none =>
    cases s.victim? with
    | some h =>
      simp only [Option.map_some, Option.map_none, replace_recast]
      rfl
    | none => rfl

end Shelf
end RecencyCache
